import Munarium.Core.Types
import Munarium.Std.Digest
import Mathlib.Logic.Function.Basic

/-! Guarded commands: a claim before a command's effect, and its receipt after. Each operation is
one transaction of the database. -/
namespace Munarium

/-- A command as its wrapper admits it; the hash names the plane and the request's body. -/
structure GuardedCommand where
  tenant : String
  key : String
  operation : String
  hash : String
  deriving DecidableEq

/-- The primary key of both receipt tables. -/
def GuardedCommand.slot (c : GuardedCommand) : String × String := (c.tenant, c.key)

inductive Admission where
  | legacy
  | claimed
  | replay (body : String)
  deriving DecidableEq

inductive ReceiptState where
  | unresolved
  | completed
  deriving DecidableEq

/-- A row of `command_receipts`, with the table's check. -/
structure CommandReceipt where
  operation : String
  requestHash : String
  state : ReceiptState
  responseBody : Option String
  check : state = .completed ↔ responseBody.isSome

structure RecoveryDb where
  policies : List String
  receipts : String × String → Option CommandReceipt
  /-- `idempotency_keys`: the request's hash and the response's body. -/
  idempotency : String × String → Option (String × String)

def COMMAND_UNRESOLVED_PREFIX : String := "command-unresolved: "

def unresolved : KernelError :=
  .invalidInput (COMMAND_UNRESOLVED_PREFIX ++ "the command is in progress or may have executed; " ++
    "inspect its outcome before authorizing a new key")

namespace RecoveryDb

def enable (db : RecoveryDb) (tenant : String) : RecoveryDb :=
  if tenant ∈ db.policies then db else { db with policies := db.policies ++ [tenant] }

def claim (db : RecoveryDb) (c : GuardedCommand) : RecoveryDb :=
  let row : CommandReceipt := ⟨c.operation, c.hash, .unresolved, none, by decide⟩
  { db with receipts := Function.update db.receipts c.slot (some row) }

def begin (db : RecoveryDb) (c : GuardedCommand) : Result Admission × RecoveryDb :=
  if c.tenant ∉ db.policies then (.ok .legacy, db)
  else if (utf8 c.key).length = 0 ∨ 256 < (utf8 c.key).length then
    (.error (.invalidInput "guarded command keys must be 1-256 bytes"), db)
  else
    match db.receipts c.slot with
    | some row =>
        if row.operation ≠ c.operation ∨ row.requestHash ≠ c.hash then
          (.error .idempotencyMismatch, db)
        else
          match row.responseBody with
          | some body => (.ok (.replay body), db)
          | none => (.error unresolved, db)
    | none =>
        match db.idempotency c.slot with
        | some (prior, body) =>
            if prior = c.hash then (.ok (.replay body), db) else (.error .idempotencyMismatch, db)
        | none => (.ok .claimed, db.claim c)

/-- `INSERT … ON CONFLICT DO NOTHING` of an outcome. -/
def idemStore (db : RecoveryDb) (c : GuardedCommand) (body : String) : RecoveryDb :=
  match db.idempotency c.slot with
  | some _ => db
  | none => { db with idempotency := Function.update db.idempotency c.slot (some (c.hash, body)) }

def idemCheck (db : RecoveryDb) (c : GuardedCommand) : Result (Option String) :=
  match db.idempotency c.slot with
  | some (stored, body) => if stored = c.hash then .ok (some body) else .error .idempotencyMismatch
  | none => .ok none

/-- Whether `finish` may complete the row. -/
def completes (c : GuardedCommand) (row : CommandReceipt) : Bool :=
  row.operation == c.operation && row.requestHash == c.hash && row.state == .unresolved

def finish (db : RecoveryDb) (c : GuardedCommand) (body : String) : Result Unit × RecoveryDb :=
  match db.receipts c.slot with
  | some row =>
      if completes c row then
        let done : CommandReceipt :=
          ⟨row.operation, row.requestHash, .completed, some body, by simp⟩
        let db := { db with receipts := Function.update db.receipts c.slot (some done) }
        (.ok (), db.idemStore c body)
      else (.error unresolved, db)
  | none => (.error unresolved, db)

section
variable {db : RecoveryDb} {c : GuardedCommand} {slot : String × String}

theorem enable_mem (db : RecoveryDb) {t tenant : String} (h : t ∈ db.policies) :
    t ∈ (db.enable tenant).policies := by
  unfold enable
  split_ifs
  · exact h
  · exact List.mem_append_left _ h

theorem enable_tables (db : RecoveryDb) (tenant : String) :
    (db.enable tenant).receipts = db.receipts ∧
      (db.enable tenant).idempotency = db.idempotency := by
  unfold enable
  split_ifs <;> exact ⟨rfl, rfl⟩

/-- A claim, or an answer that changes nothing. -/
theorem begin_db (db : RecoveryDb) (c : GuardedCommand) :
    db.begin c = (.ok .claimed, db.claim c) ∨ (db.begin c).2 = db := by
  unfold begin
  split
  · exact .inr rfl
  · split
    · exact .inr rfl
    · split
      · right
        split_ifs
        · rfl
        · split <;> rfl
      · split
        · right
          split_ifs <;> rfl
        · exact .inl rfl

/-- Keys that `begin` claims. -/
def fits (key : String) : Prop := 0 < (utf8 key).length ∧ (utf8 key).length ≤ 256

theorem fits_of_claimed (h : (db.begin c).1 = .ok .claimed) : fits c.key := by
  unfold begin at h
  split at h
  · cases h
  · split at h
    · cases h
    · rename_i hkey
      unfold fits
      omega

theorem begin_mismatch {row : CommandReceipt} (hpolicy : c.tenant ∈ db.policies)
    (hfits : fits c.key) (hrow : db.receipts c.slot = some row)
    (hother : row.operation ≠ c.operation ∨ row.requestHash ≠ c.hash) :
    db.begin c = (.error .idempotencyMismatch, db) := by
  unfold fits at hfits
  rw [begin, if_neg (not_not.mpr hpolicy), if_neg (by omega), hrow]
  exact if_pos hother

theorem begin_policies (db : RecoveryDb) (c : GuardedCommand) :
    (db.begin c).2.policies = db.policies := by
  rcases begin_db db c with h | h
  · rw [h]
    rfl
  · rw [h]

theorem begin_receipts_ne (db : RecoveryDb) (h : c.slot ≠ slot) :
    (db.begin c).2.receipts slot = db.receipts slot := by
  rcases begin_db db c with hb | hb
  · rw [hb]
    exact Function.update_of_ne h.symm _ _
  · rw [hb]

theorem begin_idempotency (db : RecoveryDb) (c : GuardedCommand) :
    (db.begin c).2.idempotency = db.idempotency := by
  rcases begin_db db c with h | h
  · rw [h]
    rfl
  · rw [h]

/-- A key without a receipt is refused, answered from an older receipt, or claimed. -/
theorem begin_of_none (hpolicy : c.tenant ∈ db.policies) (hrow : db.receipts c.slot = none) :
    (∃ e, db.begin c = (.error e, db)) ∨
      (∃ body, db.idempotency c.slot = some (c.hash, body) ∧
        db.begin c = (.ok (.replay body), db)) ∨
      db.idempotency c.slot = none ∧ db.begin c = (.ok .claimed, db.claim c) := by
  rw [begin, if_neg (not_not.mpr hpolicy), hrow]
  simp only
  split
  · exact .inl ⟨_, rfl⟩
  · split
    · rename_i prior body hold
      split_ifs with hprior
      · exact .inr (.inl ⟨body, hprior ▸ hold, rfl⟩)
      · exact .inl ⟨_, rfl⟩
    · rename_i hold
      exact .inr (.inr ⟨hold, rfl⟩)

/-- A key with a receipt is refused, or answered from it. -/
theorem begin_of_some {row : CommandReceipt} (hpolicy : c.tenant ∈ db.policies)
    (hrow : db.receipts c.slot = some row) :
    (∃ e, db.begin c = (.error e, db)) ∨
      ∃ body, row.operation = c.operation ∧ row.requestHash = c.hash ∧
        row.responseBody = some body ∧ db.begin c = (.ok (.replay body), db) := by
  rw [begin, if_neg (not_not.mpr hpolicy), hrow]
  simp only
  split_ifs with hkey hmatch
  · exact .inl ⟨_, rfl⟩
  · exact .inl ⟨_, rfl⟩
  · obtain ⟨hop, hhash⟩ := not_or.mp hmatch
    split
    · rename_i body hbody
      exact .inr ⟨body, not_not.mp hop, not_not.mp hhash, hbody, rfl⟩
    · exact .inl ⟨_, rfl⟩

theorem idemStore_receipts (db : RecoveryDb) (c : GuardedCommand) (body : String) :
    (db.idemStore c body).receipts = db.receipts := by
  unfold idemStore
  split <;> rfl

theorem idemStore_policies (db : RecoveryDb) (c : GuardedCommand) (body : String) :
    (db.idemStore c body).policies = db.policies := by
  unfold idemStore
  split <;> rfl

theorem idemStore_idempotency_ne (db : RecoveryDb) (body : String) (h : c.slot ≠ slot) :
    (db.idemStore c body).idempotency slot = db.idempotency slot := by
  unfold idemStore
  split
  · rfl
  · exact Function.update_of_ne h.symm _ _

theorem finish_policies (db : RecoveryDb) (c : GuardedCommand) (body : String) :
    (db.finish c body).2.policies = db.policies := by
  unfold finish
  split
  · split_ifs
    · exact idemStore_policies _ c body
    · rfl
  · rfl

theorem finish_ne (db : RecoveryDb) (body : String) (h : c.slot ≠ slot) :
    (db.finish c body).2.receipts slot = db.receipts slot ∧
      (db.finish c body).2.idempotency slot = db.idempotency slot := by
  unfold finish
  split
  · split_ifs
    · simp only [idemStore_receipts, idemStore_idempotency_ne _ body h, and_true]
      exact Function.update_of_ne h.symm _ _
    · exact ⟨rfl, rfl⟩
  · exact ⟨rfl, rfl⟩

/-- A receipt that a completion leaves was one before. -/
theorem receipt_of_finish {P : Prop} {body : String} {row : CommandReceipt}
    (hold : ∀ row, db.receipts slot = some row → P)
    (hrow : (db.finish c body).2.receipts slot = some row) : P := by
  by_cases hslot : c.slot = slot
  · subst hslot
    cases hr : db.receipts c.slot with
    | none =>
      simp only [finish, hr] at hrow
      cases hrow
    | some old => exact hold old hr
  · rw [(finish_ne db body hslot).1] at hrow
    exact hold row hrow

/-- The owner of an unresolved receipt completes it. -/
theorem finish_of_unresolved {row : CommandReceipt} (body : String)
    (hrow : db.receipts c.slot = some row) (hop : row.operation = c.operation)
    (hhash : row.requestHash = c.hash) (hbody : row.responseBody = none) :
    (db.finish c body).1 = .ok () ∧ ∃ done, (db.finish c body).2.receipts c.slot = some done ∧
      done.operation = c.operation ∧ done.requestHash = c.hash ∧
        done.responseBody = some body := by
  have hstate : row.state = .unresolved := by
    cases hs : row.state with
    | unresolved => rfl
    | completed =>
      have hsome := row.check.mp hs
      rw [hbody] at hsome
      cases hsome
  have hcompletes : completes c row = true := by simp [completes, hop, hhash, hstate]
  simp only [finish, hrow, hcompletes, if_true, idemStore_receipts, Function.update_self, true_and]
  exact ⟨_, rfl, hop, hhash, rfl⟩

end
end RecoveryDb
end Munarium

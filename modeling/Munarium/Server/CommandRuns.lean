import Munarium.Lib.GuardedRun
import Munarium.Server.CommandRecovery

/-! Every interleaving of callers that begin a command, run its effect and record its outcome, any
of which may stop between two steps. Under an enabled policy a key's effect runs at most once. -/
namespace Munarium
namespace Recovery

/-- Where one call stands. -/
inductive Phase where
  | idle
  | checking (c : GuardedCommand)
  | executing (c : GuardedCommand) (guarded : Bool)
  | executed (c : GuardedCommand) (guarded : Bool) (body : String)
  | ended

/-- The command that a call has still to see through. -/
def Phase.command : Phase → Option GuardedCommand
  | .idle | .ended => none
  | .checking c | .executing c _ | .executed c _ _ => some c

inductive Event where
  | began (call : ℕ) (c : GuardedCommand) (answer : Result Admission)
  | ran (call : ℕ) (c : GuardedCommand) (outcome : Option String)
  | finished (call : ℕ) (c : GuardedCommand) (body : String) (answer : Result Unit)
  deriving DecidableEq

def Event.slot : Event → String × String
  | .began _ c _ | .ran _ c _ | .finished _ c _ _ => c.slot

/-- The database, the calls, and what has happened. -/
structure State where
  db : RecoveryDb
  phase : ℕ → Phase
  log : List Event

/-- An effect answers with a response's body or with an error. -/
inductive Action where
  | enable (tenant : String)
  | begin (call : ℕ) (c : GuardedCommand)
  | check (call : ℕ)
  | effect (call : ℕ) (outcome : Option String)
  | record (call : ℕ)
  | stop (call : ℕ)

def admitted (c : GuardedCommand) : Result Admission → Phase
  | .ok .legacy => .checking c
  | .ok .claimed => .executing c true
  | _ => .ended

def checked (c : GuardedCommand) : Result (Option String) → Phase
  | .ok none => .executing c false
  | _ => .ended

def afterEffect (c : GuardedCommand) (guarded : Bool) : Option String → Phase
  | some body => .executed c guarded body
  | none => .ended

namespace State

def move (s : State) (i : ℕ) (p : Phase) : State := { s with phase := Function.update s.phase i p }

def emit (s : State) (e : Event) : State := { s with log := s.log ++ [e] }

def step (s : State) : Action → State
  | .enable tenant => { s with db := s.db.enable tenant }
  | .begin i c =>
      match s.phase i with
      | .idle =>
          let (answer, db) := s.db.begin c
          ({ s with db := db }.move i (admitted c answer)).emit (.began i c answer)
      | _ => s
  | .check i =>
      match s.phase i with
      | .checking c => s.move i (checked c (s.db.idemCheck c))
      | _ => s
  | .effect i outcome =>
      match s.phase i with
      | .executing c guarded => (s.move i (afterEffect c guarded outcome)).emit (.ran i c outcome)
      | _ => s
  | .record i =>
      match s.phase i with
      | .executed c true body =>
          let (answer, db) := s.db.finish c body
          ({ s with db := db }.move i .ended).emit (.finished i c body answer)
      | .executed c false body => { s with db := s.db.idemStore c body }.move i .ended
      | _ => s
  | .stop i => s.move i .ended

end State

/-- No call is under way and no guarded receipt exists; older receipts may. -/
structure Fresh (s : State) : Prop where
  idle : ∀ i, s.phase i = .idle
  silent : s.log = []
  unclaimed : ∀ slot, s.db.receipts slot = none

def isRun (slot : String × String) : Event → Bool
  | .ran _ c _ => c.slot == slot
  | _ => false

/-- How often the effect under a key was run. -/
def runs (slot : String × String) (log : List Event) : ℕ := log.countP (isRun slot)

/-- What may have happened under a key that nobody has claimed. -/
def Unclaimed (legacy : Option (String × String)) : Event → Prop
  | .began _ c (.ok (.replay body)) => legacy = some (c.hash, body)
  | .began _ _ (.ok _) => False
  | .began _ _ (.error _) => True
  | _ => False

/-- What may have happened under a key whose claim has no outcome. -/
def Open (j : ℕ) (owner : GuardedCommand) : Event → Prop
  | .began i c (.ok .claimed) => i = j ∧ c = owner
  | .began _ _ (.ok _) => False
  | .began _ _ (.error _) => True
  | .ran i c _ => i = j ∧ c = owner
  | .finished _ _ _ _ => False

/-- What may have happened under a key whose outcome is recorded. -/
def Closed (j : ℕ) (owner : GuardedCommand) (result : String) : Event → Prop
  | .began i c (.ok .claimed) => i = j ∧ c = owner
  | .began _ c (.ok (.replay body)) => c = owner ∧ body = result
  | .began _ _ (.ok .legacy) => False
  | .began _ _ (.error _) => True
  | .ran i c _ => i = j ∧ c = owner
  | .finished i c body answer => i = j ∧ c = owner ∧ body = result ∧ answer = .ok ()

/-- Where the owner of a claim stands, and how often its effect has run. -/
inductive OwnerAt (j : ℕ) (owner : GuardedCommand) (log : List Event) : Phase → Prop
  | executing (hruns : runs owner.slot log = 0) : OwnerAt j owner log (.executing owner true)
  | executed {body : String} (hruns : runs owner.slot log = 1)
      (hran : .ran j owner (some body) ∈ log) : OwnerAt j owner log (.executed owner true body)
  | ended (hruns : runs owner.slot log ≤ 1) : OwnerAt j owner log .ended

/-- A receipt of this command with this body. -/
structure Receipt (db : RecoveryDb) (owner : GuardedCommand) (body : Option String) : Prop where
  row : ∃ row, db.receipts owner.slot = some row ∧ row.operation = owner.operation ∧
    row.requestHash = owner.hash ∧ row.responseBody = body

/-- How far a key under an enabled policy has come. -/
inductive Stage (legacy : Option (String × String)) (slot : String × String) (s : State) : Prop
  | unclaimed (hrow : s.db.receipts slot = none) (hkeys : s.db.idempotency slot = legacy)
      (hcalls : ∀ i c, (s.phase i).command = some c → c.slot ≠ slot)
      (hlog : ∀ e ∈ s.log, e.slot = slot → Unclaimed legacy e)
  | opened {j : ℕ} {owner : GuardedCommand} (hslot : owner.slot = slot)
      (hrow : Receipt s.db owner none)
      (hkeys : s.db.idempotency slot = none)
      (hcalls : ∀ i c, (s.phase i).command = some c → c.slot = slot → i = j)
      (hat : OwnerAt j owner s.log (s.phase j))
      (hlog : ∀ e ∈ s.log, e.slot = slot → Open j owner e)
  | closed {j : ℕ} {owner : GuardedCommand} {result : String} (hslot : owner.slot = slot)
      (hrow : Receipt s.db owner (some result))
      (hcalls : ∀ i c, (s.phase i).command = some c → c.slot ≠ slot)
      (hruns : runs slot s.log = 1) (hran : .ran j owner (some result) ∈ s.log)
      (hfinished : .finished j owner result (.ok ()) ∈ s.log)
      (hlog : ∀ e ∈ s.log, e.slot = slot → Closed j owner result e)

theorem runs_append (slot : String × String) (log : List Event) (e : Event) :
    runs slot (log ++ [e]) = runs slot log + if isRun slot e then 1 else 0 := by
  simp [runs, List.countP_append, List.countP_cons]

theorem isRun_of_slot_ne {slot : String × String} {e : Event} (h : e.slot ≠ slot) :
    isRun slot e = false := by
  cases e with
  | ran i c outcome => simpa [isRun, Event.slot] using h
  | began i c answer => rfl
  | finished i c body answer => rfl

theorem Receipt.congr {db db' : RecoveryDb} {owner : GuardedCommand} {body : Option String}
    (h : Receipt db owner body) (hrow : db'.receipts owner.slot = db.receipts owner.slot) :
    Receipt db' owner body := by
  obtain ⟨row, hr, hrest⟩ := h.row
  exact ⟨row, hrow.trans hr, hrest⟩

/-- What another key's step leaves alone. -/
structure Elsewhere (slot : String × String) (s s' : State) : Prop where
  receipts : s'.db.receipts slot = s.db.receipts slot
  idempotency : s'.db.idempotency slot = s.db.idempotency slot
  phase : ∀ i, s'.phase i = s.phase i ∨ s.phase i ≠ .ended ∧
    (∀ c, (s.phase i).command = some c → c.slot ≠ slot) ∧
      ∀ c, (s'.phase i).command = some c → c.slot ≠ slot
  log : s'.log = s.log ∨ ∃ e : Event, e.slot ≠ slot ∧ s'.log = s.log ++ [e]

theorem Elsewhere.log_mono {slot : String × String} {s s' : State} (h : Elsewhere slot s s')
    {e : Event} (he : e ∈ s.log) : e ∈ s'.log := by
  rcases h.log with hl | ⟨e', -, hl⟩
  · rwa [hl]
  · rw [hl]
    exact List.mem_append_left _ he

theorem Elsewhere.log_mem {slot : String × String} {s s' : State} (h : Elsewhere slot s s')
    {e : Event} (he : e ∈ s'.log) (hslot : e.slot = slot) : e ∈ s.log := by
  rcases h.log with hl | ⟨e', hne, hl⟩
  · rwa [← hl]
  · rw [hl] at he
    rcases List.mem_append.mp he with hold | hnew
    · exact hold
    · rw [List.mem_singleton.mp hnew] at hslot
      exact absurd hslot hne

theorem Elsewhere.runs_eq {slot : String × String} {s s' : State} (h : Elsewhere slot s s') :
    runs slot s'.log = runs slot s.log := by
  rcases h.log with hl | ⟨e', hne, hl⟩
  · rw [hl]
  · rw [hl, runs_append, isRun_of_slot_ne hne]
    rfl

theorem Elsewhere.command {slot : String × String} {s s' : State} (h : Elsewhere slot s s')
    {i : ℕ} {c : GuardedCommand} (hc : (s'.phase i).command = some c) (hslot : c.slot = slot) :
    (s.phase i).command = some c := by
  rcases h.phase i with hp | ⟨-, -, hp⟩
  · rwa [← hp]
  · exact absurd hslot (hp c hc)

theorem OwnerAt.congr {j : ℕ} {owner : GuardedCommand} {log log' : List Event} {p : Phase}
    (h : OwnerAt j owner log p) (hruns : runs owner.slot log' = runs owner.slot log)
    (hmem : ∀ e ∈ log, e ∈ log') : OwnerAt j owner log' p := by
  cases h with
  | executing hr => exact .executing (hruns.trans hr)
  | executed hr hran => exact .executed (hruns.trans hr) (hmem _ hran)
  | ended hr => exact .ended (hruns.trans_le hr)

theorem Stage.elsewhere {legacy : Option (String × String)} {slot : String × String}
    {s s' : State} (h : Stage legacy slot s) (he : Elsewhere slot s s') : Stage legacy slot s' := by
  cases h with
  | unclaimed hrow hkeys hcalls hlog =>
    apply Stage.unclaimed (he.receipts.trans hrow) (he.idempotency.trans hkeys)
    · intro i c hc hslot
      exact hcalls i c (he.command hc hslot) hslot
    · intro e hmem hslot
      exact hlog e (he.log_mem hmem hslot) hslot
  | @opened j owner hslot hrow hkeys hcalls hat hlog =>
    subst hslot
    apply Stage.opened rfl (hrow.congr he.receipts) (he.idempotency.trans hkeys)
    · intro i c hc hs
      exact hcalls i c (he.command hc hs) hs
    · have hphase : s'.phase j = s.phase j := by
        rcases he.phase j with hp | ⟨hended, hother, -⟩
        · exact hp
        · generalize hp : s.phase j = p at hat hended hother
          cases hat with
          | executing => exact absurd rfl (hother owner rfl)
          | executed => exact absurd rfl (hother owner rfl)
          | ended => exact absurd rfl hended
      rw [hphase]
      exact hat.congr he.runs_eq fun e => he.log_mono
    · intro e hmem hs
      exact hlog e (he.log_mem hmem hs) hs
  | closed hslot hrow hcalls hruns hran hfinished hlog =>
    subst hslot
    apply Stage.closed rfl (hrow.congr he.receipts) ?_ (he.runs_eq.trans hruns) (he.log_mono hran)
      (he.log_mono hfinished)
    · intro e hmem hs
      exact hlog e (he.log_mem hmem hs) hs
    · intro i c hc hs
      exact hcalls i c (he.command hc hs) hs

section
variable {legacy : Option (String × String)} {slot : String × String} {s : State} {i : ℕ}

/-- A call under the key is the owner of an unresolved claim. -/
theorem Stage.owner {c : GuardedCommand} (h : Stage legacy slot s)
    (hc : (s.phase i).command = some c) (hslot : c.slot = slot) :
    Receipt s.db c none ∧ s.db.idempotency slot = none ∧ OwnerAt i c s.log (s.phase i) ∧
      (∀ k d, (s.phase k).command = some d → d.slot = slot → k = i) ∧
        ∀ e ∈ s.log, e.slot = slot → Open i c e := by
  cases h with
  | unclaimed _ _ hcalls _ => exact absurd hslot (hcalls i c hc)
  | closed _ _ hcalls => exact absurd hslot (hcalls i c hc)
  | @opened j owner hs hrow hkeys hcalls hat hlog =>
    obtain rfl := hcalls i c hc hslot
    have howner : c = owner := by
      generalize s.phase i = p at hat hc
      cases hat with
      | executing => exact (Option.some.inj hc).symm
      | executed => exact (Option.some.inj hc).symm
      | ended => cases hc
    subst howner
    exact ⟨hrow, hkeys, hat, hcalls, hlog⟩

theorem update_phase_cases {p : Phase} {k : ℕ} {d : GuardedCommand}
    (h : (Function.update s.phase i p k).command = some d) :
    k = i ∧ p.command = some d ∨ k ≠ i ∧ (s.phase k).command = some d := by
  by_cases hk : k = i
  · subst hk
    rw [Function.update_self] at h
    exact .inl ⟨rfl, h⟩
  · rw [Function.update_of_ne hk] at h
    exact .inr ⟨hk, h⟩

/-- A step of a call with another key. -/
theorem elsewhere_move {db : RecoveryDb} {p : Phase} {log : List Event}
    (hreceipts : db.receipts slot = s.db.receipts slot)
    (hkeys : db.idempotency slot = s.db.idempotency slot) (hended : s.phase i ≠ .ended)
    (hold : ∀ c, (s.phase i).command = some c → c.slot ≠ slot)
    (hnew : ∀ c, p.command = some c → c.slot ≠ slot)
    (hlog : log = s.log ∨ ∃ e : Event, e.slot ≠ slot ∧ log = s.log ++ [e]) :
    Elsewhere slot s ⟨db, Function.update s.phase i p, log⟩ := by
  refine ⟨hreceipts, hkeys, ?_, hlog⟩
  intro k
  by_cases hk : k = i
  · subst hk
    right
    simp only [Function.update_self]
    exact ⟨hended, hold, hnew⟩
  · left
    exact Function.update_of_ne hk _ _

theorem admitted_command {c d : GuardedCommand} {answer : Result Admission}
    (h : (admitted c answer).command = some d) : d = c := by
  unfold admitted at h
  split at h
  · exact (Option.some.inj h).symm
  · exact (Option.some.inj h).symm
  · cases h

/-- A begin that changes nothing in the database. -/
theorem Stage.answered {c : GuardedCommand} {answer : Result Admission} (h : Stage legacy slot s)
    (hidle : s.phase i = .idle) (hslot : c.slot = slot)
    (hunclaimed : s.db.receipts slot = none → s.db.idempotency slot = legacy →
      Unclaimed legacy (.began i c answer))
    (hopen : ∀ j owner, Receipt s.db owner none → owner.slot = slot →
      Open j owner (.began i c answer))
    (hclosed : ∀ j owner body, Receipt s.db owner (some body) → owner.slot = slot →
      Closed j owner body (.began i c answer)) :
    Stage legacy slot ⟨s.db, Function.update s.phase i .ended, s.log ++ [.began i c answer]⟩ := by
  have hruns : runs slot (s.log ++ [.began i c answer]) = runs slot s.log := runs_append _ _ _
  have hmem {P : Event → Prop} (hlog : ∀ e ∈ s.log, e.slot = slot → P e)
      (hnew : P (.began i c answer)) :
      ∀ e ∈ s.log ++ [.began i c answer], e.slot = slot → P e := by
    intro e he hs
    rcases List.mem_append.mp he with hold | hlast
    · exact hlog e hold hs
    · rwa [List.mem_singleton.mp hlast]
  cases h with
  | unclaimed hrow hkeys hcalls hlog =>
    refine Stage.unclaimed hrow hkeys ?_ (hmem hlog (hunclaimed hrow hkeys))
    intro k d hd
    rcases update_phase_cases hd with ⟨-, hp⟩ | ⟨-, hp⟩
    · cases hp
    · exact hcalls k d hp
  | @opened j owner hs hrow hkeys hcalls hat hlog =>
    refine Stage.opened hs hrow hkeys ?_ ?_ (hmem hlog (hopen j owner hrow hs))
    · intro k d hd
      rcases update_phase_cases hd with ⟨-, hp⟩ | ⟨-, hp⟩
      · cases hp
      · exact hcalls k d hp
    · have hji : j ≠ i := by
        rintro rfl
        rw [hidle] at hat
        cases hat
      simp only [Function.update_of_ne hji]
      subst hs
      exact hat.congr hruns fun e he => List.mem_append_left _ he
  | @closed j owner result hs hrow hcalls hone hran hfinished hlog =>
    refine Stage.closed hs hrow ?_ (hruns.trans hone) (List.mem_append_left _ hran)
      (List.mem_append_left _ hfinished) (hmem hlog (hclosed j owner result hrow hs))
    intro k d hd
    rcases update_phase_cases hd with ⟨-, hp⟩ | ⟨-, hp⟩
    · cases hp
    · exact hcalls k d hp

theorem Stage.refused {c : GuardedCommand} {e : KernelError} (h : Stage legacy slot s)
    (hidle : s.phase i = .idle) (hslot : c.slot = slot) :
    Stage legacy slot
      ⟨s.db, Function.update s.phase i .ended, s.log ++ [.began i c (.error e)]⟩ :=
  h.answered hidle hslot (fun _ _ => trivial) (fun _ _ _ _ => trivial) fun _ _ _ _ _ => trivial

theorem Receipt.unique {db : RecoveryDb} {owner : GuardedCommand} {body : Option String}
    {row : CommandReceipt} (h : Receipt db owner body) (hrow : db.receipts owner.slot = some row) :
    row.operation = owner.operation ∧ row.requestHash = owner.hash ∧ row.responseBody = body := by
  obtain ⟨row', hr, hrest⟩ := h.row
  rw [hrow] at hr
  rwa [Option.some.inj hr]

theorem command_ext {c d : GuardedCommand} (hslot : c.slot = d.slot)
    (hop : c.operation = d.operation) (hhash : c.hash = d.hash) : c = d := by
  obtain ⟨t, k, o, h⟩ := c
  obtain ⟨t', k', o', h'⟩ := d
  simp only [GuardedCommand.slot, Prod.mk.injEq] at hslot
  obtain ⟨rfl, rfl⟩ := hslot
  cases hop
  cases hhash
  rfl

theorem Stage.begin {c : GuardedCommand} (h : Stage legacy slot s)
    (hpolicy : slot.1 ∈ s.db.policies) (hidle : s.phase i = .idle) :
    Stage legacy slot (s.step (.begin i c)) := by
  simp only [State.step, hidle]
  by_cases hslot : c.slot = slot
  · subst hslot
    cases hrow : s.db.receipts c.slot with
    | none =>
      rcases RecoveryDb.begin_of_none hpolicy hrow with ⟨e, hb⟩ | ⟨body, hold, hb⟩ | ⟨hold, hb⟩
      · rw [hb]
        exact h.refused hidle rfl
      · rw [hb]
        apply h.answered hidle rfl
        · intro _ hkeys
          exact hkeys.symm.trans hold
        · intro j owner hr hs
          obtain ⟨row, hrow', -⟩ := hr.row
          rw [hs, hrow] at hrow'
          cases hrow'
        · intro j owner result hr hs
          obtain ⟨row, hrow', -⟩ := hr.row
          rw [hs, hrow] at hrow'
          cases hrow'
      · rw [hb]
        cases h with
        | @opened j owner hs hr =>
          obtain ⟨row, hrow', -⟩ := hr.row
          rw [hs, hrow] at hrow'
          cases hrow'
        | @closed j owner result hs hr =>
          obtain ⟨row, hrow', -⟩ := hr.row
          rw [hs, hrow] at hrow'
          cases hrow'
        | unclaimed _ hkeys hcalls hlog =>
          have hnone : legacy = none := hkeys.symm.trans hold
          have hquiet : ∀ e ∈ s.log, isRun c.slot e = true → False := by
            intro e he hrun
            cases e with
            | began | finished => cases hrun
            | ran k d outcome => exact hlog _ he (eq_of_beq hrun)
          apply Stage.opened (j := i) (rfl : c.slot = c.slot)
          · exact ⟨_, Function.update_self _ _ _, rfl, rfl, rfl⟩
          · exact hold
          · intro k d hd hs
            rcases update_phase_cases hd with ⟨hk, -⟩ | ⟨-, hp⟩
            · exact hk
            · exact absurd hs (hcalls k d hp)
          · simp only [State.emit, State.move, Function.update_self]
            apply OwnerAt.executing
            have happ := runs_append c.slot s.log (.began i c (.ok .claimed))
            have hzero : runs c.slot s.log = 0 := by
              rw [runs, List.countP_eq_zero]
              intro e he hrun
              exact hquiet e he hrun
            rw [hzero] at happ
            exact happ
          · intro e he hs
            rcases List.mem_append.mp he with hmem | hlast
            · have hu := hlog e hmem hs
              cases e with
              | ran | finished => exact hu.elim
              | began k d answer =>
                rcases answer with e | ⟨_ | _ | body⟩
                · trivial
                · exact hu.elim
                · exact hu.elim
                · cases hnone.symm.trans hu
            · rw [List.mem_singleton.mp hlast]
              exact ⟨rfl, rfl⟩
    | some row =>
      rcases RecoveryDb.begin_of_some hpolicy hrow with ⟨e, hb⟩ | ⟨body, hop, hhash, hbody, hb⟩
      · rw [hb]
        exact h.refused hidle rfl
      · rw [hb]
        apply h.answered hidle rfl
        · intro hnone
          rw [hrow] at hnone
          cases hnone
        · intro j owner hr hs
          obtain ⟨-, -, hnone⟩ := hr.unique (hs ▸ hrow)
          rw [hbody] at hnone
          cases hnone
        · intro j owner result hr hs
          obtain ⟨hop', hhash', hresult⟩ := hr.unique (hs ▸ hrow)
          rw [hbody] at hresult
          exact ⟨command_ext hs.symm (hop.symm.trans hop') (hhash.symm.trans hhash'),
            Option.some.inj hresult⟩
  · apply h.elsewhere
    apply elsewhere_move (RecoveryDb.begin_receipts_ne _ hslot)
    · exact congrFun (RecoveryDb.begin_idempotency s.db c) slot
    · rw [hidle]
      nofun
    · intro d hd
      rw [hidle] at hd
      cases hd
    · intro d hd
      rwa [admitted_command hd]
    · exact .inr ⟨.began i c (s.db.begin c).1, hslot, rfl⟩

theorem Stage.check (h : Stage legacy slot s) : Stage legacy slot (s.step (.check i)) := by
  simp only [State.step]
  split
  · rename_i c hphase
    have hslot : c.slot ≠ slot := by
      intro hs
      obtain ⟨-, -, hat, -⟩ := h.owner (by rw [hphase]; rfl) hs
      rw [hphase] at hat
      cases hat
    apply h.elsewhere
    apply elsewhere_move rfl rfl
    · rw [hphase]
      nofun
    · intro d hd
      rw [hphase] at hd
      rwa [← Option.some.inj hd]
    · intro d hd
      have hdc : d = c := by
        unfold checked at hd
        split at hd
        · exact (Option.some.inj hd).symm
        · cases hd
      rwa [hdc]
    · exact .inl rfl
  · exact h

theorem afterEffect_command {c d : GuardedCommand} {guarded : Bool} {outcome : Option String}
    (h : (afterEffect c guarded outcome).command = some d) : d = c := by
  cases outcome with
  | none => cases h
  | some body => exact (Option.some.inj h).symm

theorem Stage.effect (h : Stage legacy slot s) (outcome : Option String) :
    Stage legacy slot (s.step (.effect i outcome)) := by
  simp only [State.step]
  split
  · rename_i c guarded hphase
    have hcommand : (s.phase i).command = some c := by
      rw [hphase]
      rfl
    by_cases hslot : c.slot = slot
    · obtain ⟨hrow, hkeys, hat, hcalls, hlog⟩ := h.owner hcommand hslot
      rw [hphase] at hat
      subst hslot
      cases hat with
      | executing hruns =>
        have hone : runs c.slot (s.log ++ [.ran i c outcome]) = 1 := by
          rw [runs_append, hruns]
          simp [isRun]
        refine Stage.opened (j := i) rfl hrow hkeys ?_ ?_ ?_
        · intro k d hd hs
          rcases update_phase_cases hd with ⟨hk, -⟩ | ⟨-, hp⟩
          · exact hk
          · exact hcalls k d hp hs
        · simp only [State.emit, State.move, Function.update_self]
          cases outcome with
          | none => exact .ended hone.le
          | some body =>
            exact .executed hone (List.mem_append_right _ (List.mem_singleton.mpr rfl))
        · intro e he hs
          rcases List.mem_append.mp he with hmem | hlast
          · exact hlog e hmem hs
          · rw [List.mem_singleton.mp hlast]
            exact ⟨rfl, rfl⟩
    · apply h.elsewhere
      apply elsewhere_move rfl rfl
      · rw [hphase]
        nofun
      · intro d hd
        rw [hcommand] at hd
        rwa [← Option.some.inj hd]
      · intro d hd
        rwa [afterEffect_command hd]
      · exact .inr ⟨.ran i c outcome, hslot, rfl⟩
  · exact h

theorem Stage.record (h : Stage legacy slot s) : Stage legacy slot (s.step (.record i)) := by
  simp only [State.step]
  split
  · rename_i c body hphase
    have hcommand : (s.phase i).command = some c := by
      rw [hphase]
      rfl
    by_cases hslot : c.slot = slot
    · obtain ⟨⟨row, hrow, hop, hhash, hbody⟩, -, hat, hcalls, hlog⟩ := h.owner hcommand hslot
      rw [hphase] at hat
      subst hslot
      obtain ⟨hanswer, hdone⟩ := RecoveryDb.finish_of_unresolved body hrow hop hhash hbody
      cases hat with
      | @executed _ hruns hran =>
        refine Stage.closed (j := i) (rfl : c.slot = c.slot) ⟨hdone⟩ ?_ ?_
          (List.mem_append_left _ hran) ?_ ?_
        · intro k d hd
          rcases update_phase_cases hd with ⟨-, hp⟩ | ⟨hk, hp⟩
          · cases hp
          · intro hs
            exact hk (hcalls k d hp hs)
        · exact (runs_append _ _ _).trans hruns
        · rw [hanswer]
          exact List.mem_append_right _ (List.mem_singleton.mpr rfl)
        · intro e he hs
          rcases List.mem_append.mp he with hmem | hlast
          · have hopen := hlog e hmem hs
            cases e with
            | ran => exact hopen
            | finished => exact hopen.elim
            | began k d answer =>
              rcases answer with e | ⟨_ | _ | b⟩
              · trivial
              · exact hopen.elim
              · exact hopen
              · exact hopen.elim
          · rw [List.mem_singleton.mp hlast]
            exact ⟨rfl, rfl, rfl, hanswer⟩
    · have hdb := RecoveryDb.finish_ne s.db body hslot
      apply h.elsewhere
      apply elsewhere_move hdb.1 hdb.2
      · rw [hphase]
        nofun
      · intro d hd
        rw [hcommand] at hd
        rwa [← Option.some.inj hd]
      · intro d hd
        cases hd
      · exact .inr ⟨.finished i c body (s.db.finish c body).1, hslot, rfl⟩
  · rename_i c body hphase
    have hslot : c.slot ≠ slot := by
      intro hs
      obtain ⟨-, -, hat, -⟩ := h.owner (by rw [hphase]; rfl) hs
      rw [hphase] at hat
      cases hat
    apply h.elsewhere
    apply elsewhere_move (congrFun (RecoveryDb.idemStore_receipts _ _ _) slot)
      (RecoveryDb.idemStore_idempotency_ne _ _ hslot)
    · rw [hphase]
      nofun
    · intro d hd
      rw [hphase] at hd
      rwa [← Option.some.inj hd]
    · intro d hd
      cases hd
    · exact .inl rfl
  · exact h

theorem Stage.stop (h : Stage legacy slot s) : Stage legacy slot (s.step (.stop i)) := by
  cases hcommand : (s.phase i).command with
  | none =>
    by_cases hended : s.phase i = .ended
    · have hsame : s.step (.stop i) = s := by
        simp only [State.step, State.move, ← hended, Function.update_eq_self]
      rwa [hsame]
    · apply h.elsewhere
      apply elsewhere_move rfl rfl hended
      · intro d hd
        rw [hcommand] at hd
        cases hd
      · intro d hd
        cases hd
      · exact .inl rfl
  | some c =>
    by_cases hslot : c.slot = slot
    · obtain ⟨hrow, hkeys, hat, hcalls, hlog⟩ := h.owner hcommand hslot
      subst hslot
      refine Stage.opened (j := i) rfl hrow hkeys ?_ ?_ hlog
      · intro k d hd hs
        rcases update_phase_cases hd with ⟨hk, -⟩ | ⟨-, hp⟩
        · exact hk
        · exact hcalls k d hp hs
      · simp only [State.step, State.move, Function.update_self]
        apply OwnerAt.ended
        generalize s.phase i = p at hat
        cases hat with
        | executing hruns => omega
        | executed hruns => omega
        | ended hruns => exact hruns
    · apply h.elsewhere
      apply elsewhere_move rfl rfl
      · intro hended
        rw [hended] at hcommand
        cases hcommand
      · intro d hd
        rw [hcommand] at hd
        rwa [← Option.some.inj hd]
      · intro d hd
        cases hd
      · exact .inl rfl

theorem policies_step (a : Action) {t : String} (h : t ∈ s.db.policies) :
    t ∈ (s.step a).db.policies := by
  cases a with
  | enable tenant => exact RecoveryDb.enable_mem s.db h
  | begin i c =>
    simp only [State.step]
    split
    · simp only [State.emit, State.move, RecoveryDb.begin_policies]
      exact h
    · exact h
  | check i =>
    simp only [State.step]
    split <;> exact h
  | effect i outcome =>
    simp only [State.step]
    split <;> exact h
  | record i =>
    simp only [State.step]
    split
    · simp only [State.emit, State.move, RecoveryDb.finish_policies]
      exact h
    · simp only [State.move, RecoveryDb.idemStore_policies]
      exact h
    · exact h
  | stop i => exact h

theorem Stage.step (h : Stage legacy slot s) (hpolicy : slot.1 ∈ s.db.policies) (a : Action) :
    Stage legacy slot (s.step a) := by
  cases a with
  | enable tenant =>
    obtain ⟨hreceipts, hkeys⟩ := RecoveryDb.enable_tables s.db tenant
    apply h.elsewhere
    exact ⟨congrFun hreceipts slot, congrFun hkeys slot, fun i => .inl rfl, .inl rfl⟩
  | begin i c =>
    cases hphase : s.phase i with
    | idle => exact h.begin hpolicy hphase
    | checking | executing | executed | ended =>
      simp only [State.step, hphase]
      exact h
  | check i => exact h.check
  | effect i outcome => exact h.effect outcome
  | record i => exact h.record
  | stop i => exact h.stop

/-- Every key under a policy that is enabled from the start is at some stage. -/
theorem stage_of_run {s₀ : State} (h₀ : Fresh s₀) (hpolicy : slot.1 ∈ s₀.db.policies)
    (hrun : Reached State.step anyLabel s₀ s) :
    Stage (s₀.db.idempotency slot) slot s ∧ slot.1 ∈ s.db.policies := by
  refine hrun.invariant (I := fun s => Stage _ slot s ∧ slot.1 ∈ s.db.policies) ?_ ?_
  · refine ⟨.unclaimed (h₀.unclaimed slot) rfl ?_ ?_, hpolicy⟩
    · intro i c hc
      rw [h₀.idle i] at hc
      cases hc
    · intro e he
      rw [h₀.silent] at he
      cases he
  · intro s a ⟨hs, hp⟩ _
    exact ⟨hs.step hp a, policies_step a hp⟩

/-- Only keys that fit are claimed. -/
theorem fits_of_run {s₀ : State} (h₀ : Fresh s₀) (hrun : Reached State.step anyLabel s₀ s) :
    ∀ slot row, s.db.receipts slot = some row → RecoveryDb.fits slot.2 := by
  refine hrun.invariant (I := fun s => ∀ slot row, s.db.receipts slot = some row →
    RecoveryDb.fits slot.2) ?_ ?_
  · intro slot row hrow
    rw [h₀.unclaimed] at hrow
    cases hrow
  · intro s a hs _ slot row hrow
    cases a with
    | enable tenant =>
      simp only [State.step, (RecoveryDb.enable_tables s.db tenant).1] at hrow
      exact hs slot row hrow
    | begin i c =>
      simp only [State.step] at hrow
      split at hrow
      · simp only [State.emit, State.move] at hrow
        by_cases hslot : c.slot = slot
        · subst hslot
          rcases RecoveryDb.begin_db s.db c with hb | hb
          · exact RecoveryDb.fits_of_claimed (congrArg Prod.fst hb)
          · rw [hb] at hrow
            exact hs _ row hrow
        · rw [RecoveryDb.begin_receipts_ne _ hslot] at hrow
          exact hs slot row hrow
      · exact hs slot row hrow
    | check i =>
      simp only [State.step] at hrow
      split at hrow <;> exact hs slot row hrow
    | effect i outcome =>
      simp only [State.step] at hrow
      split at hrow <;> exact hs slot row hrow
    | record i =>
      simp only [State.step] at hrow
      split at hrow
      · exact RecoveryDb.receipt_of_finish (hs slot) hrow
      · simp only [State.move, RecoveryDb.idemStore_receipts] at hrow
        exact hs slot row hrow
      · exact hs slot row hrow
    | stop i => exact hs slot row hrow

/-- A claim without an outcome. -/
structure Lost (log : List Event) (slot : String × String) : Prop where
  claimed : ∃ i c, .began i c (.ok .claimed) ∈ log ∧ c.slot = slot
  unrecorded : ∀ i c body, .finished i c body (.ok ()) ∈ log → c.slot ≠ slot

/-- Under an enabled policy a key's effect runs at most once; a replay is what that effect's call
recorded, or an older receipt; another request for a claimed key is a mismatch; and a key whose
outcome is lost is refused. -/
theorem guarded_commands {s₀ s : State} {slot : String × String} (h₀ : Fresh s₀)
    (hpolicy : slot.1 ∈ s₀.db.policies) (hrun : Reached State.step anyLabel s₀ s) :
    runs slot s.log ≤ 1 ∧
      (∀ i c body, .began i c (.ok (.replay body)) ∈ s.log → c.slot = slot →
        (∃ j, .ran j c (some body) ∈ s.log ∧ .finished j c body (.ok ()) ∈ s.log) ∨
          s₀.db.idempotency slot = some (c.hash, body)) ∧
      (∀ (c : GuardedCommand) row, c.slot = slot → s.db.receipts slot = some row →
        row.operation ≠ c.operation ∨ row.requestHash ≠ c.hash →
          s.db.begin c = (.error .idempotencyMismatch, s.db)) ∧
      (Lost s.log slot → ∀ c : GuardedCommand, c.slot = slot →
        ∃ e, s.db.begin c = (.error e, s.db)) := by
  obtain ⟨hstage, hp⟩ := stage_of_run h₀ hpolicy hrun
  refine ⟨?_, ?_, ?_, ?_⟩
  · cases hstage with
    | unclaimed _ _ _ hlog =>
      have hzero : runs slot s.log = 0 := by
        rw [runs, List.countP_eq_zero]
        intro e he hr
        cases e with
        | began | finished => cases hr
        | ran k d outcome => exact hlog _ he (eq_of_beq hr)
      omega
    | @opened j owner hslot hrow hkeys hcalls hat hlog =>
      subst hslot
      generalize s.phase j = p at hat
      cases hat with
      | executing hruns => omega
      | executed hruns => omega
      | ended hruns => exact hruns
    | closed _ _ _ hruns => omega
  · intro i c body hmem hslot
    cases hstage with
    | unclaimed _ _ _ hlog => exact .inr (hlog _ hmem hslot)
    | opened _ _ _ _ _ hlog => exact (hlog _ hmem hslot).elim
    | @closed j owner result _ _ _ _ hran hfinished hlog =>
      obtain ⟨rfl, rfl⟩ := hlog _ hmem hslot
      exact .inl ⟨j, hran, hfinished⟩
  · intro c row hslot hrow hother
    have hfits := fits_of_run h₀ hrun slot row hrow
    subst hslot
    exact RecoveryDb.begin_mismatch hp hfits hrow hother
  · rintro ⟨⟨i, d, hclaimed, hd⟩, hunrecorded⟩ c hslot
    subst hslot
    cases hstage with
    | unclaimed _ _ _ hlog => exact (hlog _ hclaimed hd).elim
    | closed hs _ _ _ _ hfinished => exact absurd hs (hunrecorded _ _ _ hfinished)
    | opened hs hrow =>
      obtain ⟨row, hr, -, -, hbody⟩ := hrow.row
      rw [hs] at hr
      rcases RecoveryDb.begin_of_some hp hr with hrefused | ⟨body, -, -, hsome, -⟩
      · exact hrefused
      · rw [hbody] at hsome
        cases hsome

end

def guardedTenant : State := ⟨⟨["t"], fun _ => none, fun _ => none⟩, fun _ => .idle, []⟩

def sample : GuardedCommand := ⟨"t", "k", "POST /v1/versions", "rest:1"⟩

/-- A claim, a retry that comes too early, the effect, its receipt, and a later retry. -/
def retried : List Action :=
  [.begin 0 sample, .begin 1 sample, .effect 0 (some "done"), .record 0, .begin 2 sample]

theorem guarded_commands_retried :
    runs sample.slot (retried.foldl State.step guardedTenant).log ≤ 1 ∧
      .began 2 sample (.ok (.replay "done")) ∈ (retried.foldl State.step guardedTenant).log ∧
      ∃ j, .ran j sample (some "done") ∈ (retried.foldl State.step guardedTenant).log := by
  have hfresh : Fresh guardedTenant := ⟨fun _ => rfl, rfl, fun _ => rfl⟩
  have hpolicy : sample.slot.1 ∈ guardedTenant.db.policies := by decide
  have hrun := Reached.of_labels State.step guardedTenant retried
  obtain ⟨honce, hreplay, -, -⟩ := guarded_commands hfresh hpolicy hrun
  have hmem : .began 2 sample (.ok (.replay "done")) ∈
      (retried.foldl State.step guardedTenant).log := by decide +kernel
  refine ⟨honce, hmem, ?_⟩
  rcases hreplay 2 sample "done" hmem rfl with ⟨j, hran, -⟩ | hold
  · exact ⟨j, hran⟩
  · cases hold

end Recovery
end Munarium

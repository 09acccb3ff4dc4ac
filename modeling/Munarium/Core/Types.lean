import Munarium.Std.Json

/-! The kernel's domain types: claims, anchors, promises, counters, the snapshot the
gates read, and the error surface. Every store stamps rows from one counting domain; a
stamp is a head plus a batch position, so no run exhausts `u64` and `ℕ` holds it. -/
namespace Munarium

inductive ClaimType where
  | fact
  | update
  | correction
  deriving DecidableEq

inductive ClaimStatus where
  | accepted
  | disputed
  deriving DecidableEq

def ClaimStatus.text : ClaimStatus → String
  | accepted => "accepted"
  | disputed => "disputed"

inductive Provenance where
  | witnessed | backfilled | repaired | emergent | coverageRepair
  deriving DecidableEq

inductive Severity where
  | info | warn | block
  deriving DecidableEq

def Severity.text : Severity → String
  | info => "info"
  | warn => "warn"
  | block => "block"

structure ClaimOrigin where
  kind : String
  sourceId : String
  mappingVersion : String
  rowKey : String
  eventPosition : Option String
  observedAt : Option String
  evidenceId : Option String
  deriving DecidableEq

/-- The identity of a supersession lineage: `format!("{}.{}", subject, key)`. -/
def claimKeyOf (subject key : String) : String := subject ++ "." ++ key

structure Claim where
  id : String
  versionId : String
  seq : ℕ
  claimType : ClaimType
  subject : String
  key : String
  value : String
  scopePath : Option String
  status : ClaimStatus
  provenance : Provenance
  supersedesId : Option String
  entityId : Option String
  evidence : Option Json
  confidence : Option ℚ
  shapeRef : Option String
  origin : Option ClaimOrigin

def Claim.claimKey (c : Claim) : String := claimKeyOf c.subject c.key

inductive AnchorStatus where
  | locked | released
  deriving DecidableEq

structure Anchor where
  id : String
  versionId : String
  detailKey : String
  lockedValue : String
  lockedAtScope : Option String
  status : AnchorStatus
  seq : ℕ
  evidence : Option Json

inductive PromiseStatus where
  | opened | fulfilled | expired | violated
  deriving DecidableEq

structure Promise where
  id : String
  versionId : String
  key : String
  kind : String
  description : String
  originScope : Option String
  dueScope : Option String
  status : PromiseStatus
  seq : ℕ
  fulfilledSeq : Option ℕ
  deriving DecidableEq

structure CounterTotal where
  key : String
  total : ℕ
  budget : Option ℕ
  deriving DecidableEq

structure GateFinding where
  ruleId : String
  severity : Severity
  message : String
  scopePath : Option String
  detail : Option Json

def GateFinding.toJson (f : GateFinding) : Json :=
  .object [("rule_id", .str f.ruleId), ("severity", .str f.severity.text),
    ("message", .str f.message), ("scope_path", .ofOption .str f.scopePath),
    ("detail", f.detail.getD .null)]

structure ProposedClaim where
  claimType : ClaimType
  subject : String
  key : String
  value : String
  supersedesId : Option String
  deriving DecidableEq

def ProposedClaim.claimKey (p : ProposedClaim) : String := claimKeyOf p.subject p.key

/-- The unit of gate evaluation. `claims` carries facts and updates, `corrections`
the corrections; the gates go by the list, not by `claimType`. -/
structure Candidate where
  scopePath : Option String := none
  text : String := ""
  claims : List ProposedClaim := []
  corrections : List ProposedClaim := []
  previousTexts : List String := []

/-- What one pin lets a reader see. -/
structure MeshSnapshot where
  versionId : String := ""
  facts : List Claim := []
  anchors : SortedMap String Anchor := .empty
  promises : List Promise := []
  counters : List CounterTotal := []
  asOfSeq : Option ℕ := none

inductive KernelError where
  | headConflict (expected actual : ℕ)
  | notFound (kind id : String)
  | invalidInput (message : String)
  | storage (message : String)
  | idempotencyMismatch
  | provider (message : String)
  | forbidden (message : String)
  deriving DecidableEq

abbrev Result := Except KernelError

theorem bind_eq_ok {α β : Type} {x : Result α} {f : α → Result β} {b : β} :
    (x >>= f) = .ok b ↔ ∃ a, x = .ok a ∧ f a = .ok b := by
  cases x with
  | error e => simp [bind, Except.bind]
  | ok a => simp [bind, Except.bind]

theorem map_snd_eq_ok {α β : Type} {x : Result (α × β)} {b : β}
    (h : x.map Prod.snd = .ok b) : ∃ a, x = .ok (a, b) := by
  cases x with
  | error e => cases h
  | ok p =>
    cases h
    exact ⟨p.1, rfl⟩

theorem exists_mapM_ok {α β : Type} {f : α → Result β} {xs : List α}
    (h : ∀ x ∈ xs, ∃ y, f x = .ok y) : ∃ ys, xs.mapM f = .ok ys := by
  induction xs with
  | nil => exact ⟨[], rfl⟩
  | cons x xs ih =>
    obtain ⟨y, hy⟩ := h x List.mem_cons_self
    obtain ⟨ys, hys⟩ := ih fun z hz => h z (List.mem_cons_of_mem _ hz)
    refine ⟨y :: ys, ?_⟩
    rw [List.mapM_cons, hy, hys]
    rfl

end Munarium

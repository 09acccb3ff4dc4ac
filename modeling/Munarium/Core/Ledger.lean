import Mathlib.Data.List.Sort
import Munarium.Std.Text
import Munarium.Core.Types

/-! Claim comparison and pin-aware supersession resolution. `resolveSlice` is the
reference read: the in-memory store calls it, and every other read rests on it. -/
namespace Munarium

/-- Comparison semantics bound to a claim key by a governance policy. -/
inductive ComparisonPolicy where
  | legacyTextV1
  | exactStringV1
  deriving DecidableEq

namespace ComparisonPolicy

def id : ComparisonPolicy → String
  | legacyTextV1 => "legacy-text-v1"
  | exactStringV1 => "exact-string-v1"

/-- Unknown versions fail closed. -/
def fromId (id : String) : Result ComparisonPolicy :=
  if id = "legacy-text-v1" then .ok legacyTextV1
  else if id = "exact-string-v1" then .ok exactStringV1
  else .error (.invalidInput ("unsupported comparison policy '" ++ id ++ "'"))

@[simp] theorem fromId_id (p : ComparisonPolicy) : fromId p.id = .ok p := by
  cases p <;> decide

end ComparisonPolicy

section Compare
variable [Unicode]

/-- Unicode white space collapse followed by Unicode lowercase. -/
def fold (s : String) : String := toLowercase (join " " (splitWhitespace s))

def valuesEquivalentWithPolicy (a b : String) : ComparisonPolicy → Bool
  | .legacyTextV1 => fold a == fold b
  | .exactStringV1 => a == b

/-- What two equivalent values have in common. -/
def comparedForm : ComparisonPolicy → String → String
  | .legacyTextV1, s => fold s
  | .exactStringV1, s => s

theorem valuesEquivalent_iff {a b : String} {p : ComparisonPolicy} :
    valuesEquivalentWithPolicy a b p = true ↔ comparedForm p a = comparedForm p b := by
  cases p <;> simp [valuesEquivalentWithPolicy, comparedForm]

theorem valuesEquivalent_false_iff {a b : String} {p : ComparisonPolicy} :
    valuesEquivalentWithPolicy a b p = false ↔ comparedForm p a ≠ comparedForm p b := by
  rw [← Bool.not_eq_true, valuesEquivalent_iff]

end Compare

/-- Query shape for `slice_facts`. An empty status list asks for accepted claims;
`limit` keeps the newest. -/
structure FactQuery where
  scopePrefix : Option String := none
  asOfSeq : Option ℕ := none
  statuses : List ClaimStatus := []
  limit : Option ℕ := none

namespace FactQuery

def effectiveStatuses (q : FactQuery) : List ClaimStatus :=
  if q.statuses.isEmpty then [.accepted] else q.statuses

/-- Without a pin every stamp is within it. -/
def pinAdmits (q : FactQuery) (seq : ℕ) : Bool :=
  match q.asOfSeq with
  | some pin => decide (seq ≤ pin)
  | none => true

/-- Exact scope or a descendant at a dot boundary. -/
def scopeAdmits (q : FactQuery) (scope : Option String) : Bool :=
  match q.scopePrefix, scope with
  | none, _ => true
  | some pre, some scope => scope == pre || startsWith (pre ++ ".") scope
  | some _, none => false

end FactQuery

/-- Ids that some claim of the list supersedes, whatever that claim's status. -/
def supersededIds (claims : List Claim) : List String := claims.filterMap (·.supersedesId)

/-- Claims a query can show: right status, right scope, not superseded in the list. -/
def visibleClaims (q : FactQuery) (claims : List Claim) : List Claim :=
  ((claims.filter fun c => q.effectiveStatuses.contains c.status).filter
    fun c => !(supersededIds claims).contains c.id).filter fun c => q.scopeAdmits c.scopePath

/-- Order by seq stamp; the sort is stable. -/
def sortBySeq (claims : List Claim) : List Claim :=
  claims.insertionSort fun a b => a.seq ≤ b.seq

def keepNewest (limit : Option ℕ) (claims : List Claim) : List Claim :=
  match limit with
  | some n => if claims.length > n then claims.drop (claims.length - n) else claims
  | none => claims

/-- The superseded set is taken from the pinned rows, before the status and scope
filters, and the limit comes last. -/
def resolveSlice (claims : List Claim) (q : FactQuery) : List Claim :=
  let claims := claims.filter fun c => q.pinAdmits c.seq
  keepNewest q.limit (sortBySeq (visibleClaims q claims))

/-- A slice depends on the rows within its pin only. -/
theorem resolveSlice_congr {q : FactQuery} {cs ds : List Claim}
    (h : (cs.filter fun c => q.pinAdmits c.seq) = ds.filter fun c => q.pinAdmits c.seq) :
    resolveSlice cs q = resolveSlice ds q := by
  simp only [resolveSlice, h]

theorem mem_visibleClaims {q : FactQuery} {cs : List Claim} {c : Claim} :
    c ∈ visibleClaims q cs ↔ c ∈ cs ∧ c.status ∈ q.effectiveStatuses ∧
      c.id ∉ supersededIds cs ∧ q.scopeAdmits c.scopePath = true := by
  simp only [visibleClaims, List.mem_filter, List.contains_eq_mem, decide_eq_true_eq,
    Bool.not_eq_true', decide_eq_false_iff_not, and_assoc]

theorem sortBySeq_sorted {cs : List Claim} (h : cs.Pairwise fun a b => a.seq ≤ b.seq) :
    sortBySeq cs = cs := h.insertionSort_eq

@[simp] theorem mem_sortBySeq {cs : List Claim} {c : Claim} : c ∈ sortBySeq cs ↔ c ∈ cs :=
  List.mem_insertionSort _

theorem keepNewest_subset (limit : Option ℕ) (cs : List Claim) : keepNewest limit cs ⊆ cs := by
  unfold keepNewest
  split
  · split_ifs
    · exact List.drop_subset _ _
    · exact List.Subset.refl _
  · exact List.Subset.refl _

/-- What every query returns: stored rows of a requested status within its pin. -/
theorem mem_resolveSlice {q : FactQuery} {cs : List Claim} {c : Claim}
    (h : c ∈ resolveSlice cs q) :
    c ∈ cs ∧ c.status ∈ q.effectiveStatuses ∧ q.pinAdmits c.seq = true := by
  have hv := mem_sortBySeq.mp (keepNewest_subset _ _ h)
  obtain ⟨hc, hs, -, -⟩ := mem_visibleClaims.mp hv
  obtain ⟨hm, hp⟩ := List.mem_filter.mp hc
  exact ⟨hm, hs, hp⟩

/-- The accepted slice of rows in stamp order: accepted rows nothing supersedes. -/
def acceptedSlice (cs : List Claim) : List Claim :=
  cs.filter fun c => decide (c.status = .accepted) && !(supersededIds cs).contains c.id

theorem mem_acceptedSlice {cs : List Claim} {c : Claim} :
    c ∈ acceptedSlice cs ↔ c ∈ cs ∧ c.status = .accepted ∧ c.id ∉ supersededIds cs := by
  simp [acceptedSlice]

theorem visibleClaims_default {q : FactQuery} (hs : q.statuses = [])
    (hp : q.scopePrefix = none) (cs : List Claim) : visibleClaims q cs = acceptedSlice cs := by
  have hscope (c : Claim) : q.scopeAdmits c.scopePath = true := by
    simp [FactQuery.scopeAdmits, hp]
  simp only [visibleClaims, acceptedSlice, hscope, List.filter_filter, Bool.true_and]
  refine List.filter_congr fun c _ => ?_
  simp [FactQuery.effectiveStatuses, hs, Bool.and_comm, eq_comm]

/-- With rows in stamp order, all of them within the pin, the unlimited read of a
whole lineage is `acceptedSlice`. -/
theorem resolveSlice_default {q : FactQuery} {cs : List Claim} (hs : q.statuses = [])
    (hp : q.scopePrefix = none) (hl : q.limit = none)
    (hpin : ∀ c ∈ cs, q.pinAdmits c.seq = true)
    (hseq : cs.Pairwise fun a b => a.seq ≤ b.seq) : resolveSlice cs q = acceptedSlice cs := by
  have hall : (cs.filter fun c => q.pinAdmits c.seq) = cs := List.filter_eq_self.mpr hpin
  simp only [resolveSlice, hall, hl, keepNewest, visibleClaims_default hs hp]
  exact sortBySeq_sorted (hseq.filter _)

end Munarium

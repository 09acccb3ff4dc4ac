import Mathlib.Data.Set.Card
import Mathlib.Data.List.NodupEquivFin
import Munarium.Core.Ledger

/-! What a slice means: the newest of the claims that a query asks for, in the order of their
stamps. -/
namespace Munarium

/-- A scope is a prefix, or below it at a dot. -/
def InScope (pre scope : String) : Prop := scope = pre ∨ ∃ rest, scope = pre ++ "." ++ rest

/-- A stamp within a query's pin. -/
def FactQuery.Within (q : FactQuery) (seq : ℕ) : Prop := ∀ pin, q.asOfSeq = some pin → seq ≤ pin

/-- The claims that a query asks for, before its limit. -/
structure FactQuery.Asks (q : FactQuery) (claims : List Claim) (c : Claim) : Prop where
  stored : c ∈ claims
  within : q.Within c.seq
  status : if q.statuses = [] then c.status = .accepted else c.status ∈ q.statuses
  scope : ∀ pre, q.scopePrefix = some pre → ∃ scope, c.scopePath = some scope ∧ InScope pre scope
  current : ∀ d ∈ claims, q.Within d.seq → d.supersedesId ≠ some c.id

/-- The newest of the claims that a query asks for, in the order of their stamps. -/
structure IsSlice (q : FactQuery) (claims r : List Claim) : Prop where
  ascending : r.Pairwise fun a b => a.seq < b.seq
  newest : ∀ c, c ∈ r ↔ q.Asks claims c ∧
    ∀ limit, q.limit = some limit → {d | q.Asks claims d ∧ c.seq < d.seq}.ncard < limit

/-- A slice is what it means, whatever the order of the rows, and whether or not rows beyond its
pin are among them. -/
structure SlicesMean (claims : List Claim) (q : FactQuery) : Prop where
  slice : IsSlice q claims (resolveSlice claims q)
  order : ∀ rows, rows.Perm claims → resolveSlice rows q = resolveSlice claims q
  pinned : ∀ p later, p ≤ later →
    resolveSlice (claims.filter fun c => c.seq ≤ later) { q with asOfSeq := some p } =
      resolveSlice claims { q with asOfSeq := some p }

theorem pinAdmits_iff {q : FactQuery} {seq : ℕ} : q.pinAdmits seq = true ↔ q.Within seq := by
  unfold FactQuery.pinAdmits FactQuery.Within
  cases q.asOfSeq <;> simp

theorem startsWith_iff {pre s : String} : startsWith pre s = true ↔ ∃ rest, s = pre ++ rest := by
  unfold startsWith
  rw [List.isPrefixOf_iff_prefix]
  constructor
  · rintro ⟨rest, hrest⟩
    refine ⟨String.ofList rest, ?_⟩
    rw [← String.toList_inj, String.toList_append, String.toList_ofList, hrest]
  · rintro ⟨rest, rfl⟩
    rw [String.toList_append]
    exact List.prefix_append _ _

theorem scopeAdmits_iff {q : FactQuery} {path : Option String} :
    q.scopeAdmits path = true ↔
      ∀ pre, q.scopePrefix = some pre → ∃ scope, path = some scope ∧ InScope pre scope := by
  unfold FactQuery.scopeAdmits
  cases q.scopePrefix with
  | none => simp
  | some pre =>
    cases path with
    | none => simp
    | some scope => simp [InScope, startsWith_iff]

theorem effectiveStatuses_iff {q : FactQuery} {status : ClaimStatus} :
    status ∈ q.effectiveStatuses ↔
      if q.statuses = [] then status = .accepted else status ∈ q.statuses := by
  unfold FactQuery.effectiveStatuses
  cases hs : q.statuses <;> simp

theorem asks_iff {q : FactQuery} {claims : List Claim} {c : Claim} :
    q.Asks claims c ↔ c ∈ visibleClaims q (claims.filter fun c => q.pinAdmits c.seq) := by
  have hsuperseded : c.id ∉ supersededIds (claims.filter fun c => q.pinAdmits c.seq) ↔
      ∀ d ∈ claims, q.Within d.seq → d.supersedesId ≠ some c.id := by
    simp [supersededIds, pinAdmits_iff]
  rw [mem_visibleClaims, List.mem_filter, pinAdmits_iff, effectiveStatuses_iff, hsuperseded,
    scopeAdmits_iff]
  constructor
  · intro h
    exact ⟨⟨h.stored, h.within⟩, h.status, h.current, h.scope⟩
  · rintro ⟨⟨hstored, hwithin⟩, hstatus, hcurrent, hscope⟩
    exact ⟨hstored, hwithin, hstatus, hscope, hcurrent⟩

section Newest
variable {α : Type*} {key : α → ℕ} {s t : List α} {a : α}

/-- The last elements of an ascending list are those with few larger ones. -/
theorem mem_drop_of_ascending (hs : s.Pairwise fun a b => key a < key b) (n : ℕ) :
    a ∈ s.drop (s.length - n) ↔ a ∈ s ∧ s.countP (fun b => key a < key b) < n := by
  induction s with
  | nil => simp
  | cons b s ih =>
    obtain ⟨hb, hs⟩ := List.pairwise_cons.mp hs
    by_cases hle : s.length + 1 ≤ n
    · have hdrop : (b :: s).length - n = 0 := by
        rw [List.length_cons]
        omega
      rw [hdrop, List.drop_zero, iff_self_and]
      intro ha
      have hcount : (b :: s).countP (fun c => key a < key c) < (b :: s).length := by
        apply List.countP_lt_length_iff.mpr
        exact ⟨a, ha, by simp⟩
      exact Nat.lt_of_lt_of_le hcount hle
    · have hdrop : (b :: s).length - n = (s.length - n) + 1 := by
        rw [List.length_cons]
        omega
      rw [hdrop, List.drop_succ_cons, ih hs]
      constructor
      · rintro ⟨ha, hcount⟩
        refine ⟨List.mem_cons_of_mem _ ha, ?_⟩
        rw [List.countP_cons_of_neg (by simpa using Nat.le_of_lt (hb a ha))]
        exact hcount
      · rintro ⟨ha, hcount⟩
        rcases List.mem_cons.mp ha with rfl | ha
        · have hall : s.countP (fun c => key a < key c) = s.length :=
            List.countP_eq_length.mpr fun c hc => decide_eq_true (hb c hc)
          rw [List.countP_cons_of_neg (by simp), hall] at hcount
          omega
        · rw [List.countP_cons_of_neg (by simpa using Nat.le_of_lt (hb a ha))] at hcount
          exact ⟨ha, hcount⟩

theorem eq_of_ascending (hs : s.Pairwise fun a b => key a < key b)
    (ht : t.Pairwise fun a b => key a < key b) (h : ∀ a, a ∈ s ↔ a ∈ t) : s = t := by
  have hne {a b : α} (hab : key a < key b) : a ≠ b := fun heq => Nat.lt_irrefl _ (heq ▸ hab)
  have hperm : s.Perm t :=
    (List.perm_ext_iff_of_nodup (hs.imp hne) (ht.imp hne)).mpr h
  apply hperm.eq_of_pairwise _ hs ht
  intro a b _ _ hab hba
  exact absurd (Nat.lt_trans hab hba) (Nat.lt_irrefl _)

end Newest

theorem ncard_of_nodup {α : Type*} {l : List α} (h : l.Nodup) : {a | a ∈ l}.ncard = l.length := by
  classical
  have hset : {a | a ∈ l} = (l.toFinset : Set α) := by
    ext a
    simp
  rw [hset, Set.ncard_coe_finset, List.toFinset_card_of_nodup h]

/-- What a query shows without its limit. -/
def FactQuery.unlimited (q : FactQuery) (claims : List Claim) : List Claim :=
  sortBySeq (visibleClaims q (claims.filter fun c => q.pinAdmits c.seq))

theorem resolveSlice_eq (claims : List Claim) (q : FactQuery) :
    resolveSlice claims q = keepNewest q.limit (q.unlimited claims) := rfl

theorem mem_unlimited {q : FactQuery} {claims : List Claim} {c : Claim} :
    c ∈ q.unlimited claims ↔ q.Asks claims c := by
  rw [FactQuery.unlimited, mem_sortBySeq, asks_iff]

theorem keepNewest_some (n : ℕ) (claims : List Claim) :
    keepNewest (some n) claims = claims.drop (claims.length - n) := by
  simp only [keepNewest]
  split_ifs with hlong
  · rfl
  · rw [Nat.sub_eq_zero_of_le (Nat.le_of_not_lt hlong), List.drop_zero]

section
variable {claims : List Claim} (hseq : (claims.map Claim.seq).Nodup) (q : FactQuery)
include hseq

theorem unlimited_ascending : (q.unlimited claims).Pairwise fun a b => a.seq < b.seq := by
  have hsub : (visibleClaims q (claims.filter fun c => q.pinAdmits c.seq)).Sublist claims := by
    unfold visibleClaims
    exact ((List.filter_sublist.trans List.filter_sublist).trans List.filter_sublist).trans
      List.filter_sublist
  have hperm : (q.unlimited claims).Perm
      (visibleClaims q (claims.filter fun c => q.pinAdmits c.seq)) := List.perm_insertionSort _ _
  have hnodup : ((q.unlimited claims).map Claim.seq).Nodup :=
    (hperm.map Claim.seq).nodup_iff.mpr (hseq.sublist (hsub.map Claim.seq))
  have hle : (q.unlimited claims).Pairwise fun a b => a.seq ≤ b.seq :=
    List.pairwise_insertionSort _ _
  exact (hle.and (List.pairwise_map.mp hnodup)).imp fun h => Nat.lt_of_le_of_ne h.1 h.2

theorem newer_count (c : Claim) :
    {d | q.Asks claims d ∧ c.seq < d.seq}.ncard =
      (q.unlimited claims).countP fun d => c.seq < d.seq := by
  have hnodup : (q.unlimited claims).Nodup := by
    apply (unlimited_ascending hseq q).imp
    rintro a _ hlt rfl
    exact Nat.lt_irrefl _ hlt
  rw [List.countP_eq_length_filter, ← ncard_of_nodup (hnodup.filter _)]
  congr 1
  ext d
  simp [mem_unlimited]

/-- The slice of rows with distinct stamps is the newest of what the query asks for. -/
theorem resolveSlice_isSlice : IsSlice q claims (resolveSlice claims q) := by
  have hsorted := unlimited_ascending hseq q
  rw [resolveSlice_eq]
  cases hlimit : q.limit with
  | none =>
    refine ⟨hsorted, ?_⟩
    intro c
    simp [keepNewest, mem_unlimited, hlimit]
  | some n =>
    rw [keepNewest_some]
    refine ⟨hsorted.sublist (List.drop_sublist _ _), ?_⟩
    intro c
    rw [mem_drop_of_ascending hsorted n, mem_unlimited, ← newer_count hseq q c, hlimit]
    simp

end

/-- A slice is determined by what it means. -/
theorem IsSlice.eq {q : FactQuery} {claims rows r r' : List Claim} (h : IsSlice q claims r)
    (h' : IsSlice q rows r') (hsame : ∀ c, q.Asks claims c ↔ q.Asks rows c) : r = r' := by
  apply eq_of_ascending h.ascending h'.ascending
  intro c
  simp only [h.newest, h'.newest, hsame]

theorem asks_perm {q : FactQuery} {claims rows : List Claim} (h : rows.Perm claims) (c : Claim) :
    q.Asks rows c ↔ q.Asks claims c := by
  constructor
  · intro hasks
    exact ⟨h.mem_iff.mp hasks.stored, hasks.within, hasks.status, hasks.scope,
      fun d hd => hasks.current d (h.mem_iff.mpr hd)⟩
  · intro hasks
    exact ⟨h.mem_iff.mpr hasks.stored, hasks.within, hasks.status, hasks.scope,
      fun d hd => hasks.current d (h.mem_iff.mp hd)⟩

/-- `resolveSlice` is its meaning for every list of rows with distinct stamps, and every query. -/
theorem resolveSlice_means (claims : List Claim) (q : FactQuery)
    (hseq : (claims.map Claim.seq).Nodup) : SlicesMean claims q where
  slice := resolveSlice_isSlice hseq q
  order rows hperm := by
    have hrows : (rows.map Claim.seq).Nodup := (hperm.map Claim.seq).nodup_iff.mpr hseq
    exact (resolveSlice_isSlice hrows q).eq (resolveSlice_isSlice hseq q) (asks_perm hperm)
  pinned p later hle := by
    apply resolveSlice_congr
    rw [List.filter_filter]
    apply List.filter_congr
    intro c _
    simp only [FactQuery.pinAdmits, ← Bool.decide_and]
    apply decide_eq_decide.mpr
    omega

/-- A fact about a region's revenue. -/
def revenue (id : String) (seq : ℕ) (value : String) (supersedes : Option String) : Claim where
  id := id
  versionId := "v1"
  seq := seq
  claimType := .fact
  subject := "north"
  key := "revenue"
  value := value
  scopePath := none
  status := .accepted
  provenance := .witnessed
  supersedesId := supersedes
  entityId := none
  evidence := none
  confidence := none
  shapeRef := none
  origin := none

theorem resolveSlice_means_revenue :
    SlicesMean [revenue "c2" 5 "120" (some "c1"), revenue "c1" 3 "100" none]
      { asOfSeq := some 4, limit := some 1 } :=
  resolveSlice_means _ _ (by decide)

end Munarium

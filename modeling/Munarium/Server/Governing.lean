import Munarium.Lib.NumberedChain
import Munarium.Lib.TieOrder
import Munarium.Server.Publications

/-! Which publications govern on a date, said without the pass that finds them: a document's
latest publication, by effective date and time of publication, unless it is withdrawn, has
ended, or is superseded. A policy is stored as a revision that is never changed or removed. -/
namespace Munarium
namespace CollectionGovernance
theorem forM_ok {α : Type} {check : α → Result Unit} {l : List α} (h : l.forM check = .ok ()) :
    ∀ a ∈ l, check a = .ok () := by
  induction l with
  | nil => simp
  | cons a rest ih =>
    have hbind : (check a >>= fun _ => rest.forM check) = .ok () := h
    obtain ⟨⟨⟩, ha, hrest⟩ := bind_eq_ok.mp hbind
    intro b hb
    rcases List.mem_cons.mp hb with rfl | hb
    · exact ha
    · exact ih hrest b hb

/-- Every publication is still there, under its id, with what may not change. -/
def Retains (old new : CollectionGovernance) : Prop :=
  ∀ p ∈ old.publications, ∃ q ∈ new.publications, q.id = p.id ∧ rewritten p q = false

theorem rewritten_eq_false {old new : CollectionPublication} : rewritten old new = false ↔
    new.documentId = old.documentId ∧ new.sourceId = old.sourceId ∧
      new.sourceContentHash = old.sourceContentHash ∧ new.effectiveFrom = old.effectiveFrom ∧
      new.publishedAt = old.publishedAt ∧ (old.state = "withdrawn" → new.state = "withdrawn") := by
  simp only [rewritten, Bool.or_eq_false_iff, bne_eq_false_iff_eq, and_assoc,
    Bool.and_eq_false_imp, beq_iff_eq, eq_comm (a := old.documentId), eq_comm (a := old.sourceId),
    eq_comm (a := old.sourceContentHash), eq_comm (a := old.effectiveFrom),
    eq_comm (a := old.publishedAt)]

theorem Retains.refl (policy : CollectionGovernance) : Retains policy policy :=
  fun p hp => ⟨p, hp, rfl, rewritten_eq_false.mpr ⟨rfl, rfl, rfl, rfl, rfl, id⟩⟩

theorem Retains.trans {a b c : CollectionGovernance} (hab : Retains a b) (hbc : Retains b c) :
    Retains a c := by
  intro p hp
  obtain ⟨q, hq, hid, hpq⟩ := hab p hp
  obtain ⟨r, hr, hid', hqr⟩ := hbc q hq
  obtain ⟨hdoc, hsource, hhash, hfrom, htime, hstate⟩ := rewritten_eq_false.mp hpq
  obtain ⟨hdoc', hsource', hhash', hfrom', htime', hstate'⟩ := rewritten_eq_false.mp hqr
  exact ⟨r, hr, hid'.trans hid, rewritten_eq_false.mpr ⟨hdoc'.trans hdoc, hsource'.trans hsource,
    hhash'.trans hhash, hfrom'.trans hfrom, htime'.trans htime, hstate' ∘ hstate⟩⟩

theorem checkRetained_ok {policy : CollectionGovernance} {p : CollectionPublication}
    (h : checkRetained policy p = .ok ()) :
    ∃ q ∈ policy.publications, q.id = p.id ∧ rewritten p q = false := by
  unfold checkRetained at h
  split at h
  · cases h
  · rename_i q hq
    split_ifs at h with hr
    exact ⟨q, List.mem_of_find?_eq_some hq, by simpa using List.find?_some hq, by simpa using hr⟩

variable [CalendarText]

/-- The place of a publication in its document's chronology. -/
def Stamped (p : CollectionPublication) (stamp : NaiveDate ×ₗ UtcInstant) : Prop :=
  date p.effectiveFrom = .ok (ofLex stamp).1 ∧ published p.publishedAt = .ok (ofLex stamp).2

def InForce (start : String) (ends : Option String) (on : NaiveDate) : Prop :=
  (∃ d, date start = .ok d ∧ d ≤ on) ∧ ∀ s ∈ ends, ∃ e, date s = .ok e ∧ on < e

/-- What validation guarantees about the dates and ids of a policy. -/
structure WellFormed (policy : CollectionGovernance) : Prop where
  ids : (policy.publications.map CollectionPublication.id).Nodup
  stamped : ∀ p ∈ policy.publications, ∃ stamp, Stamped p stamp
  ended : ∀ p ∈ policy.publications, ∀ s ∈ p.effectiveUntil, ∃ e, date s = .ok e
  related : ∀ r ∈ policy.relations, (∃ d, date r.effectiveFrom = .ok d) ∧
    ∀ s ∈ r.effectiveUntil, ∃ e, date s = .ok e

/-- One of the publications, and already effective. -/
def Started (on : NaiveDate) (ps : List CollectionPublication) (p : CollectionPublication)
    (stamp : NaiveDate ×ₗ UtcInstant) : Prop :=
  p ∈ ps ∧ Stamped p stamp ∧ (ofLex stamp).1 ≤ on

section Specification
variable (policy : CollectionGovernance) (on : NaiveDate)

/-- Later than every other effective publication of its document. -/
def Latest (p : CollectionPublication) : Prop :=
  ∃ stamp, Started on policy.publications p stamp ∧
    ∀ q stamp', Started on policy.publications q stamp' → q.documentId = p.documentId →
      q ≠ p → stamp' < stamp

/-- Two publications of one document share the latest place. -/
def Ambiguous : Prop :=
  ∃ p q stamp, p ≠ q ∧ q.documentId = p.documentId ∧ Started on policy.publications p stamp ∧
    Started on policy.publications q stamp ∧
    ∀ r stamp', Started on policy.publications r stamp' → r.documentId = p.documentId →
      stamp' ≤ stamp

def Selected (p : CollectionPublication) : Prop :=
  Latest policy on p ∧ p.state ≠ "withdrawn" ∧ InForce p.effectiveFrom p.effectiveUntil on

def Relates (r : DocumentRelation) : Prop :=
  r ∈ policy.relations ∧ InForce r.effectiveFrom r.effectiveUntil on

def Superseded (document : String) : Prop :=
  ∃ r p, Relates policy on r ∧ r.kind = "supersedes" ∧ r.toDocument = document ∧
    Selected policy on p ∧ p.documentId = r.fromDocument

def Governs (p : CollectionPublication) : Prop :=
  Selected policy on p ∧ ¬ Superseded policy on p.documentId

/-- A superseded document supersedes another. -/
def Chained : Prop :=
  ∃ r, Relates policy on r ∧ r.kind = "supersedes" ∧ Superseded policy on r.fromDocument

/-- A governing document is in conflict, or what it depends on does not govern. -/
def Unresolved : Prop :=
  ∃ r p, Relates policy on r ∧ Governs policy on p ∧ p.documentId = r.fromDocument ∧
    (r.kind = "conflicts" ∨
      r.kind ∈ dependentKinds ∧ ∀ q, Governs policy on q → q.documentId ≠ r.toDocument)

def NeedsReview : Prop := Ambiguous policy on ∨ Chained policy on ∨ Unresolved policy on

end Specification

variable {policy : CollectionGovernance} {on : NaiveDate}

theorem Stamped.unique {p : CollectionPublication} {s t : NaiveDate ×ₗ UtcInstant}
    (hs : Stamped p s)
    (ht : Stamped p t) : s = t := by
  have hdate := Except.ok.inj (hs.1.symm.trans ht.1)
  have htime := Except.ok.inj (hs.2.symm.trans ht.2)
  exact ofLex.injective (Prod.ext hdate htime)

theorem active_of_dates {start : String} {ends : Option String}
    (hstart : ∃ d, date start = .ok d) (hends : ∀ s ∈ ends, ∃ e, date s = .ok e) :
    ∃ b, active start ends on = .ok b ∧ (b = true ↔ InForce start ends on) := by
  obtain ⟨d, hd⟩ := hstart
  by_cases hle : d ≤ on
  · cases ends with
    | none => exact ⟨true, by simp [active, hd, hle, bind, Except.bind, pure, Except.pure],
        by simp [InForce, hd, hle]⟩
    | some s =>
      obtain ⟨e, he⟩ := hends s rfl
      refine ⟨decide (on < e), ?_, ?_⟩
      · simp [active, hd, hle, he, bind, Except.bind, pure, Except.pure]
      · simp [InForce, hd, hle, he]
  · exact ⟨false, by simp [active, hd, hle, bind, Except.bind, pure, Except.pure],
      by simp [InForce, hd, hle]⟩

/-- What the pass has found among the publications `ps` it has seen. -/
structure Scanned (on : NaiveDate) (ps : List CollectionPublication) (s : LatestScan) : Prop where
  found : ∀ d p stamp, s.latest.get? d = some (p, stamp) → p.documentId = d ∧
    Started on ps p stamp ∧ ∀ q stamp', Started on ps q stamp' → q.documentId = d → stamp' ≤ stamp
  missing : ∀ d, s.latest.get? d = none → ∀ q stamp, Started on ps q stamp → q.documentId ≠ d
  ambiguous : ∀ d, d ∈ s.ambiguous ↔ ∃ p stamp q, s.latest.get? d = some (p, stamp) ∧
    q ≠ p ∧ q.documentId = d ∧ Started on ps q stamp

theorem started_append {ps : List CollectionPublication} {p q : CollectionPublication}
    {stamp : NaiveDate ×ₗ UtcInstant} : Started on (ps ++ [p]) q stamp ↔
      Started on ps q stamp ∨ q = p ∧ Stamped p stamp ∧ (ofLex stamp).1 ≤ on := by
  simp only [Started, List.mem_append, List.mem_singleton]
  constructor
  · rintro ⟨hq | rfl, hstamp, hle⟩
    · exact .inl ⟨hq, hstamp, hle⟩
    · exact .inr ⟨rfl, hstamp, hle⟩
  · rintro (⟨hq, hstamp, hle⟩ | ⟨rfl, hstamp, hle⟩)
    · exact ⟨.inl hq, hstamp, hle⟩
    · exact ⟨.inr rfl, hstamp, hle⟩

section Step
variable {ps : List CollectionPublication} {s : LatestScan} {p : CollectionPublication}
  {stamp : NaiveDate ×ₗ UtcInstant}

theorem Scanned.later (h : Scanned on ps s) (hstamp : Stamped p stamp)
    (hlt : on < (ofLex stamp).1) : Scanned on (ps ++ [p]) s := by
  have hsame : ∀ q st, Started on (ps ++ [p]) q st ↔ Started on ps q st := by
    intro q st
    rw [started_append]
    constructor
    · rintro (hq | ⟨-, hst, hle⟩)
      · exact hq
      · rw [hst.unique hstamp] at hle
        exact absurd hle (not_le.mpr hlt)
    · exact .inl
  refine ⟨?_, ?_, ?_⟩
  · simpa only [hsame] using h.found
  · simpa only [hsame] using h.missing
  · simpa only [hsame] using h.ambiguous

/-- A publication later than those before it becomes its document's latest. -/
theorem Scanned.take (h : Scanned on ps s) (hstamp : Stamped p stamp)
    (hle : (ofLex stamp).1 ≤ on)
    (hnewest : ∀ q st, Started on ps q st → q.documentId = p.documentId → st < stamp) :
    Scanned on (ps ++ [p]) (s.take p stamp) := by
  have hp : Started on (ps ++ [p]) p stamp := started_append.mpr (.inr ⟨rfl, hstamp, hle⟩)
  refine ⟨fun d q st hq => ?_, fun d hd q st hq => ?_, fun d => ?_⟩
  · by_cases hd : d = p.documentId
    · subst hd
      simp only [LatestScan.take, SortedMap.get?_insert_self, Option.some.injEq,
        Prod.mk.injEq] at hq
      obtain ⟨rfl, rfl⟩ := hq
      refine ⟨rfl, hp, fun r st hr hdoc => ?_⟩
      rcases started_append.mp hr with hr | ⟨rfl, hst, -⟩
      · exact (hnewest r st hr hdoc).le
      · exact (hst.unique hstamp).le
    · simp only [LatestScan.take, SortedMap.get?_insert_of_ne hd] at hq
      obtain ⟨hdoc, hstart, hmax⟩ := h.found d q st hq
      refine ⟨hdoc, started_append.mpr (.inl hstart), fun r st' hr hrd => ?_⟩
      rcases started_append.mp hr with hr | ⟨rfl, -, -⟩
      · exact hmax r st' hr hrd
      · exact absurd hrd.symm hd
  · by_cases hdp : d = p.documentId
    · subst hdp
      simp [LatestScan.take] at hd
    · simp only [LatestScan.take, SortedMap.get?_insert_of_ne hdp] at hd
      rcases started_append.mp hq with hq | ⟨rfl, -, -⟩
      · exact h.missing d hd q st hq
      · exact fun he => hdp he.symm
  · by_cases hd : d = p.documentId
    · subst hd
      simp only [LatestScan.take, List.mem_filter, bne_self_eq_false, Bool.false_eq_true, and_false,
        SortedMap.get?_insert_self, Option.some.injEq, Prod.mk.injEq, false_iff]
      rintro ⟨q, st, r, ⟨rfl, rfl⟩, hne, hdoc, hr⟩
      rcases started_append.mp hr with hr | ⟨rfl, -, -⟩
      · exact absurd (hnewest r _ hr hdoc) (lt_irrefl _)
      · exact hne rfl
    · simp only [LatestScan.take, List.mem_filter, bne_iff_ne, ne_eq, hd, not_false_eq_true,
        and_true, SortedMap.get?_insert_of_ne hd, h.ambiguous]
      constructor
      · rintro ⟨q, st, r, hq, hne, hdoc, hr⟩
        exact ⟨q, st, r, hq, hne, hdoc, started_append.mpr (.inl hr)⟩
      · rintro ⟨q, st, r, hq, hne, hdoc, hr⟩
        rcases started_append.mp hr with hr | ⟨rfl, -, -⟩
        · exact ⟨q, st, r, hq, hne, hdoc, hr⟩
        · exact absurd hdoc.symm hd

variable {old : CollectionPublication} {oldStamp : NaiveDate ×ₗ UtcInstant}

/-- What an earlier publication of the document leaves as it is. -/
theorem Scanned.earlier (h : Scanned on ps s)
    (hold : s.latest.get? p.documentId = some (old, oldStamp)) (hstamp : Stamped p stamp)
    (hlt : stamp < oldStamp) : Scanned on (ps ++ [p]) s := by
  refine ⟨fun d q st hq => ?_, fun d hd q st hq => ?_, fun d => ?_⟩
  · obtain ⟨hdoc, hstart, hmax⟩ := h.found d q st hq
    refine ⟨hdoc, started_append.mpr (.inl hstart), fun r st' hr hrd => ?_⟩
    rcases started_append.mp hr with hr | ⟨rfl, hst, -⟩
    · exact hmax r st' hr hrd
    · obtain rfl := hst.unique hstamp
      rw [← hrd, hold] at hq
      obtain ⟨-, rfl⟩ := Prod.mk.inj (Option.some.inj hq)
      exact hlt.le
  · rcases started_append.mp hq with hq | ⟨rfl, -, -⟩
    · exact h.missing d hd q st hq
    · rintro rfl
      rw [hold] at hd
      cases hd
  · rw [h.ambiguous]
    constructor
    · rintro ⟨q, st, r, hq, hne, hdoc, hr⟩
      exact ⟨q, st, r, hq, hne, hdoc, started_append.mpr (.inl hr)⟩
    · rintro ⟨q, st, r, hq, hne, hdoc, hr⟩
      rcases started_append.mp hr with hr | ⟨rfl, hst, -⟩
      · exact ⟨q, st, r, hq, hne, hdoc, hr⟩
      · obtain rfl := hst.unique hstamp
        rw [← hdoc, hold] at hq
        obtain ⟨-, rfl⟩ := Prod.mk.inj (Option.some.inj hq)
        exact absurd hlt (lt_irrefl _)

/-- A second publication in the latest place makes its document ambiguous. -/
theorem Scanned.tie (h : Scanned on ps s)
    (hold : s.latest.get? p.documentId = some (old, stamp)) (hstamp : Stamped p stamp)
    (hle : (ofLex stamp).1 ≤ on) (hne : p ≠ old) :
    Scanned on (ps ++ [p]) { s with ambiguous := s.ambiguous.insert p.documentId } := by
  have hp : Started on (ps ++ [p]) p stamp := started_append.mpr (.inr ⟨rfl, hstamp, hle⟩)
  refine ⟨fun d q st hq => ?_, fun d hd q st hq => ?_, fun d => ?_⟩
  · obtain ⟨hdoc, hstart, hmax⟩ := h.found d q st hq
    refine ⟨hdoc, started_append.mpr (.inl hstart), fun r st' hr hrd => ?_⟩
    rcases started_append.mp hr with hr | ⟨rfl, hst, -⟩
    · exact hmax r st' hr hrd
    · obtain rfl := hst.unique hstamp
      rw [← hrd, hold] at hq
      obtain ⟨-, rfl⟩ := Prod.mk.inj (Option.some.inj hq)
      exact le_rfl
  · rcases started_append.mp hq with hq | ⟨rfl, -, -⟩
    · exact h.missing d hd q st hq
    · rintro rfl
      rw [hold] at hd
      cases hd
  · rw [List.mem_insert_iff, h.ambiguous]
    constructor
    · rintro (rfl | ⟨q, st, r, hq, hne, hdoc, hr⟩)
      · exact ⟨old, stamp, p, hold, hne, rfl, hp⟩
      · exact ⟨q, st, r, hq, hne, hdoc, started_append.mpr (.inl hr)⟩
    · rintro ⟨q, st, r, hq, hne', hdoc, hr⟩
      rcases started_append.mp hr with hr | ⟨rfl, -, -⟩
      · exact .inr ⟨q, st, r, hq, hne', hdoc, hr⟩
      · exact .inl hdoc.symm

theorem Scanned.consider (h : Scanned on ps s) (hstamp : ∃ stamp, Stamped p stamp)
    (hid : ∀ q ∈ ps, q.id ≠ p.id) :
    ∃ s', consider on s p = .ok s' ∧ Scanned on (ps ++ [p]) s' := by
  obtain ⟨stamp, hstamp⟩ := hstamp
  have hpair : toLex ((ofLex stamp).1, (ofLex stamp).2) = stamp := rfl
  by_cases hlt : on < (ofLex stamp).1
  · refine ⟨s, ?_, h.later hstamp hlt⟩
    simp [CollectionGovernance.consider, hstamp.1, hlt, bind, Except.bind, pure, Except.pure]
  refine ⟨s.offer p stamp, ?_, ?_⟩
  · simp [CollectionGovernance.consider, hstamp.1, hstamp.2, hlt, hpair, bind, Except.bind, pure,
      Except.pure]
  have hle := not_lt.mp hlt
  unfold LatestScan.offer
  cases hget : s.latest.get? p.documentId with
  | none => exact h.take hstamp hle fun q st hq hdoc => absurd hdoc (h.missing _ hget q st hq)
  | some found =>
    obtain ⟨old, oldStamp⟩ := found
    obtain ⟨-, hstart, hmax⟩ := h.found _ _ _ hget
    have hne : old.id ≠ p.id := hid old hstart.1
    simp only [hne, ne_eq, not_false_eq_true, and_true]
    split_ifs with heq hless
    · subst heq
      exact h.tie hget hstamp hle fun he => hne (congrArg CollectionPublication.id he.symm)
    · exact h.earlier hget hstamp hless
    · refine h.take hstamp hle fun q st hq hdoc => (hmax q st hq hdoc).trans_lt ?_
      exact lt_of_le_of_ne (not_lt.mp hless) (Ne.symm heq)

end Step

theorem scanned_foldlM {rest done : List CollectionPublication} {s : LatestScan}
    (h : Scanned on done s)
    (hids : ((done ++ rest).map CollectionPublication.id).Nodup)
    (hstamped : ∀ p ∈ rest, ∃ stamp, Stamped p stamp) :
    ∃ s', rest.foldlM (consider on) s = .ok s' ∧ Scanned on (done ++ rest) s' := by
  induction rest generalizing done s with
  | nil => exact ⟨s, rfl, by simpa using h⟩
  | cons p rest ih =>
    have hsplit : done ++ p :: rest = (done ++ [p]) ++ rest := by simp
    have hid : ∀ q ∈ done, q.id ≠ p.id := by
      intro q hq
      rw [List.map_append, List.map_cons] at hids
      exact (List.nodup_append.mp hids).2.2 q.id (List.mem_map_of_mem hq) p.id (by simp)
    obtain ⟨s', hs', hscan⟩ := h.consider (hstamped p List.mem_cons_self) hid
    obtain ⟨t, ht, hfinal⟩ := ih hscan (hsplit ▸ hids)
      fun q hq => hstamped q (List.mem_cons_of_mem _ hq)
    refine ⟨t, ?_, hsplit ▸ hfinal⟩
    rw [List.foldlM_cons, hs']
    exact ht

theorem scanned_nil : Scanned on [] {} :=
  ⟨by simp [SortedMap.empty, SortedMap.get?], by simp [Started], by simp [SortedMap.get?,
    SortedMap.empty]⟩

theorem WellFormed.scan (h : WellFormed policy) (on : NaiveDate) :
    ∃ s, policy.publications.foldlM (consider on) {} = .ok s ∧
      Scanned on policy.publications s := by
  have hids : (([] ++ policy.publications).map CollectionPublication.id).Nodup := by
    simpa using h.ids
  simpa using scanned_foldlM scanned_nil hids h.stamped

theorem Scanned.ambiguous_iff {s : LatestScan} (h : Scanned on policy.publications s) :
    s.ambiguous ≠ [] ↔ Ambiguous policy on := by
  constructor
  · intro hne
    obtain ⟨d, hd⟩ := List.exists_mem_of_ne_nil _ hne
    obtain ⟨p, stamp, q, hget, hqp, hdoc, hq⟩ := (h.ambiguous d).mp hd
    obtain ⟨rfl, hp, hmax⟩ := h.found d p stamp hget
    exact ⟨p, q, stamp, hqp.symm, hdoc, hp, hq, hmax⟩
  · rintro ⟨p, q, stamp, hpq, hdoc, hp, hq, hmax⟩ hnil
    cases hget : s.latest.get? p.documentId with
    | none => exact h.missing _ hget p stamp hp rfl
    | some found =>
      obtain ⟨x, st⟩ := found
      obtain ⟨hx, hstart, hxmax⟩ := h.found _ x st hget
      obtain rfl : st = stamp := le_antisymm (hmax x st hstart hx) (hxmax p stamp hp rfl)
      have hmem : p.documentId ∈ s.ambiguous := by
        rw [h.ambiguous]
        by_cases hxp : p = x
        · exact ⟨x, st, q, hget, fun he => hpq (hxp.trans he.symm), hdoc, hq⟩
        · exact ⟨x, st, p, hget, hxp, rfl, hp⟩
      rw [hnil] at hmem
      cases hmem

theorem Scanned.latest_iff {s : LatestScan} (h : Scanned on policy.publications s)
    (hclear : ¬ Ambiguous policy on) (p : CollectionPublication) :
    p ∈ s.latest.values.map Prod.fst ↔ Latest policy on p := by
  rw [List.mem_map]
  constructor
  · rintro ⟨⟨x, stamp⟩, hx, rfl⟩
    obtain ⟨d, hget⟩ := SortedMap.mem_values_iff.mp hx
    obtain ⟨rfl, hstart, hmax⟩ := h.found d x stamp hget
    refine ⟨stamp, hstart, fun q st hq hdoc hne => lt_of_le_of_ne (hmax q st hq hdoc) ?_⟩
    rintro rfl
    exact hclear ⟨x, q, st, hne.symm, hdoc, hstart, hq, hmax⟩
  · rintro ⟨stamp, hp, hmax⟩
    cases hget : s.latest.get? p.documentId with
    | none => exact absurd rfl (h.missing _ hget p stamp hp)
    | some found =>
      obtain ⟨x, st⟩ := found
      obtain ⟨hx, hstart, hxmax⟩ := h.found _ x st hget
      by_cases hxp : x = p
      · subst hxp
        exact ⟨(x, st), SortedMap.mem_values_iff.mpr ⟨_, hget⟩, rfl⟩
      · exact absurd (hmax x st hstart hx hxp) (not_lt.mpr (hxmax p stamp hp rfl))

theorem Scanned.ascending {s : LatestScan} {ps : List CollectionPublication} (h : Scanned on ps s) :
    (s.latest.values.map Prod.fst).Pairwise fun a b => a.documentId < b.documentId := by
  simp only [SortedMap.values, List.map_map, List.pairwise_map]
  refine s.latest.ascending.imp_of_mem fun {a b} ha hb hlt => ?_
  obtain ⟨ka, pa, sa⟩ := a
  obtain ⟨kb, pb, sb⟩ := b
  have hka := (h.found ka pa sa (SortedMap.mem_entries_iff.mp ha)).1
  have hkb := (h.found kb pb sb (SortedMap.mem_entries_iff.mp hb)).1
  simpa [hka, hkb] using hlt

theorem standing_of_dates {p : CollectionPublication} (hstart : ∃ d, date p.effectiveFrom = .ok d)
    (hends : ∀ s ∈ p.effectiveUntil, ∃ e, date s = .ok e) :
    ∃ b, standing on p = .ok b ∧ (b = true ↔ p.state ≠ "withdrawn" ∧
      InForce p.effectiveFrom p.effectiveUntil on) := by
  unfold standing
  split_ifs with hstate
  · exact ⟨false, rfl, by simp [hstate]⟩
  · obtain ⟨b, hb, hiff⟩ := active_of_dates hstart hends
    exact ⟨b, hb, by simp [hstate, hiff]⟩

/-- What governs, in order of the documents, unless the policy needs a review. -/
structure Governing (policy : CollectionGovernance) (on : NaiveDate)
    (ps : List CollectionPublication) : Prop where
  clear : ¬ NeedsReview policy on
  ascending : ps.Pairwise fun a b => a.documentId < b.documentId
  mem : ∀ p, p ∈ ps ↔ Governs policy on p

theorem Governing.unique {ps qs : List CollectionPublication} (hp : Governing policy on ps)
    (hq : Governing policy on qs) : ps = qs := by
  have nodup : ∀ {xs : List CollectionPublication},
      xs.Pairwise (fun a b => a.documentId < b.documentId) → xs.Nodup := fun hxs =>
    hxs.imp fun {a b} hlt he => by
      subst he
      exact lt_irrefl _ hlt
  have hperm : ps.Perm qs := (List.perm_ext_iff_of_nodup (nodup hp.ascending)
    (nodup hq.ascending)).mpr fun p => (hp.mem p).trans (hq.mem p).symm
  exact hperm.eq_of_pairwise (fun a b _ _ hab hba => absurd (hab.trans hba) (lt_irrefl _))
    hp.ascending hq.ascending

/-- Resolving the relations in force leaves what governs, or asks for a review. -/
theorem resolve_spec {relations : List DocumentRelation} {selected : List CollectionPublication}
    (hrel : ∀ r, r ∈ relations ↔ Relates policy on r)
    (hsel : ∀ p, p ∈ selected ↔ Selected policy on p) :
    (resolve relations selected = none ∧ (Chained policy on ∨ Unresolved policy on)) ∨
      ∃ kept, resolve relations selected = some kept ∧ kept.Sublist selected ∧
        ¬ Chained policy on ∧ ¬ Unresolved policy on ∧ ∀ p, p ∈ kept ↔ Governs policy on p := by
  unfold resolve
  extract_lets families superseded kept families'
  have hfam : ∀ d, families.contains d = true ↔ ∃ p, Selected policy on p ∧ p.documentId = d := by
    intro d
    simp [families, hsel]
  have hsup : ∀ d, superseded.contains d = true ↔ Superseded policy on d := by
    intro d
    rw [List.contains_iff_mem, List.mem_map]
    simp only [List.mem_filter, Bool.and_eq_true, beq_iff_eq, hfam, hrel]
    constructor
    · rintro ⟨r, ⟨hr, hkind, p, hp, hdoc⟩, rfl⟩
      exact ⟨r, p, hr, hkind, rfl, hp, hdoc⟩
    · rintro ⟨r, p, hr, hkind, rfl, hp, hdoc⟩
      exact ⟨r, ⟨hr, hkind, p, hp, hdoc⟩, rfl⟩
  have hkept : ∀ p, p ∈ kept ↔ Governs policy on p := by
    intro p
    rw [List.mem_filter, hsel, Bool.not_eq_true', ← Bool.not_eq_true, hsup]
    rfl
  have hfam' : ∀ d, families'.contains d = true ↔ ∃ p, Governs policy on p ∧ p.documentId = d := by
    intro d
    simp [families', hkept]
  have hchain : (relations.any fun r => r.kind == "supersedes" &&
      superseded.contains r.fromDocument) = true ↔ Chained policy on := by
    simp only [List.any_eq_true, Bool.and_eq_true, beq_iff_eq, hsup, hrel]
    rfl
  have hopen : (relations.any fun r => families'.contains r.fromDocument &&
      (r.kind == "conflicts" ||
      (dependentKinds.contains r.kind && !families'.contains r.toDocument))) = true ↔
      Unresolved policy on := by
    simp only [List.any_eq_true, Bool.and_eq_true, Bool.or_eq_true, beq_iff_eq, hrel,
      List.contains_iff_mem, Bool.not_eq_true', ← Bool.not_eq_true, hfam', not_exists, not_and]
    constructor
    · rintro ⟨r, hr, ⟨p, hp, hdoc⟩, hkind⟩
      exact ⟨r, p, hr, hp, hdoc, hkind⟩
    · rintro ⟨r, p, hr, hp, hdoc, hkind⟩
      exact ⟨r, hr, ⟨p, hp, hdoc⟩, hkind⟩
  split_ifs with hc ho
  · exact .inl ⟨rfl, .inl (hchain.mp hc)⟩
  · exact .inl ⟨rfl, .inr (hopen.mp ho)⟩
  · exact .inr ⟨kept, rfl, List.filter_sublist, mt hchain.mpr hc, mt hopen.mpr ho, hkept⟩

/-- On a well-formed policy the pass finds what governs, or asks for a review. -/
theorem WellFormed.governing (h : WellFormed policy) (on : NaiveDate) :
    (CollectionGovernance.governing policy on = .ok none ∧ NeedsReview policy on) ∨
      ∃ ps, CollectionGovernance.governing policy on = .ok (some ps) ∧
        Governing policy on ps := by
  obtain ⟨s, hs, hscan⟩ := h.scan on
  by_cases hamb : Ambiguous policy on
  · have hne : s.ambiguous.isEmpty = false := by
      simpa using hscan.ambiguous_iff.mpr hamb
    refine .inl ⟨?_, .inl hamb⟩
    simp [CollectionGovernance.governing, hs, hne, bind, Except.bind, pure, Except.pure]
  have hnil : s.ambiguous.isEmpty = true := by
    rw [List.isEmpty_iff]
    by_contra hne
    exact hamb (hscan.ambiguous_iff.mp hne)
  have hlatest := hscan.latest_iff hamb
  have hstanding : ∀ p ∈ s.latest.values.map Prod.fst, ∃ b, standing on p = .ok b ∧
      (b = true ↔ p.state ≠ "withdrawn" ∧ InForce p.effectiveFrom p.effectiveUntil on) := by
    intro p hp
    obtain ⟨stamp, hstart, -⟩ := (hlatest p).mp hp
    exact standing_of_dates ⟨_, hstart.2.1.1⟩ (h.ended p hstart.1)
  have hactive : ∀ r ∈ policy.relations, ∃ b, active r.effectiveFrom r.effectiveUntil on = .ok b ∧
      (b = true ↔ InForce r.effectiveFrom r.effectiveUntil on) :=
    fun r hr => active_of_dates (h.related r hr).1 (h.related r hr).2
  obtain ⟨selected, hselected, hsub, hmem⟩ := keepM_of_checks hstanding
  obtain ⟨relations, hrelations, -, hrel⟩ := keepM_of_checks hactive
  have hsel : ∀ p, p ∈ selected ↔ Selected policy on p := fun p => by
    rw [hmem, hlatest]
    rfl
  have hresult : CollectionGovernance.governing policy on = .ok (resolve relations selected) := by
    simp [CollectionGovernance.governing, hs, hnil, hselected, hrelations, bind, Except.bind, pure,
      Except.pure]
  rcases resolve_spec (fun r => hrel r) hsel with ⟨hnone, hreview⟩ |
    ⟨kept, hkept, hsub', hc, ho, hg⟩
  · exact .inl ⟨by rw [hresult, hnone], .inr hreview⟩
  · refine .inr ⟨kept, by rw [hresult, hkept], ⟨?_, ?_, hg⟩⟩
    · rintro (ha | hc' | ho')
      · exact hamb ha
      · exact hc hc'
      · exact ho ho'
    · exact (hscan.ascending.sublist hsub).sublist hsub'

section Validation

theorem checkEnd_ok {message : String} {first : NaiveDate} {ends : Option String}
    (h : checkEnd message first ends = .ok ()) : ∀ s ∈ ends, ∃ e, date s = .ok e := by
  rintro s rfl
  obtain ⟨e, he, -⟩ := bind_eq_ok.mp h
  exact ⟨e, he⟩

theorem checkPublication_ok {seen : List String} {p : CollectionPublication}
    (h : checkPublication seen p = .ok ()) : p.id ∉ seen ∧ (∃ stamp, Stamped p stamp) ∧
      ∀ s ∈ p.effectiveUntil, ∃ e, date s = .ok e := by
  unfold checkPublication at h
  split_ifs at h with hbad
  · cases h
  obtain ⟨⟨⟩, -, h⟩ := bind_eq_ok.mp h
  obtain ⟨d, hd, h⟩ := bind_eq_ok.mp h
  obtain ⟨⟨⟩, hend, h⟩ := bind_eq_ok.mp h
  obtain ⟨t, ht, -⟩ := bind_eq_ok.mp h
  refine ⟨fun hmem => hbad ?_, ⟨toLex (d, t), hd, ht⟩, checkEnd_ok hend⟩
  simp [hmem]

theorem checkPublications_ok {seen : List String} {ps : List CollectionPublication}
    (h : checkPublications seen ps = .ok ()) : (ps.map CollectionPublication.id).Nodup ∧
      (∀ p ∈ ps, p.id ∉ seen) ∧ ∀ p ∈ ps, (∃ stamp, Stamped p stamp) ∧
        ∀ s ∈ p.effectiveUntil, ∃ e, date s = .ok e := by
  induction ps generalizing seen with
  | nil => simp
  | cons p rest ih =>
    obtain ⟨⟨⟩, hp, hrest⟩ := bind_eq_ok.mp h
    obtain ⟨hnew, hdates⟩ := checkPublication_ok hp
    obtain ⟨hnodup, hunseen, hall⟩ := ih hrest
    refine ⟨List.nodup_cons.mpr ⟨?_, hnodup⟩, ?_, ?_⟩
    · intro hmem
      obtain ⟨q, hq, hid⟩ := List.mem_map.mp hmem
      exact hunseen q hq (by simp [hid])
    · intro q hq
      rcases List.mem_cons.mp hq with rfl | hq
      · exact hnew
      · exact fun hmem => hunseen q hq (List.mem_cons_of_mem _ hmem)
    · intro q hq
      rcases List.mem_cons.mp hq with rfl | hq
      · exact hdates
      · exact hall q hq

theorem checkRelation_ok {r : DocumentRelation} (h : checkRelation r = .ok ()) :
    (∃ d, date r.effectiveFrom = .ok d) ∧ ∀ s ∈ r.effectiveUntil, ∃ e, date s = .ok e := by
  unfold checkRelation at h
  split_ifs at h
  · cases h
  obtain ⟨d, hd, h⟩ := bind_eq_ok.mp h
  exact ⟨⟨d, hd⟩, checkEnd_ok h⟩

/-- The numbers of a query policy are within their bounds. -/
def Budgeted (q : QueryPolicy) : Prop :=
  q.maxOutputTokens.any (fun n => n == 0 || 100000 < n) = false ∧
    routesInvalid [] q.modelRoutes = false ∧ budgetInvalid q = false

theorem validate_ok {previous : Option CollectionGovernance}
    (h : validate policy previous = .ok ()) : WellFormed policy ∧ Budgeted policy.query ∧
      ∀ old ∈ previous, Retains old policy := by
  unfold validate at h
  dsimp only at h
  split_ifs at h with hroutes hbudget
  obtain ⟨⟨⟩, hpubs, h⟩ := bind_eq_ok.mp h
  obtain ⟨⟨⟩, hrels, h⟩ := bind_eq_ok.mp h
  obtain ⟨hids, -, hdates⟩ := checkPublications_ok hpubs
  refine ⟨⟨hids, fun p hp => (hdates p hp).1, fun p hp => (hdates p hp).2,
    fun r hr => checkRelation_ok (forM_ok hrels r hr)⟩, ?_, ?_⟩
  · simpa [Budgeted, and_assoc] using And.intro hroutes hbudget
  · rintro old rfl p hp
    exact checkRetained_ok (forM_ok h p hp)

/-- What a validated policy says on a date is what governs, or that it needs a review. -/
theorem governing_of_validate {previous : Option CollectionGovernance}
    (h : validate policy previous = .ok ()) (on : NaiveDate) :
    (governing policy on = .ok none ∧ NeedsReview policy on) ∨
      ∃ ps, governing policy on = .ok (some ps) ∧ Governing policy on ps :=
  (validate_ok h).1.governing on

/-- Two publications of one document, the later of them approved. -/
def published2024 : CollectionGovernance where
  publications := [
    ⟨"p1", "d", "m", "v1", "s", "00000000000000000000000000000000000000000000000000000000000000aa",
      "2024-01-01", none, "2024-01-01T00:00:00Z", "withdrawn"⟩,
    ⟨"p2", "d", "m", "v1", "s", "00000000000000000000000000000000000000000000000000000000000000aa",
      "2024-02-01", none, "2024-02-01T00:00:00Z", "approved"⟩]

/-- The first days of two months. -/
abbrev calendar2024 : CalendarText where
  parse s :=
    if s = "2024-01-01" then NaiveDate.ofDay (dayNumber 2024 1 1)
    else if s = "2024-02-01" then NaiveDate.ofDay (dayNumber 2024 2 1) else none

omit [CalendarText] in
theorem governing_of_validate_published : letI := calendar2024
    ∃ ps, governing published2024 ⟨dayNumber 2024 3 1, by decide⟩ = .ok (some ps) ∧
      Governing published2024 ⟨dayNumber 2024 3 1, by decide⟩ ps := by
  let _ := calendar2024
  have hvalid : validate published2024 none = .ok () := by decide +kernel
  have hsome : governing published2024 ⟨dayNumber 2024 3 1, by decide⟩ ≠ .ok none := by
    decide +kernel
  exact (governing_of_validate hvalid _).resolve_left fun h => hsome h.1

end Validation

/-- Once a withdrawn publication is effective, only what is published later in its document's
chronology governs, in every policy that retains it. -/
theorem Retains.governs_later {old : CollectionGovernance} (h : Retains old policy)
    {w p : CollectionPublication} (hw : w ∈ old.publications) (hstate : w.state = "withdrawn")
    {stamp st : NaiveDate ×ₗ UtcInstant} (hstamp : Stamped w stamp) (hle : (ofLex stamp).1 ≤ on)
    (hp : Governs policy on p) (hdoc : p.documentId = w.documentId) (hst : Stamped p st) :
    stamp < st := by
  obtain ⟨q, hq, -, hkept⟩ := h w hw
  obtain ⟨hqdoc, -, -, hfrom, htime, hwithdrawn⟩ := rewritten_eq_false.mp hkept
  obtain ⟨⟨⟨st', hstart, hmax⟩, hnot, -⟩, -⟩ := hp
  obtain rfl := hst.unique hstart.2.1
  have hqstamp : Stamped q stamp := ⟨hfrom ▸ hstamp.1, htime ▸ hstamp.2⟩
  apply hmax q stamp ⟨hq, hqstamp, hle⟩ (hqdoc.trans hdoc.symm)
  rintro rfl
  exact hnot (hwithdrawn hstate)

section Order
variable {policy' : CollectionGovernance}

/-- The same publications and relations, in whatever order. -/
structure Rearranged (policy policy' : CollectionGovernance) : Prop where
  publications : policy.publications.Perm policy'.publications
  relations : policy.relations.Perm policy'.relations

theorem Rearranged.wellFormed (h : Rearranged policy policy') (hwell : WellFormed policy) :
    WellFormed policy' where
  ids := (h.publications.map _).nodup_iff.mp hwell.ids
  stamped p hp := hwell.stamped p (h.publications.mem_iff.mpr hp)
  ended p hp := hwell.ended p (h.publications.mem_iff.mpr hp)
  related r hr := hwell.related r (h.relations.mem_iff.mpr hr)

theorem Rearranged.started (h : Rearranged policy policy') :
    Started on policy.publications = Started on policy'.publications := by
  funext p stamp
  simp only [Started, h.publications.mem_iff]

theorem Rearranged.relates (h : Rearranged policy policy') :
    Relates policy on = Relates policy' on := by
  funext r
  simp only [Relates, h.relations.mem_iff]

theorem Rearranged.governs (h : Rearranged policy policy') :
    Governs policy on = Governs policy' on := by
  funext p
  simp only [Governs, Selected, Superseded, Latest, h.started, h.relates]

theorem Rearranged.needsReview (h : Rearranged policy policy') :
    NeedsReview policy on ↔ NeedsReview policy' on := by
  simp only [NeedsReview, Ambiguous, Chained, Unresolved, Superseded, Selected, Latest, h.started,
    h.relates, h.governs]

/-- The order in which a policy lists its publications and relations decides nothing. -/
theorem governing_rearranged {previous : Option CollectionGovernance}
    (hvalid : validate policy previous = .ok ()) (h : Rearranged policy policy')
    (on : NaiveDate) : governing policy on = governing policy' on := by
  have hwell := (validate_ok hvalid).1
  rcases hwell.governing on with ⟨hnone, hreview⟩ | ⟨ps, hps, hgov⟩
  · rcases (h.wellFormed hwell).governing on with ⟨hnone', -⟩ | ⟨qs, -, hgov'⟩
    · rw [hnone, hnone']
    · exact absurd (h.needsReview.mp hreview) hgov'.clear
  · rcases (h.wellFormed hwell).governing on with ⟨-, hreview⟩ | ⟨qs, hqs, hgov'⟩
    · exact absurd (h.needsReview.mpr hreview) hgov.clear
    · have hback : Governing policy on qs :=
        ⟨mt h.needsReview.mp hgov'.clear, hgov'.ascending, fun p => by rw [h.governs, hgov'.mem]⟩
      rw [hps, hqs, hgov.unique hback]

def reversed2024 : CollectionGovernance :=
  { published2024 with publications := published2024.publications.reverse }

omit [CalendarText] in
theorem governing_rearranged_published : letI := calendar2024
    governing published2024 ⟨dayNumber 2024 3 1, by decide⟩ =
      governing reversed2024 ⟨dayNumber 2024 3 1, by decide⟩ := by
  let _ := calendar2024
  have hvalid : validate published2024 none = .ok () := by decide +kernel
  have hrearranged : Rearranged published2024 reversed2024 :=
    ⟨(List.reverse_perm _).symm, .refl _⟩
  exact governing_rearranged hvalid hrearranged _

end Order

end CollectionGovernance

open CollectionGovernance

structure GovernanceRow where
  tenantId : String
  collectionId : String
  revision : ℤ
  policy : CollectionGovernance
  actorUid : String
  deriving DecidableEq

/-- The policy as it is read back, under the revision of its row. -/
def GovernanceRow.current (r : GovernanceRow) : CollectionGovernance :=
  { r.policy with revision := r.revision }

/-- `PUT /v1.2/collections/{id}/governance`, past authorization. -/
structure GovernanceUpdate where
  tenantId : String
  collectionId : String
  body : CollectionGovernance
  actorUid : String
  deriving DecidableEq

abbrev GovernanceTable := List GovernanceRow

namespace GovernanceTable

def rowsOf (rows : GovernanceTable) (tenant id : String) : List GovernanceRow :=
  rows.filter fun r => r.tenantId == tenant && r.collectionId == id

/-- `ORDER BY revision DESC LIMIT 1`. -/
def load (rows : GovernanceTable) (tenant id : String) : Option CollectionGovernance :=
  (StableSort.sortByKey (fun r => OrderDual.toDual r.revision) (rows.rowsOf tenant id)).head?.map
    GovernanceRow.current

/-- The revision a reader goes by; a collection without a policy is at zero. -/
def revision (rows : GovernanceTable) (tenant id : String) : ℤ :=
  ((rows.load tenant id).map CollectionGovernance.revision).getD 0

theorem toNat?_eq_some {a : ℤ} {n : ℕ} : a.toNat? = some n ↔ a = n := by
  cases a with
  | ofNat m => simp [Int.toNat?]
  | negSucc m => simp [Int.toNat?]

theorem rowsOf_append (rows : GovernanceTable) (r : GovernanceRow) (tenant id : String) :
    rowsOf (rows ++ [r]) tenant id = rows.rowsOf tenant id ++
      if r.tenantId = tenant ∧ r.collectionId = id then [r] else [] := by
  unfold rowsOf
  rw [List.filter_append]
  congr 1
  by_cases hr : r.tenantId = tenant ∧ r.collectionId = id
  · simp [hr]
  · simp [hr]

variable [CalendarText]

/-- The transaction under the collection's advisory lock. -/
def replace (rows : GovernanceTable) (u : GovernanceUpdate) :
    Result CollectionGovernance × GovernanceTable :=
  let previous := rows.load u.tenantId u.collectionId
  let actual := (previous.map CollectionGovernance.revision).getD 0
  if actual ≠ u.body.revision ∨ u.body.revision < 0 then
    (.error (.headConflict (max u.body.revision 0).toNat actual.toNat), rows)
  else match validate u.body previous with
    | .error e => (.error e, rows)
    | .ok () =>
        let stored := { u.body with revision := actual + 1 }
        (.ok stored, rows ++ [⟨u.tenantId, u.collectionId, actual + 1, stored, u.actorUid⟩])

/-- What an accepted update does: it joins at the revision after the one it names, valid
against the policy it replaces. -/
theorem replace_ok {rows rows' : GovernanceTable} {u : GovernanceUpdate}
    {stored : CollectionGovernance} (h : rows.replace u = (.ok stored, rows')) :
    rows.revision u.tenantId u.collectionId = u.body.revision ∧ 0 ≤ u.body.revision ∧
      validate u.body (rows.load u.tenantId u.collectionId) = .ok () ∧
      stored = { u.body with revision := u.body.revision + 1 } ∧
      rows' = rows ++ [⟨u.tenantId, u.collectionId, u.body.revision + 1, stored, u.actorUid⟩] := by
  unfold replace at h
  dsimp only at h
  split_ifs at h with hconflict
  · cases h
  obtain ⟨hrevision, hnonneg⟩ := not_or.mp hconflict
  rw [not_not] at hrevision
  split at h
  · cases h
  · rename_i hvalid
    rw [hrevision] at h
    obtain ⟨hstored, rfl⟩ := Prod.mk.inj h
    obtain rfl := Except.ok.inj hstored
    exact ⟨hrevision, not_lt.mp hnonneg, hvalid, rfl, rfl⟩

theorem replace_error {rows rows' : GovernanceTable} {u : GovernanceUpdate} {e : KernelError}
    (h : rows.replace u = (.error e, rows')) : rows' = rows := by
  unfold replace at h
  dsimp only at h
  split_ifs at h with hconflict
  · exact (Prod.mk.inj h).2.symm
  · split at h
    · exact (Prod.mk.inj h).2.symm
    · cases h

/-- The revisions of each collection are numbered from one, each valid, and each retaining
what the one before it published. -/
structure History (rows : GovernanceTable) : Prop where
  chain : ∀ tenant id, NumberedChain (fun r : GovernanceRow => r.revision.toNat?)
    (fun _ => True) (fun r r' => Retains r.current r'.current) (rows.rowsOf tenant id)
  valid : ∀ r ∈ rows, WellFormed r.policy ∧ Budgeted r.policy.query

/-- The revision last stored is the greatest one. -/
theorem History.load_eq {rows : GovernanceTable} (h : History rows) (tenant id : String) :
    rows.load tenant id = (rows.rowsOf tenant id).getLast?.map GovernanceRow.current := by
  unfold load
  congr 1
  have hchain := h.chain tenant id
  generalize rows.rowsOf tenant id = l at hchain
  cases hlast : l.getLast? with
  | none => simp [List.getLast?_eq_none_iff.mp hlast, StableSort.sortByKey, StableSort.sortBy]
  | some x =>
    have hx := toNat?_eq_some.mp (hchain.number_last hlast)
    have hindex : ∀ b ∈ l, b.revision ≤ x.revision ∧ (b.revision = x.revision → b = x) := by
      intro b hb
      obtain ⟨i, hi⟩ := List.mem_iff_getElem?.mp hb
      have hlt : i < l.length := (List.getElem?_eq_some_iff.mp hi).1
      have hbi := toNat?_eq_some.mp (hchain.numbered i b hi)
      refine ⟨by omega, fun heq => ?_⟩
      obtain rfl : i = l.length - 1 := by omega
      rw [List.getLast?_eq_getElem?] at hlast
      exact Option.some.inj (hi.symm.trans hlast)
    have hmem := List.mem_of_getLast? hlast
    rw [StableSort.head?_sortByKey]
    refine ⟨fun b hb => OrderDual.toDual_le_toDual.mpr (hindex b hb).1, ?_⟩
    cases hclass : l.filter fun b => decide (OrderDual.toDual b.revision =
        OrderDual.toDual x.revision) with
    | nil =>
      have := List.filter_eq_nil_iff.mp hclass x hmem
      simp at this
    | cons y ys =>
      have hy : y ∈ y :: ys := List.mem_cons_self
      rw [← hclass, List.mem_filter] at hy
      rw [List.head?_cons, (hindex y hy.1).2 (by simpa using hy.2)]

/-- The revision read back is the number of revisions stored. -/
theorem History.revision_eq {rows : GovernanceTable} (h : History rows) (tenant id : String) :
    rows.revision tenant id = (rows.rowsOf tenant id).length := by
  unfold revision
  rw [h.load_eq]
  cases hlast : (rows.rowsOf tenant id).getLast? with
  | none => simp [List.getLast?_eq_none_iff.mp hlast]
  | some x => simpa [GovernanceRow.current] using
      toNat?_eq_some.mp ((h.chain tenant id).number_last hlast)

theorem history_nil : History [] := ⟨fun _ _ => numberedChain_nil, by simp⟩

theorem History.replace {rows rows' : GovernanceTable} (h : History rows) {u : GovernanceUpdate}
    {stored : CollectionGovernance} (hok : rows.replace u = (.ok stored, rows')) :
    History rows' := by
  obtain ⟨hrevision, -, hvalid, rfl, rfl⟩ := replace_ok hok
  obtain ⟨hwell, hbudget, hretains⟩ := validate_ok hvalid
  constructor
  · intro tenant id
    rw [rowsOf_append]
    split_ifs with hkey
    · obtain ⟨rfl, rfl⟩ := hkey
      apply (h.chain _ _).append
      · rw [toNat?_eq_some, ← hrevision, h.revision_eq]
        simp
      · exact fun _ => trivial
      · intro x hx
        apply hretains x.current
        rw [h.load_eq, hx]
        rfl
    · simpa using h.chain tenant id
  · intro r hr
    rcases List.mem_append.mp hr with hr | hr
    · exact h.valid r hr
    · obtain rfl := List.mem_singleton.mp hr
      exact ⟨⟨hwell.ids, hwell.stamped, hwell.ended, hwell.related⟩, hbudget⟩

/-- What accepted updates make of the table, one after the other. -/
def Published : GovernanceTable → GovernanceTable → Prop :=
  Relation.ReflTransGen fun rows rows' => ∃ u stored, rows.replace u = (.ok stored, rows')

variable {rows rows' : GovernanceTable}

theorem Published.history (h : Published rows rows') (hrows : History rows) : History rows' := by
  induction h with
  | refl => exact hrows
  | tail _ hstep ih =>
    obtain ⟨u, stored, hok⟩ := hstep
    exact ih.replace hok

/-- One update reaches only its collection, and there the policy it replaces is retained. -/
theorem History.load_replace (h : History rows) {u : GovernanceUpdate}
    {stored : CollectionGovernance} (hok : rows.replace u = (.ok stored, rows'))
    (tenant id : String) : rows'.load tenant id = rows.load tenant id ∨
      ∃ new, rows'.load tenant id = some new ∧ rows.revision tenant id < new.revision ∧
        ∀ old ∈ rows.load tenant id, Retains old new := by
  have hrows' := h.replace hok
  obtain ⟨hrevision, -, hvalid, rfl, rfl⟩ := replace_ok hok
  rw [hrows'.load_eq, rowsOf_append]
  split_ifs with hkey
  · obtain ⟨rfl, rfl⟩ := hkey
    refine .inr ⟨_, by simp; rfl, ?_, ?_⟩
    · rw [hrevision]
      simp [GovernanceRow.current]
    · intro old hold
      exact (validate_ok hvalid).2.2 old hold
  · left
    rw [h.load_eq]
    simp

/-- A policy read later is the same one, or a later revision that retains it. -/
theorem Published.load (h : Published rows rows') (hrows : History rows) {tenant id : String}
    {old : CollectionGovernance} (hold : rows.load tenant id = some old) :
    ∃ new, rows'.load tenant id = some new ∧ Retains old new ∧
      (new = old ∨ old.revision < new.revision) := by
  induction h with
  | refl => exact ⟨old, hold, .refl old, .inl rfl⟩
  | @tail t _ hpre hstep ih =>
    obtain ⟨new, hnew, hretains, hlater⟩ := ih
    obtain ⟨u, stored, hok⟩ := hstep
    rcases (Published.history hpre hrows).load_replace hok tenant id with hsame | ⟨new', hnew', hlt,
      hretains'⟩
    · exact ⟨new, hsame.trans hnew, hretains, hlater⟩
    · have hrev : t.revision tenant id = new.revision := by simp [revision, hnew]
      refine ⟨new', hnew', hretains.trans (hretains' new hnew), .inr ?_⟩
      rcases hlater with rfl | hlater
      · omega
      · omega

/-- The revision tells policies apart: where it is the same, nothing was published between. -/
theorem Published.load_eq (h : Published rows rows') (hrows : History rows) {tenant id : String}
    (hrevision : rows'.revision tenant id = rows.revision tenant id) :
    rows'.load tenant id = rows.load tenant id := by
  cases hold : rows.load tenant id with
  | some old =>
    obtain ⟨new, hnew, -, hlater⟩ := h.load hrows hold
    rcases hlater with rfl | hlater
    · exact hnew
    · simp only [revision, hold, hnew, Option.map_some, Option.getD_some] at hrevision
      omega
  | none =>
    have hzero : rows.revision tenant id = 0 := by simp [revision, hold]
    rw [hzero, (h.history hrows).revision_eq] at hrevision
    have hnil : rows'.rowsOf tenant id = [] := List.length_eq_zero_iff.mp (by omega)
    rw [(h.history hrows).load_eq, hnil]
    rfl

end GovernanceTable
end Munarium

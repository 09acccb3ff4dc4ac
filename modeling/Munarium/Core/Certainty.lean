import Mathlib.Data.List.Perm.Basic
import Munarium.Core.ChronoGate

/-! Rule evaluation against its meaning: a pair of events is a violation when the rule
fails for every choice of one day inside each event's interval. -/
namespace Munarium

/-- The days an event may have happened on. -/
def ChronoEvent.days (e : ChronoEvent) : Set NaiveDate := Set.Icc e.when.start e.when.stop

/-- `broken` holds of every choice of one day inside each interval. -/
def Always (broken : NaiveDate → NaiveDate → Prop) (a b : ChronoEvent) : Prop :=
  ∀ d ∈ a.days, ∀ e ∈ b.days, broken d e

/-- One of the two events is under review and neither is hedged. -/
def Judged (a b : ChronoEvent) : Prop :=
  (a.origin = .candidate ∨ b.origin = .candidate) ∧
    a.when.uncertain = false ∧ b.when.uncertain = false

section
variable [Unicode]

/-- Two events a rule with these targets is about. -/
def Paired (targetA targetB : String) (a b : ChronoEvent) : Prop :=
  targetMatches targetA a = true ∧ targetMatches targetB b = true ∧ a.claimKey ≠ b.claimKey ∧
    (a.subject = b.subject ∨ isAbsoluteTarget targetA = true ∨ isAbsoluteTarget targetB = true)

def OrderRule.Fails (r : OrderRule) (a b : ChronoEvent) : Prop :=
  Paired r.before r.after a b ∧ Judged a b ∧ Always (fun d e => e < d) a b

def ContainsRule.Fails (r : ContainsRule) (a b : ChronoEvent) : Prop :=
  Paired r.outer r.inner a b ∧ Judged a b ∧ Always (fun d e => d ≠ e) a b

/-- Two day-precise events that share a day. -/
def OverlapRule.Fails (r : OverlapRule) (a b : ChronoEvent) : Prop :=
  Paired r.a r.b a b ∧ Judged a b ∧ a.when.precision = .day ∧ b.when.precision = .day ∧
    (a.days ∩ b.days).Nonempty

/-- A pair that both orientations match is filed once, in the timeline's order. -/
def OverlapRule.Oriented (r : OverlapRule) (a b : ChronoEvent) : Prop :=
  Paired r.a r.b b a → a.sortKey < b.sortKey

def DeadlineRule.Fails (r : DeadlineRule) (a b : ChronoEvent) : Prop :=
  Paired r.dueFrom r.key a b ∧ Judged a b ∧
    Always (fun d e => d.day + r.withinDays < e.day) a b

def DurationRule.Fails (r : DurationRule) (a b : ChronoEvent) : Prop :=
  Paired r.start r.stop a b ∧ Judged a b ∧
    ((∃ m, r.maxDays = some m ∧ Always (fun d e => m < e.day - d.day) a b) ∨
      ∃ m, r.minDays = some m ∧ Always (fun d e => e.day - d.day < m) a b)

end

open Classical in
/-- The ordered pairs of events that satisfy `P`. -/
noncomputable def pairsWhere (events : List ChronoEvent)
    (P : ChronoEvent → ChronoEvent → Prop) : List (ChronoEvent × ChronoEvent) :=
  (events ×ˢ events).filter fun p => decide (P p.1 p.2)

/-- What evaluation should file: one violation for each rule and pair that fails it. -/
noncomputable def certainViolations [Unicode] (events : List ChronoEvent)
    (rules : ChronologyRules) : List ChronoViolation :=
  rules.order.flatMap (fun r =>
      (pairsWhere events r.Fails).map fun p => orderViolation r p.1 p.2) ++
    rules.contains.flatMap (fun r =>
      (pairsWhere events r.Fails).map fun p => containsViolation r p.1 p.2) ++
    rules.forbidOverlap.flatMap (fun r =>
      (pairsWhere events fun a b => r.Fails a b ∧ r.Oriented a b).map fun p =>
        overlapViolation r p.1 p.2) ++
    rules.deadlines.flatMap (fun r =>
      (pairsWhere events r.Fails).filterMap fun p =>
        (deadlineOf r p.1).map (deadlineViolation r p.1 p.2)) ++
    rules.durations.flatMap fun r =>
      (pairsWhere events r.Fails).map fun p =>
        durationViolation r p.1 p.2 ((durationProblem r p.1 p.2).getD "")

theorem mem_pairsWhere {events : List ChronoEvent} {P : ChronoEvent → ChronoEvent → Prop}
    {a b : ChronoEvent} : (a, b) ∈ pairsWhere events P ↔ a ∈ events ∧ b ∈ events ∧ P a b := by
  simp [pairsWhere, and_assoc]

theorem pairsWhere_perm {events events' : List ChronoEvent} (h : events.Perm events')
    (P : ChronoEvent → ChronoEvent → Prop) :
    (pairsWhere events P).Perm (pairsWhere events' P) :=
  (h.product h).filter _

theorem pairsWhere_congr {events : List ChronoEvent} {P Q : ChronoEvent → ChronoEvent → Prop}
    (h : ∀ a ∈ events, ∀ b ∈ events, P a b ↔ Q a b) :
    pairsWhere events P = pairsWhere events Q := by
  unfold pairsWhere
  refine List.filter_congr fun p hp => decide_eq_decide.mpr ?_
  obtain ⟨ha, hb⟩ := List.mem_product.mp hp
  exact h p.1 ha p.2 hb

/-- Pair by pair, with the second event drawn from the whole list. -/
theorem pairsWhere_eq_flatMap (events : List ChronoEvent)
    (P : ChronoEvent → ChronoEvent → Prop) [∀ a b, Decidable (P a b)] :
    pairsWhere events P =
      events.flatMap fun a => (events.filter fun b => decide (P a b)).map fun b => (a, b) := by
  have hrow (a : ChronoEvent) (l : List ChronoEvent) :
      ((l.map fun b => (a, b)).filter fun p => decide (P p.1 p.2)) =
        (l.filter fun b => decide (P a b)).map fun b => (a, b) := by
    rw [List.filter_map]
    rfl
  have hprod : events ×ˢ events = events.flatMap fun a => events.map fun b => (a, b) := rfl
  have hdec : pairsWhere events P =
      (events ×ˢ events).filter fun p => decide (P p.1 p.2) := by
    unfold pairsWhere
    exact List.filter_congr fun p _ => decide_eq_decide.mpr Iff.rfl
  rw [hdec, hprod, List.filter_flatMap]
  exact List.flatMap_congr fun a _ => hrow a events

/-- A check over the pairs satisfying `P` that files `v` when `Q` holds as well. -/
theorem filterMap_pairsWhere {β : Type*} {events : List ChronoEvent}
    {P Q : ChronoEvent → ChronoEvent → Prop} {check v : ChronoEvent × ChronoEvent → Option β}
    (h : ∀ a ∈ events, ∀ b ∈ events, P a b → ∀ x,
      check (a, b) = some x ↔ Q a b ∧ v (a, b) = some x) :
    (pairsWhere events P).filterMap check =
      (pairsWhere events fun a b => P a b ∧ Q a b).filterMap v := by
  classical
  have hsplit : (pairsWhere events fun a b => P a b ∧ Q a b) =
      (pairsWhere events P).filter fun p => decide (Q p.1 p.2) := by
    unfold pairsWhere
    rw [List.filter_filter]
    refine List.filter_congr fun p _ => ?_
    rw [Bool.decide_and, Bool.and_comm]
  rw [hsplit, List.filterMap_filter]
  refine List.filterMap_congr fun p hp => Option.ext fun x => ?_
  obtain ⟨ha, hb, hP⟩ := mem_pairsWhere.mp hp
  rw [h p.1 ha p.2 hb hP x]
  by_cases hQ : Q p.1 p.2 <;> simp [hQ]

section
variable [Unicode]

theorem pairs_eq (events : List ChronoEvent) (targetA targetB : String) :
    pairs events targetA targetB = pairsWhere events (Paired targetA targetB) := by
  classical
  rw [pairsWhere_eq_flatMap]
  unfold pairs
  refine List.flatMap_congr fun a _ => ?_
  by_cases hA : targetMatches targetA a = true
  · simp only [hA, Bool.not_true, Bool.false_eq_true, if_false]
    congr 1
    refine List.filter_congr fun b _ => ?_
    by_cases hk : a.claimKey = b.claimKey
    · simp [Paired, hk]
    by_cases hB : targetMatches targetB b = true
    · simp [Paired, hA, hB, hk, Ne.symm hk]
      grind
    · simp [Paired, hA, hB]
  · have hnone : (events.filter fun b => decide (Paired targetA targetB a b)) = [] :=
      List.filter_eq_nil_iff.mpr fun b _ => by simp [Paired, hA]
    simp [hA, hnone]

omit [Unicode] in
theorem Judged.involves {a b : ChronoEvent} (h : Judged a b) :
    involvesCandidate [a, b] = true := by
  simpa [involvesCandidate] using h.1

omit [Unicode] in
theorem judged_iff {a b : ChronoEvent} :
    Judged a b ↔ involvesCandidate [a, b] = true ∧ a.when.uncertain = false ∧
      b.when.uncertain = false := by
  simp [Judged, involvesCandidate]

omit [Unicode] in
theorem always_before_iff {a b : ChronoEvent} (ha : a.when.Ordered) (hb : b.when.Ordered) :
    Always (fun d e => e < d) a b ↔ b.when.stop < a.when.start :=
  Intervals.forall_lt_iff ha hb

omit [Unicode] in
theorem always_ne_iff {a b : ChronoEvent} (ha : a.when.Ordered) (hb : b.when.Ordered) :
    Always (fun d e => d ≠ e) a b ↔ b.when.overlaps a.when = false := by
  have h := Intervals.forall_ne_iff (a := a.when.start) ha hb
  unfold Always ChronoEvent.days
  rw [h]
  simp [When.overlaps]
  grind

omit [Unicode] in
theorem always_lt_gap_iff {a b : ChronoEvent} (ha : a.when.Ordered) (hb : b.when.Ordered)
    (m : ℤ) : Always (fun d e => m < e.day - d.day) a b ↔ m < gapMin a b :=
  Intervals.forall_lt_gap_iff (fun _ _ h => h) ha hb

omit [Unicode] in
theorem always_gap_lt_iff {a b : ChronoEvent} (ha : a.when.Ordered) (hb : b.when.Ordered)
    (m : ℤ) : Always (fun d e => e.day - d.day < m) a b ↔ gapMax a b < m :=
  Intervals.forall_gap_lt_iff (fun _ _ h => h) ha hb

/-! What one check files, family by family. -/

omit [Unicode] in
theorem orderCheck_eq_some {r : OrderRule} {a b : ChronoEvent} (ha : a.when.Ordered)
    (hb : b.when.Ordered) {v : ChronoViolation} :
    orderCheck r a b = some v ↔
      (Judged a b ∧ Always (fun d e => e < d) a b) ∧ orderViolation r a b = v := by
  rw [judged_iff, always_before_iff ha hb]
  unfold orderCheck When.definitelyBefore
  split_ifs <;> simp_all

omit [Unicode] in
theorem containsCheck_eq_some {r : ContainsRule} {a b : ChronoEvent} (ha : a.when.Ordered)
    (hb : b.when.Ordered) {v : ChronoViolation} :
    containsCheck r a b = some v ↔
      (Judged a b ∧ Always (fun d e => d ≠ e) a b) ∧ containsViolation r a b = v := by
  rw [judged_iff, always_ne_iff ha hb]
  unfold containsCheck
  split_ifs <;> simp_all

omit [Unicode] in
theorem overlapCheck_eq_some {r : OverlapRule} {a b : ChronoEvent} (ha : a.when.Ordered)
    (hb : b.when.Ordered) {v : ChronoViolation} :
    overlapCheck r a b = some v ↔
      (Judged a b ∧ a.when.precision = .day ∧ b.when.precision = .day ∧
        (a.days ∩ b.days).Nonempty) ∧ overlapViolation r a b = v := by
  have hmeet : (a.days ∩ b.days).Nonempty ↔ a.when.overlaps b.when = true := by
    unfold ChronoEvent.days
    rw [Intervals.inter_nonempty_iff ha hb]
    simp [When.overlaps]
  rw [judged_iff, hmeet]
  unfold overlapCheck
  split_ifs <;> simp_all [and_assoc]

omit [Unicode] in
theorem durationProblem_isSome {r : DurationRule} {a b : ChronoEvent} (ha : a.when.Ordered)
    (hb : b.when.Ordered) :
    (durationProblem r a b).isSome = true ↔
      (∃ m, r.maxDays = some m ∧ Always (fun d e => m < e.day - d.day) a b) ∨
        ∃ m, r.minDays = some m ∧ Always (fun d e => e.day - d.day < m) a b := by
  have hmax (m : ℤ) := always_lt_gap_iff ha hb m
  have hmin (m : ℤ) := always_gap_lt_iff ha hb m
  simp only [hmax, hmin, durationProblem, Option.isSome_or, Option.isSome_map, Bool.or_eq_true,
    Option.isSome_filter, Option.any_eq_true_iff_get]
  cases r.maxDays <;> cases r.minDays <;> simp

omit [Unicode] in
theorem durationCheck_eq_some {r : DurationRule} {a b : ChronoEvent} (ha : a.when.Ordered)
    (hb : b.when.Ordered) {v : ChronoViolation} :
    durationCheck r a b = some v ↔
      (Judged a b ∧ ((∃ m, r.maxDays = some m ∧ Always (fun d e => m < e.day - d.day) a b) ∨
        ∃ m, r.minDays = some m ∧ Always (fun d e => e.day - d.day < m) a b)) ∧
      durationViolation r a b ((durationProblem r a b).getD "") = v := by
  rw [judged_iff, ← durationProblem_isSome ha hb]
  unfold durationCheck
  cases hp : durationProblem r a b with
  | none => split_ifs <;> simp
  | some problem =>
    split_ifs with hc hu
    · simp_all
    · simp_all
      grind
    · simp_all

omit [Unicode] in
theorem deadlineCheck_eq_some {r : DeadlineRule} {a b : ChronoEvent} (ha : a.when.Ordered)
    (hb : b.when.Ordered) (hu : a.when.uncertain = false) {deadline : NaiveDate}
    (hd : deadlineOf r a = some deadline) {v : ChronoViolation} :
    deadlineCheck r deadline a b = some v ↔
      (Judged a b ∧ Always (fun d e => d.day + r.withinDays < e.day) a b) ∧
        deadlineViolation r a b deadline = v := by
  have hday : deadline.day = a.when.stop.day + r.withinDays := by
    obtain ⟨n, hn, hd⟩ := Option.bind_eq_some_iff.mp hd
    unfold NaiveDate.tryDays at hn
    split_ifs at hn
    cases hn
    exact NaiveDate.checkedAddSigned_eq_some hd
  have halways : Always (fun d e => d.day + r.withinDays < e.day) a b ↔
      b.when.start > deadline := by
    have hgap := always_lt_gap_iff ha hb r.withinDays
    rw [gt_iff_lt, NaiveDate.lt_iff, hday]
    have hsame : Always (fun d e => d.day + r.withinDays < e.day) a b ↔
        Always (fun d e => r.withinDays < e.day - d.day) a b := by
      refine forall₄_congr fun d _ e _ => ?_
      omega
    rw [hsame, hgap, gapMin]
    omega
  rw [judged_iff, halways]
  unfold deadlineCheck
  split_ifs <;> simp_all

/-! The first orientation of each pair is the one the timeline's order puts first. -/

omit [Unicode] in
theorem pairId_eq {p q : ChronoEvent × ChronoEvent} (h : pairId p = pairId q) :
    (p.1.claimKey = q.1.claimKey ∧ p.2.claimKey = q.2.claimKey) ∨
      (p.1.claimKey = q.2.claimKey ∧ p.2.claimKey = q.1.claimKey) := by
  unfold pairId at h
  split_ifs at h <;> simp_all

omit [Unicode] in
theorem pairId_swap {a b : ChronoEvent} : pairId (b, a) = pairId (a, b) := by
  unfold pairId
  simp only
  rcases lt_trichotomy a.claimKey b.claimKey with h | h | h
  · rw [if_neg (not_le.mpr h), if_pos h.le]
  · rw [h]
  · rw [if_pos h.le, if_neg (not_le.mpr h)]

/-- Lexicographic order of pairs, the order in which they are visited. -/
def PairBefore (p q : ChronoEvent × ChronoEvent) : Prop :=
  toLex (p.1.sortKey, p.2.sortKey) < toLex (q.1.sortKey, q.2.sortKey)

omit [Unicode] in
theorem pairBefore_iff {p q : ChronoEvent × ChronoEvent} :
    PairBefore p q ↔ p.1.sortKey < q.1.sortKey ∨
      (p.1.sortKey = q.1.sortKey ∧ p.2.sortKey < q.2.sortKey) := Prod.Lex.lt_iff

omit [Unicode] in
theorem pairsWhere_pairwise {events : List ChronoEvent}
    (h : events.Pairwise fun a b => a.sortKey < b.sortKey)
    (P : ChronoEvent → ChronoEvent → Prop) : (pairsWhere events P).Pairwise PairBefore := by
  have hprod : (events ×ˢ events).Pairwise PairBefore := by
    have hfm : events ×ˢ events = events.flatMap fun a => events.map fun b => (a, b) := rfl
    rw [hfm, List.pairwise_flatMap]
    refine ⟨fun a _ => ?_, h.imp fun {a b} hab => ?_⟩
    · rw [List.pairwise_map]
      refine h.imp fun {b c} hbc => ?_
      exact pairBefore_iff.mpr (.inr ⟨rfl, hbc⟩)
    · intro p hp q hq
      obtain ⟨c, -, rfl⟩ := List.mem_map.mp hp
      obtain ⟨d, -, rfl⟩ := List.mem_map.mp hq
      exact pairBefore_iff.mpr (.inl hab)
  exact hprod.filter _

theorem scan_pairs {events : List ChronoEvent} (r : OverlapRule)
    (hs : events.Pairwise fun a b => a.sortKey < b.sortKey)
    (hk : (events.map (·.claimKey)).Nodup) :
    FirstSeen.scan pairId [] (pairs events r.a r.b) =
      pairsWhere events fun a b => Paired r.a r.b a b ∧ r.Oriented a b := by
  classical
  have hinj := List.inj_on_of_nodup_map hk
  rw [pairs_eq, FirstSeen.scan_eq_filter (R := PairBefore)
    (fun p q hpq hqp => lt_asymm hpq hqp) (pairsWhere_pairwise hs _) []]
  conv_lhs => unfold pairsWhere
  unfold pairsWhere
  rw [List.filter_filter]
  refine List.filter_congr fun ⟨a, b⟩ hp => ?_
  obtain ⟨ha, hb⟩ := List.mem_product.mp hp
  rw [← Bool.decide_and, decide_eq_decide, and_comm]
  refine and_congr_right fun hab => ?_
  have hne : a.sortKey ≠ b.sortKey := by
    intro he
    have hsk : (a.subject, a.key) = (b.subject, b.key) := he
    simp only [Prod.mk.injEq] at hsk
    exact hab.2.2.1 (by simp [ChronoEvent.claimKey, hsk])
  constructor
  · rintro ⟨-, hfirst⟩ hba
    have hnot := hfirst (b, a) (mem_pairsWhere.mpr ⟨hb, ha, hba⟩) pairId_swap
    by_contra hlt
    exact hnot (pairBefore_iff.mpr (.inl (lt_of_le_of_ne (not_lt.mp hlt) hne.symm)))
  · intro horiented
    refine ⟨by simp, ?_⟩
    rintro ⟨c, d⟩ hcd hid hbefore
    obtain ⟨hc, hd, hpaired⟩ := mem_pairsWhere.mp hcd
    rcases pairId_eq hid with ⟨h1, h2⟩ | ⟨h1, h2⟩
    · rw [hinj hc ha h1, hinj hd hb h2] at hbefore
      exact lt_irrefl _ hbefore
    · rw [hinj hc hb h1, hinj hd ha h2] at hbefore hpaired
      rcases pairBefore_iff.mp hbefore with hlt | ⟨heq, -⟩
      · exact lt_asymm hlt (horiented hpaired)
      · exact hne heq.symm

/-! One pass over a timeline, family by family. -/

variable {events : List ChronoEvent}

theorem orderPass_eq (hord : ∀ e ∈ events, e.when.Ordered) (r : OrderRule) :
    ((pairs events r.before r.after).filterMap fun p => orderCheck r p.1 p.2) =
      (pairsWhere events r.Fails).map fun p => orderViolation r p.1 p.2 := by
  rw [pairs_eq, ← List.filterMap_eq_map']
  refine filterMap_pairsWhere fun a ha b hb _ x => ?_
  rw [orderCheck_eq_some (hord a ha) (hord b hb), Option.some.injEq]

theorem containsPass_eq (hord : ∀ e ∈ events, e.when.Ordered) (r : ContainsRule) :
    ((pairs events r.outer r.inner).filterMap fun p => containsCheck r p.1 p.2) =
      (pairsWhere events r.Fails).map fun p => containsViolation r p.1 p.2 := by
  rw [pairs_eq, ← List.filterMap_eq_map']
  refine filterMap_pairsWhere fun a ha b hb _ x => ?_
  rw [containsCheck_eq_some (hord a ha) (hord b hb), Option.some.injEq]

theorem durationPass_eq (hord : ∀ e ∈ events, e.when.Ordered) (r : DurationRule) :
    ((pairs events r.start r.stop).filterMap fun p => durationCheck r p.1 p.2) =
      (pairsWhere events r.Fails).map fun p =>
        durationViolation r p.1 p.2 ((durationProblem r p.1 p.2).getD "") := by
  rw [pairs_eq, ← List.filterMap_eq_map']
  refine filterMap_pairsWhere fun a ha b hb _ x => ?_
  rw [durationCheck_eq_some (hord a ha) (hord b hb), Option.some.injEq]

theorem overlapPass_eq (hord : ∀ e ∈ events, e.when.Ordered)
    (hs : events.Pairwise fun a b => a.sortKey < b.sortKey)
    (hk : (events.map (·.claimKey)).Nodup) (r : OverlapRule) :
    ((FirstSeen.scan pairId [] (pairs events r.a r.b)).filterMap fun p =>
        overlapCheck r p.1 p.2) =
      (pairsWhere events fun a b => r.Fails a b ∧ r.Oriented a b).map fun p =>
        overlapViolation r p.1 p.2 := by
  have hsplit : (pairsWhere events fun a b => r.Fails a b ∧ r.Oriented a b) =
      pairsWhere events fun a b => (Paired r.a r.b a b ∧ r.Oriented a b) ∧
        (Judged a b ∧ a.when.precision = .day ∧ b.when.precision = .day ∧
          (a.days ∩ b.days).Nonempty) := by
    refine pairsWhere_congr fun a _ b _ => ?_
    rw [OverlapRule.Fails]
    tauto
  rw [scan_pairs r hs hk, hsplit, ← List.filterMap_eq_map']
  refine filterMap_pairsWhere fun a ha b hb _ x => ?_
  rw [overlapCheck_eq_some (hord a ha) (hord b hb), Option.some.injEq]

/-- Without a clock a deadline pass files only on events that came too late. -/
theorem deadlinePass_none (r : DeadlineRule) (a : ChronoEvent)
    [∀ b, Decidable (Paired r.dueFrom r.key a b)] :
    deadlinePass events none r a =
      (events.filter fun b => decide (Paired r.dueFrom r.key a b)).filterMap fun b =>
        if a.when.uncertain then none
        else (deadlineOf r a).bind fun deadline => deadlineCheck r deadline a b := by
  by_cases hm : targetMatches r.dueFrom a = true
  swap
  · have hnone : (events.filter fun b => decide (Paired r.dueFrom r.key a b)) = [] :=
      List.filter_eq_nil_iff.mpr fun b _ => by simp [Paired, hm]
    simp [deadlinePass, hm, hnone]
  by_cases hu : a.when.uncertain = true
  · simp [deadlinePass, hu]
  have hkeys : (events.filter fun e => e.claimKey != a.claimKey && targetMatches r.key e &&
      (isAbsoluteTarget r.key || isAbsoluteTarget r.dueFrom || e.subject == a.subject)) =
      events.filter fun b => decide (Paired r.dueFrom r.key a b) := by
    refine List.filter_congr fun b _ => ?_
    rw [Bool.eq_iff_iff]
    simp [Paired, hm]
    grind
  unfold deadlinePass
  simp only [hm, hu, Bool.not_true, Bool.false_eq_true, Bool.or_self, if_false, hkeys]
  cases deadlineOf r a with
  | none => simp
  | some deadline =>
    simp only [Option.bind_some]
    split_ifs with he
    · rfl
    · have hnil : (events.filter fun b => decide (Paired r.dueFrom r.key a b)) = [] := by
        simpa using he
      simp [hnil]

theorem deadlinePasses_eq (hord : ∀ e ∈ events, e.when.Ordered) (r : DeadlineRule) :
    events.flatMap (deadlinePass events none r) =
      (pairsWhere events r.Fails).filterMap fun p =>
        (deadlineOf r p.1).map (deadlineViolation r p.1 p.2) := by
  classical
  have hflat : events.flatMap (deadlinePass events none r) =
      (pairsWhere events (Paired r.dueFrom r.key)).filterMap fun p =>
        if p.1.when.uncertain then none
        else (deadlineOf r p.1).bind fun deadline => deadlineCheck r deadline p.1 p.2 := by
    rw [pairsWhere_eq_flatMap, List.filterMap_flatMap]
    refine List.flatMap_congr fun a _ => ?_
    rw [deadlinePass_none, List.filterMap_map]
    rfl
  rw [hflat]
  refine filterMap_pairsWhere (P := Paired r.dueFrom r.key)
    (Q := fun a b => Judged a b ∧ Always (fun d e => d.day + r.withinDays < e.day) a b)
    fun a ha b hb _ x => ?_
  by_cases hu : a.when.uncertain = true
  · simp [hu, Judged]
  · have hu : a.when.uncertain = false := by simpa using hu
    simp only [hu, Bool.false_eq_true, if_false]
    cases hd : deadlineOf r a with
    | none => simp
    | some deadline =>
      rw [Option.bind_some, deadlineCheck_eq_some (hord a ha) (hord b hb) hu hd,
        Option.map_some, Option.some.injEq]

omit [Unicode] in
theorem sortEvents_perm (events : List ChronoEvent) : (sortEvents events).Perm events :=
  List.perm_insertionSort _ _

omit [Unicode] in
theorem sortEvents_strict (hk : (events.map (·.claimKey)).Nodup) :
    (sortEvents events).Pairwise fun a b => a.sortKey < b.sortKey := by
  have hle : (sortEvents events).Pairwise fun a b => a.sortKey ≤ b.sortKey :=
    List.pairwise_insertionSort (fun a b : ChronoEvent => a.sortKey ≤ b.sortKey) events
  have hne : (sortEvents events).Pairwise fun a b => a.claimKey ≠ b.claimKey := by
    have hnodup := (((sortEvents_perm events).map (·.claimKey)).nodup_iff).mpr hk
    exact List.pairwise_map.mp hnodup
  refine hle.imp₂ (fun a b hle hne => lt_of_le_of_ne hle fun he => hne ?_) hne
  have hsk : (a.subject, a.key) = (b.subject, b.key) := he
  simp only [Prod.mk.injEq] at hsk
  simp [ChronoEvent.claimKey, hsk]

/-- Evaluation of a sorted timeline with distinct claim keys, without a clock. -/
theorem evaluate_eq (hk : (events.map (·.claimKey)).Nodup)
    (hord : ∀ e ∈ events, e.when.Ordered) (rules : ChronologyRules) :
    evaluate events rules none = certainViolations (sortEvents events) rules := by
  have hp := sortEvents_perm events
  have hord' : ∀ e ∈ sortEvents events, e.when.Ordered := fun e he => hord e (hp.mem_iff.mp he)
  have hk' : ((sortEvents events).map (·.claimKey)).Nodup :=
    ((hp.map (·.claimKey)).nodup_iff).mpr hk
  unfold evaluate certainViolations
  simp only [orderPass_eq hord', containsPass_eq hord', durationPass_eq hord',
    overlapPass_eq hord' (sortEvents_strict hk) hk', deadlinePasses_eq hord']

theorem certainViolations_perm {events events' : List ChronoEvent} (h : events.Perm events')
    (rules : ChronologyRules) :
    (certainViolations events rules).Perm (certainViolations events' rules) := by
  have hpairs := pairsWhere_perm h
  unfold certainViolations
  refine List.Perm.append (List.Perm.append (List.Perm.append (List.Perm.append ?_ ?_) ?_) ?_) ?_
  · exact List.Perm.flatMap_left _ fun r _ => (hpairs _).map _
  · exact List.Perm.flatMap_left _ fun r _ => (hpairs _).map _
  · exact List.Perm.flatMap_left _ fun r _ => (hpairs _).map _
  · exact List.Perm.flatMap_left _ fun r _ => (hpairs _).filterMap _
  · exact List.Perm.flatMap_left _ fun r _ => (hpairs _).map _

/-- Evaluation is sound and complete for certainty: with distinct claim keys and proper
intervals it files, in some order, one violation for each rule and each pair of events
that fails it under every choice of days. -/
theorem evaluate_files_exactly_certain (events : List ChronoEvent) (rules : ChronologyRules)
    (hk : (events.map (·.claimKey)).Nodup) (hord : ∀ e ∈ events, e.when.Ordered) :
    (evaluate events rules none).Perm (certainViolations events rules) := by
  rw [evaluate_eq hk hord]
  exact certainViolations_perm (sortEvents_perm events) rules

end

/-- A candidate event of one subject. -/
def spanEvent (key : String) (start stop : NaiveDate) (precision : Precision) : ChronoEvent where
  subject := "trip"
  key := key
  value := ""
  when := { start := start, stop := stop, precision := precision, uncertain := false }
  claimId := none
  origin := .candidate

section
attribute [local instance] asciiUnicode

/-- An order rule over two disjoint years, the later one named first. -/
theorem evaluate_files_reversed_years :
    let events := [spanEvent "from_date" ⟨366, by decide⟩ ⟨730, by decide⟩ .year,
      spanEvent "to_date" ⟨1, by decide⟩ ⟨365, by decide⟩ .year]
    let rules : ChronologyRules := { order := [⟨"from_date", "to_date", "block"⟩] }
    (evaluate events rules none).Perm (certainViolations events rules) ∧
      (evaluate events rules none).length = 1 := by
  refine ⟨evaluate_files_exactly_certain _ _ (by decide) ?_, by decide⟩
  simp [spanEvent, When.Ordered, NaiveDate.le_iff]

/-- Two places where filing and "violated by every choice of days" part: bounds that
contradict each other leave no elapsed time allowed, yet neither bound alone is certainly
missed; and two day-precise spans that share a day are filed although other choices of
days avoid each other. -/
theorem evaluate_differs_from_every_choice :
    let a := spanEvent "from_date" ⟨1, by decide⟩ ⟨365, by decide⟩ .year
    let b := spanEvent "to_date" ⟨1, by decide⟩ ⟨365, by decide⟩ .year
    let rule : DurationRule := ⟨"from_date", "to_date", some 10, some 5, "block"⟩
    let c := spanEvent "from_date" ⟨1, by decide⟩ ⟨3, by decide⟩ .day
    let d := spanEvent "to_date" ⟨2, by decide⟩ ⟨4, by decide⟩ .day
    let overlap : OverlapRule := ⟨"from_date", "to_date", "block"⟩
    (Paired rule.start rule.stop a b ∧ Judged a b ∧
      Always (fun x y => 5 < y.day - x.day ∨ y.day - x.day < 10) a b ∧
      evaluate [a, b] { durations := [rule] } none = []) ∧
    (evaluate [c, d] { forbidOverlap := [overlap] } none).length = 1 ∧
      ¬Always (fun x y => x = y) c d := by
  refine ⟨⟨?_, ?_, ?_, rfl⟩, by decide, ?_⟩
  · unfold Paired
    decide
  · unfold Judged
    decide
  · intro x _ y _
    omega
  · intro h
    have hne := h ⟨1, by decide⟩ ⟨by decide, by decide⟩ ⟨4, by decide⟩ ⟨by decide, by decide⟩
    simp at hne

end
end Munarium

import Munarium.Std.TsQuery
import Mathlib.Data.Finset.Card
import Mathlib.Data.List.Sublists

/-! The lexical candidate predicate of a collection: its stop terms are dropped from the lexemes of
the query, and the rest is asked for one by one or in pairs. -/
namespace Munarium

/-- The pairs of two places of a list, in order. -/
def orderedPairs {α : Type*} : List α → List (α × α)
  | [] => []
  | a :: rest => rest.map (fun b => (a, b)) ++ orderedPairs rest

def pairsTsquery (lexemes : List String) : Option String :=
  let lexemes := (lexemes.map trim).filter (· ≠ "")
  if lexemes.length < 2 then none
  else some (join " | " ((orderedPairs lexemes).map fun p => anded p.1 p.2))

/-- `str::trim_matches` with one character. -/
def trimMatches (c : Char) (s : String) : String :=
  String.ofList ((((s.toList.dropWhile (· == c)).reverse).dropWhile (· == c)).reverse)

/-- What is left without the stop terms, or everything where nothing is left. -/
def keptBy {α : Type*} (isStop : α → Bool) (l : List α) : List α :=
  let kept := l.filter fun a => !isStop a
  if kept.isEmpty then l else kept

/-- The text of a lexeme without the quotes at its ends is a stop term. -/
def isStopLexeme (stop : Finset String) (lexeme : String) : Bool :=
  decide (trimMatches '\u0027' lexeme ∈ stop)

def keptLexemes (lexemes : List String) (stop : Finset String) : List String :=
  keptBy (isStopLexeme stop) lexemes

def candidateTsquery (lexemes : List String) (stop : Finset String) (minimumShouldMatch : ℕ) :
    Option String :=
  let kept := keptLexemes lexemes stop
  if kept.isEmpty then none
  else
    let dropped := kept.length < lexemes.length
    match if 2 ≤ minimumShouldMatch then pairsTsquery kept else none with
    | some pairs => some pairs
    | none => if dropped then some (join " | " kept) else none

/-- The predicate that the index evaluates: the candidate predicate, or the `or` of all lexemes. -/
def effectiveTsquery (lexemes : List String) (stop : Finset String) (minimumShouldMatch : ℕ) :
    String :=
  (candidateTsquery lexemes stop minimumShouldMatch).getD (join " | " lexemes)

example : candidateTsquery ["'citi'", "'georg'", "'washington'", "'visit'"] {"washington"} 2 =
    some "('citi' & 'georg') | ('citi' & 'visit') | ('georg' & 'visit')" := by decide

/-- The lexemes outside the stop set, or all of them where none is outside. -/
def keptValues (values : List String) (stop : Finset String) : List String :=
  keptBy (fun v => decide (v ∈ stop)) values

/-- The lexemes that the code keeps. -/
def codeKept (values : List String) (stop : Finset String) : List String :=
  keptBy (fun v => isStopLexeme stop (quoteLexeme v)) values

/-- The lexemes of a query, of which none is empty. -/
structure QueryLexemes where
  values : List String
  nonempty : ∀ v ∈ values, v ≠ ""

/-- The lexemes as the database prints them. -/
def QueryLexemes.quoted (l : QueryLexemes) : List String := l.values.map quoteLexeme

/-- A chunk meets the predicate of a query that has lexemes exactly if it has enough of the kept
ones, and the predicate is written. -/
def MeansAsked (l : QueryLexemes) (stop : Finset String) (minimumShouldMatch : ℕ) : Prop :=
  l.values ≠ [] →
    effectiveTsquery l.quoted stop minimumShouldMatch ≠ "" ∧
    ∃ q, readTsquery (effectiveTsquery l.quoted stop minimumShouldMatch) = some q ∧
      ∀ s : Finset String, q.Matches s ↔
        min minimumShouldMatch (keptValues l.values stop).toFinset.card ≤
          ((keptValues l.values stop).toFinset ∩ s).card

section Text

theorem trim_quoteLexeme (v : String) : trim (quoteLexeme v) = quoteLexeme v := by
  have hquote : isWhitespace '\u0027' = false := by decide
  unfold trim trimChars
  rw [toList_quoteLexeme]
  simp [hquote, quoteLexeme]

theorem quoteLexeme_ne_empty (v : String) : quoteLexeme v ≠ "" := by
  intro h
  have hlist := congrArg String.toList h
  rw [toList_quoteLexeme] at hlist
  simp at hlist

theorem orderedPairs_map {α β : Type*} (f : α → β) (l : List α) :
    orderedPairs (l.map f) = (orderedPairs l).map fun p => (f p.1, f p.2) := by
  induction l with
  | nil => rfl
  | cons a rest ih => simp [orderedPairs, ih]

theorem pairsTsquery_quoted (values : List String) :
    pairsTsquery (values.map quoteLexeme) = if values.length < 2 then none
      else some (join " | " ((orderedPairs values).map fun p =>
        anded (quoteLexeme p.1) (quoteLexeme p.2))) := by
  have htrim : ((values.map quoteLexeme).map trim).filter (· ≠ "") = values.map quoteLexeme := by
    rw [List.map_map, show trim ∘ quoteLexeme = quoteLexeme from funext trim_quoteLexeme,
      List.filter_eq_self]
    intro l hl
    obtain ⟨v, -, rfl⟩ := List.mem_map.mp hl
    simpa using quoteLexeme_ne_empty v
  unfold pairsTsquery
  rw [htrim]
  dsimp only
  rw [List.length_map, orderedPairs_map, List.map_map]
  rfl

theorem keptBy_map {α β : Type*} (isStop : β → Bool) (f : α → β) (l : List α) :
    keptBy isStop (l.map f) = (keptBy (fun a => isStop (f a)) l).map f := by
  unfold keptBy
  rw [List.filter_map]
  dsimp only [Function.comp_def]
  rw [List.isEmpty_map]
  split_ifs <;> rfl

theorem keptBy_eq_nil {α : Type*} {isStop : α → Bool} {l : List α} :
    keptBy isStop l = [] ↔ l = [] := by
  unfold keptBy
  dsimp only
  split_ifs with h
  · rfl
  · rw [List.isEmpty_iff] at h
    simp only [h, false_iff]
    rintro rfl
    exact h rfl

/-- Nothing is dropped where as much is kept as there was. -/
theorem keptBy_of_length {α : Type*} {isStop : α → Bool} {l : List α}
    (h : ¬ (keptBy isStop l).length < l.length) : keptBy isStop l = l := by
  unfold keptBy at h ⊢
  dsimp only at h ⊢
  split_ifs at h ⊢
  · rfl
  · exact List.Sublist.eq_of_length_le List.filter_sublist (not_lt.mp h)

theorem mem_of_mem_keptBy {α : Type*} {isStop : α → Bool} {l : List α} {a : α}
    (h : a ∈ keptBy isStop l) : a ∈ l := by
  unfold keptBy at h
  dsimp only at h
  split_ifs at h
  · exact h
  · exact (List.mem_filter.mp h).1

/-- The operands that the effective predicate joins. -/
def effectiveOperands (kept : List String) (minimumShouldMatch : ℕ) : List (String × TsQuery) :=
  if 2 ≤ minimumShouldMatch ∧ 2 ≤ kept.length then
    (orderedPairs kept).map fun p =>
      (anded (quoteLexeme p.1) (quoteLexeme p.2), .and (.lexeme p.1) (.lexeme p.2))
  else kept.map fun v => (quoteLexeme v, .lexeme v)

theorem effectiveTsquery_quoted {values : List String} {stop : Finset String}
    {minimumShouldMatch : ℕ} (hne : values ≠ []) :
    effectiveTsquery (values.map quoteLexeme) stop minimumShouldMatch =
      join " | " ((effectiveOperands (codeKept values stop) minimumShouldMatch).map Prod.fst) := by
  have hkept : ((codeKept values stop).map quoteLexeme).isEmpty = false := by
    rw [List.isEmpty_map, List.isEmpty_eq_false_iff, ne_eq, codeKept, keptBy_eq_nil]
    exact hne
  unfold effectiveTsquery candidateTsquery effectiveOperands
  dsimp only
  rw [keptLexemes, keptBy_map, ← codeKept, hkept, pairsTsquery_quoted, List.length_map,
    List.length_map]
  simp only [Bool.false_eq_true, if_false]
  by_cases hpairs : 2 ≤ minimumShouldMatch ∧ 2 ≤ (codeKept values stop).length
  · rw [if_pos hpairs, if_pos hpairs.1, if_neg (by omega), List.map_map]
    rfl
  · rw [if_neg hpairs]
    have hnone : (if 2 ≤ minimumShouldMatch then
        if (codeKept values stop).length < 2 then none
        else some (join " | " ((orderedPairs (codeKept values stop)).map fun p =>
          anded (quoteLexeme p.1) (quoteLexeme p.2))) else none) = none := by
      split_ifs
      · rfl
      · omega
      · rfl
    rw [hnone]
    dsimp only
    rw [List.map_map]
    split_ifs with hdropped
    · rfl
    · rw [codeKept, keptBy_of_length hdropped]
      rfl

end Text

section Counting
variable {α : Type*} [DecidableEq α]

theorem exists_orderedPair {l : List α} {s : Finset α} :
    (∃ p ∈ orderedPairs l, p.1 ∈ s ∧ p.2 ∈ s) ↔ 2 ≤ (l.filter (· ∈ s)).length := by
  induction l with
  | nil => simp [orderedPairs]
  | cons a rest ih =>
    have hsplit : (∃ p ∈ orderedPairs (a :: rest), p.1 ∈ s ∧ p.2 ∈ s) ↔
        (a ∈ s ∧ ∃ b ∈ rest, b ∈ s) ∨ ∃ p ∈ orderedPairs rest, p.1 ∈ s ∧ p.2 ∈ s := by
      simp only [orderedPairs, List.mem_append, List.mem_map]
      constructor
      · rintro ⟨p, ⟨b, hb, rfl⟩ | hp, h1, h2⟩
        · exact .inl ⟨h1, b, hb, h2⟩
        · exact .inr ⟨p, hp, h1, h2⟩
      · rintro (⟨ha, b, hb, hbs⟩ | ⟨p, hp, h1, h2⟩)
        · exact ⟨(a, b), .inl ⟨b, hb, rfl⟩, ha, hbs⟩
        · exact ⟨p, .inr hp, h1, h2⟩
    have hsome : (∃ b ∈ rest, b ∈ s) ↔ 1 ≤ (rest.filter (· ∈ s)).length := by
      rw [Nat.one_le_iff_ne_zero, ne_eq, List.length_eq_zero_iff, List.filter_eq_nil_iff]
      simp
    rw [hsplit, ih, hsome]
    by_cases ha : a ∈ s
    · rw [List.filter_cons_of_pos (by simpa using ha), List.length_cons]
      simp only [ha, true_and]
      omega
    · rw [List.filter_cons_of_neg (by simpa using ha)]
      simp [ha]

/-- Two places of a list lie in a set exactly if two of its values do or a repeated one does. -/
theorem two_le_length_filter {l : List α} {s : Finset α} :
    2 ≤ (l.filter (· ∈ s)).length ↔
      2 ≤ (l.toFinset ∩ s).card ∨ ∃ v ∈ s, 2 ≤ l.count v := by
  have hset : (l.filter (· ∈ s)).toFinset = l.toFinset ∩ s := by
    ext v
    simp
  have hcount {v : α} (hv : v ∈ s) : (l.filter (· ∈ s)).count v = l.count v :=
    List.count_filter (by simpa using hv)
  rw [← hset]
  constructor
  · intro hlen
    by_cases hnodup : (l.filter (· ∈ s)).Nodup
    · rw [List.toFinset_card_of_nodup hnodup]
      exact .inl hlen
    · rw [List.nodup_iff_count_le_one] at hnodup
      obtain ⟨v, hv⟩ := not_forall.mp hnodup
      have hmem : v ∈ l.filter (· ∈ s) := List.count_pos_iff.mp (by omega)
      have hvs : v ∈ s := by simpa using (List.mem_filter.mp hmem).2
      rw [hcount hvs] at hv
      exact .inr ⟨v, hvs, by omega⟩
  · rintro (hcard | ⟨v, hv, hrepeated⟩)
    · exact hcard.trans (List.toFinset_card_le _)
    · rw [← hcount hv] at hrepeated
      exact hrepeated.trans List.count_le_length

theorem meets_one_iff {a b : Finset α} (hb : b.Nonempty) :
    (∀ s : Finset α, (∃ v ∈ a, v ∈ s) ↔ min 1 b.card ≤ (b ∩ s).card) ↔ a = b := by
  have hmin : min 1 b.card = 1 := min_eq_left hb.card_pos
  have hmeets (s : Finset α) : 1 ≤ (b ∩ s).card ↔ ∃ v ∈ b, v ∈ s := by
    rw [Nat.one_le_iff_ne_zero, ← Nat.pos_iff_ne_zero, Finset.card_pos]
    simp [Finset.Nonempty]
  simp only [hmin, hmeets]
  constructor
  · intro h
    ext v
    simpa using h {v}
  · rintro rfl s
    rfl

/-- Two values of a set lie in another. -/
theorem two_le_card_inter {a s : Finset α} :
    2 ≤ (a ∩ s).card ↔ ∃ x y, x ≠ y ∧ (x ∈ a ∧ x ∈ s) ∧ y ∈ a ∧ y ∈ s := by
  rw [← Nat.lt_iff_add_one_le, Finset.one_lt_card]
  constructor
  · rintro ⟨x, hx, y, hy, hne⟩
    exact ⟨x, y, hne, Finset.mem_inter.mp hx, Finset.mem_inter.mp hy⟩
  · rintro ⟨x, y, hne, hx, hy⟩
    exact ⟨x, Finset.mem_inter.mpr hx, y, Finset.mem_inter.mpr hy, hne⟩

theorem not_two_singleton {a : Finset α} {x : α} : ¬ 2 ≤ (a ∩ {x}).card := by
  rw [two_le_card_inter]
  rintro ⟨u, v, hne, ⟨-, hu⟩, -, hv⟩
  rw [Finset.mem_singleton] at hu hv
  exact hne (hu.trans hv.symm)

theorem one_le_card_singleton {b : α} {s : Finset α} : 1 ≤ ({b} ∩ s).card ↔ b ∈ s := by
  by_cases hb : b ∈ s <;> simp [hb]

/-- What a pair of places asks for is what two of the values ask for. -/
def MeetsTwo (l : List α) (s : Finset α) : Prop :=
  if 2 ≤ l.length then 2 ≤ (l.toFinset ∩ s).card ∨ ∃ v ∈ s, 2 ≤ l.count v else ∃ v ∈ l, v ∈ s

theorem meetsTwo_singleton {l : List α} (hlen : 2 ≤ l.length) {x : α} :
    MeetsTwo l {x} ↔ 2 ≤ l.count x := by
  unfold MeetsTwo
  rw [if_pos hlen]
  simp [not_two_singleton]

/-- A single asked value is asked for by pairs if it alone is repeated, beside one other value. -/
theorem meetsTwo_one_iff {l : List α} (hlen : 2 ≤ l.length) {b : α} :
    (∀ s, MeetsTwo l s ↔ b ∈ s) ↔ ∃ c, l.toFinset = {b, c} ∧ ∀ v, 2 ≤ l.count v ↔ v = b := by
  constructor
  · intro h
    have hrepeated (v : α) : 2 ≤ l.count v ↔ v = b := by
      rw [← meetsTwo_singleton hlen, h, Finset.mem_singleton, eq_comm]
    have hb : b ∈ l.toFinset :=
      List.mem_toFinset.mpr (List.count_pos_iff.mp (by have := (hrepeated b).mpr rfl; omega))
    have hother (x y : α) (hx : x ∈ l.toFinset) (hy : y ∈ l.toFinset) (hxb : x ≠ b)
        (hyb : y ≠ b) : x = y := by
      by_contra hne
      have hmeets : MeetsTwo l {x, y} := by
        unfold MeetsTwo
        rw [if_pos hlen]
        exact .inl (two_le_card_inter.mpr ⟨x, y, hne, ⟨hx, by simp⟩, hy, by simp⟩)
      have hmem := (h {x, y}).mp hmeets
      rw [Finset.mem_insert, Finset.mem_singleton] at hmem
      rcases hmem with rfl | rfl
      · exact hxb rfl
      · exact hyb rfl
    by_cases hmore : ∃ c ∈ l.toFinset, c ≠ b
    · obtain ⟨c, hc, hcb⟩ := hmore
      refine ⟨c, ?_, hrepeated⟩
      ext x
      rw [Finset.mem_insert, Finset.mem_singleton]
      constructor
      · intro hx
        by_cases hxb : x = b
        · exact .inl hxb
        · exact .inr (hother x c hx hc hxb hcb)
      · rintro (rfl | rfl)
        · exact hb
        · exact hc
    · refine ⟨b, ?_, hrepeated⟩
      ext x
      rw [Finset.mem_insert, Finset.mem_singleton, or_self]
      constructor
      · intro hx
        by_contra hxb
        exact hmore ⟨x, hx, hxb⟩
      · rintro rfl
        exact hb
  · rintro ⟨c, hset, hrepeated⟩ s
    unfold MeetsTwo
    rw [if_pos hlen, hset, two_le_card_inter]
    simp only [hrepeated, exists_eq_right]
    constructor
    · rintro (⟨x, y, hne, ⟨hx, hxs⟩, hy, hys⟩ | hb)
      · rw [Finset.mem_insert, Finset.mem_singleton] at hx hy
        rcases hx with rfl | rfl
        · exact hxs
        · rcases hy with rfl | rfl
          · exact hys
          · exact absurd rfl hne
      · exact hb
    · exact .inr

/-- Two asked values are asked for by pairs exactly if these are the values and none is
repeated. -/
theorem meetsTwo_two_iff {l : List α} (hlen : 2 ≤ l.length) {b : Finset α} (hb : 2 ≤ b.card) :
    (∀ s, MeetsTwo l s ↔ 2 ≤ (b ∩ s).card) ↔ l.toFinset = b ∧ ∀ v, ¬ 2 ≤ l.count v := by
  constructor
  · intro h
    have hnone (v : α) : ¬ 2 ≤ l.count v := by
      rw [← meetsTwo_singleton hlen, h]
      exact not_two_singleton
    have hpair (s : Finset α) : 2 ≤ (l.toFinset ∩ s).card ↔ 2 ≤ (b ∩ s).card := by
      rw [← h]
      unfold MeetsTwo
      rw [if_pos hlen]
      simp [hnone]
    have hl : 2 ≤ l.toFinset.card := by
      rw [List.toFinset_card_of_nodup (List.nodup_iff_count_le_one.mpr fun v => by
        have := hnone v
        omega)]
      exact hlen
    have hsub {a a' : Finset α} (ha : 2 ≤ a.card)
        (hto : ∀ s, 2 ≤ (a ∩ s).card → 2 ≤ (a' ∩ s).card) : a ⊆ a' := by
      intro x hx
      obtain ⟨y, hy, hne⟩ := Finset.exists_mem_ne (show 1 < a.card by omega) x
      have hmeets : 2 ≤ (a ∩ {x, y}).card :=
        two_le_card_inter.mpr ⟨x, y, hne.symm, ⟨hx, by simp⟩, hy, by simp⟩
      obtain ⟨u, v, huv, ⟨hu, hus⟩, hv, hvs⟩ := two_le_card_inter.mp (hto _ hmeets)
      rw [Finset.mem_insert, Finset.mem_singleton] at hus hvs
      rcases hus with rfl | rfl
      · exact hu
      · rcases hvs with rfl | rfl
        · exact hv
        · exact absurd rfl huv
    exact ⟨(hsub hl fun s => (hpair s).mp).antisymm (hsub hb fun s => (hpair s).mpr), hnone⟩
  · rintro ⟨rfl, hnone⟩ s
    unfold MeetsTwo
    rw [if_pos hlen]
    simp [hnone]

theorem meetsTwo_short {a : α} {s : Finset α} : MeetsTwo [a] s ↔ a ∈ s := by
  simp [MeetsTwo]

theorem count_of_sole_value {l : List α} {a : α} (h : l.toFinset = {a}) : l.count a = l.length := by
  rw [List.count_eq_length]
  intro v hv
  rw [← List.mem_toFinset, h, Finset.mem_singleton] at hv
  exact hv.symm

/-- When pairs of places ask for two of a set of values, or for its only one. -/
theorem meets_two_iff {l : List α} (hl : l ≠ []) {b : Finset α} (hb : b.Nonempty) :
    (∀ s, MeetsTwo l s ↔ min 2 b.card ≤ (b ∩ s).card) ↔
      (l.toFinset = b ∧ ∀ v, 2 ≤ l.count v → l.toFinset = {v}) ∨
        ∃ v c, b = {v} ∧ l.toFinset = {v, c} ∧ ∀ u, 2 ≤ l.count u ↔ u = v := by
  have hone (hcard : ¬ 2 ≤ b.card) : ∃ x, b = {x} := by
    apply Finset.card_eq_one.mp
    have := hb.card_pos
    omega
  by_cases hlen : 2 ≤ l.length
  · by_cases hcard : 2 ≤ b.card
    · rw [min_eq_left hcard, meetsTwo_two_iff hlen hcard]
      constructor
      · rintro ⟨heq, hnone⟩
        exact .inl ⟨heq, fun v hv => absurd hv (hnone v)⟩
      · rintro (⟨heq, hsole⟩ | ⟨v, c, rfl, -⟩)
        · refine ⟨heq, fun v hv => ?_⟩
          rw [← heq, hsole v hv, Finset.card_singleton] at hcard
          omega
        · rw [Finset.card_singleton] at hcard
          omega
    · obtain ⟨x, rfl⟩ := hone hcard
      simp only [Finset.card_singleton, show min 2 1 = 1 from rfl, one_le_card_singleton]
      rw [meetsTwo_one_iff hlen]
      constructor
      · rintro ⟨c, hset, hrepeated⟩
        exact .inr ⟨x, c, rfl, hset, hrepeated⟩
      · rintro (⟨heq, -⟩ | ⟨v, c, hv, hset, hrepeated⟩)
        · refine ⟨x, by simpa using heq, fun v => ⟨fun hv => ?_, ?_⟩⟩
          · have hmem : v ∈ l.toFinset := List.mem_toFinset.mpr (List.count_pos_iff.mp (by omega))
            rwa [heq, Finset.mem_singleton] at hmem
          · rintro rfl
            rw [count_of_sole_value heq]
            exact hlen
        · obtain rfl := Finset.singleton_injective hv
          exact ⟨c, hset, hrepeated⟩
  · obtain ⟨a, rfl⟩ : ∃ a, l = [a] := by
      apply List.length_eq_one_iff.mp
      have := List.length_pos_iff.mpr hl
      omega
    have hcount (v : α) : ¬ 2 ≤ [a].count v := by
      have := List.count_le_length (a := v) (l := [a])
      simp only [List.length_singleton] at this
      omega
    simp only [meetsTwo_short]
    constructor
    · intro h
      have hmeets := (h {a}).mp (Finset.mem_singleton_self a)
      obtain ⟨x, rfl⟩ := hone fun hcard => by
        rw [min_eq_left hcard] at hmeets
        exact not_two_singleton hmeets
      simp only [Finset.card_singleton, show min 2 1 = 1 from rfl, one_le_card_singleton] at h
      have hx : x = a := by simpa using (h {a}).mp (Finset.mem_singleton_self a)
      exact .inl ⟨by simp [hx], fun v hv => absurd hv (hcount v)⟩
    · rintro (⟨rfl, -⟩ | ⟨v, c, -, -, hrepeated⟩) s
      · rw [show [a].toFinset = {a} from rfl, Finset.card_singleton, show min 2 1 = 1 from rfl,
          one_le_card_singleton]
      · exact absurd ((hrepeated v).mpr rfl) (hcount v)

end Counting
section Meaning
variable {l : QueryLexemes} {stop : Finset String} {minimumShouldMatch : ℕ}

/-- At the values that a pair asks for, two of the asked ones or the only one. -/
def PairsMeanTwo (kept asked : List String) : Prop :=
  (kept.toFinset = asked.toFinset ∧ ∀ v, 2 ≤ kept.count v → kept.toFinset = {v}) ∨
    ∃ v c, asked.toFinset = {v} ∧ kept.toFinset = {v, c} ∧ ∀ u, 2 ≤ kept.count u ↔ u = v

theorem mem_orderedPairs {α : Type*} {l : List α} {p : α × α} (h : p ∈ orderedPairs l) :
    p.1 ∈ l ∧ p.2 ∈ l := by
  induction l with
  | nil => cases h
  | cons a rest ih =>
    rcases List.mem_append.mp h with h | h
    · obtain ⟨b, hb, rfl⟩ := List.mem_map.mp h
      exact ⟨List.mem_cons_self, List.mem_cons_of_mem _ hb⟩
    · exact ⟨List.mem_cons_of_mem _ (ih h).1, List.mem_cons_of_mem _ (ih h).2⟩

theorem effectiveOperands_matches {kept : List String} {s : Finset String} :
    (∃ op ∈ effectiveOperands kept minimumShouldMatch, op.2.Matches s) ↔
      if 2 ≤ minimumShouldMatch then MeetsTwo kept s else ∃ v ∈ kept, v ∈ s := by
  have hsingle : (∃ op ∈ kept.map fun v => (quoteLexeme v, TsQuery.lexeme v), op.2.Matches s) ↔
      ∃ v ∈ kept, v ∈ s := by
    simp [TsQuery.Matches]
  unfold effectiveOperands MeetsTwo
  by_cases hm : 2 ≤ minimumShouldMatch
  · by_cases hlen : 2 ≤ kept.length
    · rw [if_pos ⟨hm, hlen⟩, if_pos hm, if_pos hlen, ← two_le_length_filter, ← exists_orderedPair]
      simp [TsQuery.Matches]
    · rw [if_neg (fun h => hlen h.2), if_pos hm, if_neg hlen]
      exact hsingle
  · rw [if_neg (fun h => hm h.1), if_neg hm]
    exact hsingle

theorem effectiveOperands_ne_nil {kept : List String} (hkept : kept ≠ []) :
    effectiveOperands kept minimumShouldMatch ≠ [] := by
  unfold effectiveOperands
  split_ifs with hpairs
  · obtain ⟨a, rest, rfl⟩ := List.exists_cons_of_ne_nil hkept
    cases rest with
    | nil => simp at hpairs
    | cons b rest => simp [orderedPairs]
  · simpa using hkept

variable (stop minimumShouldMatch) in
/-- The effective predicate of a query with lexemes is read as the `or` of its operands. -/
theorem effectiveTsquery_read (hne : l.values ≠ []) :
    ∃ q, readTsquery (effectiveTsquery l.quoted stop minimumShouldMatch) = some q ∧
      ∀ s, q.Matches s ↔ if 2 ≤ minimumShouldMatch then MeetsTwo (codeKept l.values stop) s
        else ∃ v ∈ codeKept l.values stop, v ∈ s := by
  have hkept : codeKept l.values stop ≠ [] := by
    rw [codeKept, ne_eq, keptBy_eq_nil]
    exact hne
  have hvalue {v : String} (hv : v ∈ codeKept l.values stop) : v ≠ "" :=
    l.nonempty v (mem_of_mem_keptBy hv)
  have hsome : effectiveOperands (codeKept l.values stop) minimumShouldMatch ≠ [] :=
    effectiveOperands_ne_nil hkept
  obtain ⟨q, hread, hmatches⟩ := readTsquery_join hsome (by
    intro op hop
    unfold effectiveOperands at hop
    split_ifs at hop
    · obtain ⟨p, hp, rfl⟩ := List.mem_map.mp hop
      obtain ⟨h1, h2⟩ := mem_orderedPairs hp
      exact operand_anded (hvalue h1) (hvalue h2)
    · obtain ⟨v, hv, rfl⟩ := List.mem_map.mp hop
      exact operand_quoteLexeme (hvalue hv))
  refine ⟨q, ?_, fun s => (hmatches s).trans effectiveOperands_matches⟩
  rw [QueryLexemes.quoted, effectiveTsquery_quoted hne]
  exact hread

theorem effectiveTsquery_ne_empty (hne : l.values ≠ []) :
    effectiveTsquery l.quoted stop minimumShouldMatch ≠ "" := by
  obtain ⟨q, hread, -⟩ := effectiveTsquery_read stop minimumShouldMatch hne
  have hnone : readTsquery "" = none := by decide
  intro hempty
  rw [hempty, hnone] at hread
  cases hread

theorem meansAsked_iff : MeansAsked l stop minimumShouldMatch ↔ (l.values ≠ [] →
    ∀ s : Finset String, (if 2 ≤ minimumShouldMatch then MeetsTwo (codeKept l.values stop) s
        else ∃ v ∈ codeKept l.values stop, v ∈ s) ↔
      min minimumShouldMatch (keptValues l.values stop).toFinset.card ≤
        ((keptValues l.values stop).toFinset ∩ s).card) := by
  unfold MeansAsked
  refine forall_congr' fun hne => ?_
  obtain ⟨q, hread, hmatches⟩ := effectiveTsquery_read stop minimumShouldMatch hne
  constructor
  · rintro ⟨-, q', hread', hasked⟩ s
    obtain rfl := Option.some.inj (hread'.symm.trans hread)
    rw [← hmatches s, hasked s]
  · intro h
    exact ⟨effectiveTsquery_ne_empty hne, q, hread, fun s => (hmatches s).trans (h s)⟩

def repeatedLexemes : QueryLexemes := ⟨["paper", "paper", "mill"], by decide⟩

end Meaning
end Munarium

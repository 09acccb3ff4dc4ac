import Munarium.Retrieval.QueryNumbers
import Mathlib.Data.Finset.Card

/-! When a lookup key is a fragment of a longer number. A turn of the scan ends at the first
character that its own arm does not read, whatever number goes on there. -/
namespace Munarium

def isTokenChar (c : Char) (after : List Char) : Bool :=
  c.isAlphanum || c == ',' && startsGroup after

/-- A maximal run of letters, digits and group commas. -/
structure IsToken (query before token after : List Char) : Prop where
  split : query = before ++ (token ++ after)
  nonempty : token ≠ []
  inside : ∀ u c v, token = u ++ c :: v → isTokenChar c (v ++ after) = true
  left : ∀ u c, before = u ++ [c] → isTokenChar c (token ++ after) = false
  right : ∀ c v, after = c :: v → isTokenChar c v = false

def AfterPoint (before : List Char) : Prop := ∃ u d, before = u ++ [d, '.'] ∧ d.isDigit = true

def OnlyNumber (number : List Char) : Prop := ∀ c ∈ number, c.isDigit = true ∨ c = ','

/-- A number by itself, no part of a decimal, or one after a short prefix. -/
inductive Qualifies (before token after : List Char) : Prop
  | bare (hnumber : OnlyNumber token) (hinteger : startsDecimal after = false)
      (hfraction : ¬ (AfterPoint before ∧ ∃ c ∈ token.head?, c.isDigit = true)) :
      Qualifies before token after
  | prefixed {letters number : List Char} (htoken : token = letters ++ number)
      (hne : letters ≠ []) (hletters : ∀ c ∈ letters, c.isAlpha = true)
      (hshort : letters.length ≤ 4) (hnumber : OnlyNumber number) : Qualifies before token after

/-- The complete digits of a number of the query. -/
def WholeNumber (query digits : List Char) : Prop :=
  ∃ before token after, IsToken query before token after ∧ Qualifies before token after ∧
    token.filter Char.isDigit = digits

/-- A few distinct long numbers, no dates, each of them whole. -/
structure NumbersWhole (query : String) : Prop where
  few : (numberQueryDigits query).length ≤ 8
  distinct : (numberQueryDigits query).Nodup
  long : ∀ d ∈ numberQueryDigits query, (∀ c ∈ d.toList, c.isDigit = true) ∧ 5 ≤ d.toList.length
  undated : ∀ d ∈ numberQueryDigits query, d.toList.length = 8 →
    ¬ ['1', '9'] <+: d.toList ∧ ¬ ['2', '0'] <+: d.toList
  whole : ∀ d ∈ numberQueryDigits query, WholeNumber query.toList d.toList

/-- One turn of the scan. -/
def ScanStep (s t : List Char × List Char) : Prop :=
  s.2 ≠ [] ∧ t = (s.1 ++ usedBy s.2 (numberArm s.1 s.2).rest, (numberArm s.1 s.2).rest)

/-- A turn of the scan of a query starts here. -/
def ScanReached (query before rest : List Char) : Prop :=
  Relation.ReflTransGen ScanStep ([], query) (before, rest)

/-- A group comma that belongs to the token of the letter or digit before it. -/
def AfterGroupComma (before after : List Char) : Prop :=
  startsGroup after = true ∧ ∃ u c, before = u ++ [c, ','] ∧ c.isAlphanum = true

/-- Digits that a turn contributes and that are not a whole number: a run that goes on in letters,
in a fraction or behind a group comma, or digits after a prefix that digits precede or groups
follow. -/
inductive FragmentRead (before : List Char) : List Char → List Char → List Char → Prop
  | bare {run rest : List Char} (hstart : ∃ c ∈ run.head?, c.isDigit = true)
      (hrun : IsRun run rest) (hdecimal : startsDecimal rest = false)
      (hbefore : before.getLast?.any Char.isAlpha = false)
      (hlong : ',' ∈ run ∨ 5 ≤ (run.filter Char.isDigit).length)
      (hcut : (∃ c ∈ rest.head?, c.isAlpha = true) ∨ AfterPoint before ∨
        AfterGroupComma before (run ++ rest)) :
      FragmentRead before run rest (run.filter Char.isDigit)
  | prefixed {letters digits rest : List Char} (hne : letters ≠ [])
      (hletters : ∀ c ∈ letters, c.isAlpha = true) (hshort : letters.length ≤ 4)
      (hdigits : ∀ c ∈ digits, c.isDigit = true) (hsome : digits ≠ [])
      (hrest : ∀ c ∈ rest.head?, c.isAlphanum = false)
      (hcut : (∃ c ∈ before.getLast?, c.isDigit = true) ∨
        ∃ cs, rest = ',' :: cs ∧ startsGroup cs = true) :
      FragmentRead before (letters ++ digits) rest digits

/-- A turn that starts here contributes a lookup key. -/
def ReadsKey (query before digits : List Char) : Prop :=
  isLookupKey digits = true ∧ ∃ rest, ScanReached query before rest ∧ rest ≠ [] ∧
    (numberArm before rest).pushed = some digits

/-- Eight other keys are read before this place. -/
def BeyondEight (query before digits : List Char) : Prop :=
  ∃ others : Finset (List Char), others.card = 8 ∧ digits ∉ others ∧ ∀ d ∈ others,
    ∃ b, b.length < before.length ∧ ReadsKey query b d

/-- Every fragment that is read is no lookup key, or it is the number of another token as well, or
too many keys are read before it. -/
def FragmentsHarmless (query : List Char) : Prop :=
  ∀ before used rest digits, ScanReached query before (used ++ rest) →
    FragmentRead before used rest digits → isLookupKey digits = true →
      WholeNumber query digits ∨ BeyondEight query before digits

section Arms
variable {query before used rest run letters digits : List Char} {pushed : Option (List Char)}

theorem isAlpha_of_isDigit {c : Char} (h : c.isDigit = true) : c.isAlpha = false := by
  change (decide (48 ≤ c.val) && decide (c.val ≤ 57)) = true at h
  rw [Bool.and_eq_true, decide_eq_true_eq, decide_eq_true_eq, UInt32.le_iff_toNat_le,
    UInt32.le_iff_toNat_le] at h
  have hle : c.val.toNat ≤ 57 := h.2
  have habove (first : UInt32) (hfirst : 57 < first.toNat) : ¬ first ≤ c.val := by
    rw [UInt32.le_iff_toNat_le]
    omega
  have hupper : c.isUpper = false := decide_eq_false fun hin => habove 65 (by decide) hin.1
  have hlower : c.isLower = false := by
    change (decide (97 ≤ c.val) && decide (c.val ≤ 122)) = false
    rw [decide_eq_false (habove 97 (by decide)), Bool.false_and]
  show (c.isUpper || c.isLower) = false
  rw [hupper, hlower]
  rfl

theorem usedBy_append (used rest : List Char) : usedBy (used ++ rest) rest = used := by
  simp [usedBy]

/-- A turn as the text it uses and the text it leaves. -/
theorem scanStep_iff {t : List Char × List Char} {l : List Char} :
    ScanStep (before, l) t ↔ ∃ used, l = used ++ t.2 ∧ t.1 = before ++ used ∧
      l ≠ [] ∧ t.2 = (numberArm before l).rest := by
  obtain ⟨b, r⟩ := t
  unfold ScanStep
  simp only [Prod.mk.injEq]
  constructor
  · rintro ⟨hl, rfl, rfl⟩
    obtain ⟨used, heq, -⟩ := numberArm_read before hl
    refine ⟨used, heq, ?_, hl, rfl⟩
    congr 1
    have := usedBy_append used (numberArm before l).rest
    rwa [← heq] at this
  · rintro ⟨used, heq, rfl, hl, rfl⟩
    refine ⟨hl, ?_, rfl⟩
    congr 1
    have := usedBy_append used (numberArm before l).rest
    rw [← heq] at this
    exact this.symm

theorem mem_of_getLast?_append {c : Char} {u v : List Char} (hv : v ≠ [])
    (h : c ∈ (u ++ v).getLast?) : c ∈ v := by
  rw [List.getLast?_append_of_ne_nil u hv] at h
  exact List.mem_of_getLast? h

/-- Neither a run of digits nor one of letters goes on where a turn ends. -/
theorem ArmRead.boundary (h : ArmRead before used rest pushed) :
    ∀ c ∈ used.getLast?, ∀ d ∈ rest.head?,
      ¬ (c.isDigit = true ∧ d.isDigit = true) ∧ ¬ (c.isAlpha = true ∧ d.isAlpha = true) := by
  intro c hc d hd
  cases h with
  | number _ hrun _ =>
    have hdigit := hrun.head_rest.1 d hd
    have halpha : c.isAlpha = false := by
      rcases hrun.joined c (List.mem_of_getLast? hc) with hc | rfl
      · exact isAlpha_of_isDigit hc
      · decide
    simp [hdigit, halpha]
  | @decimal run fraction _ _ _ hne hfraction hrest =>
    have hsplit : run ++ '.' :: fraction = (run ++ ['.']) ++ fraction := by simp
    rw [hsplit] at hc
    have halpha := isAlpha_of_isDigit (hfraction c (mem_of_getLast?_append hne hc))
    simp [hrest d hd, halpha]
  | prefixed _ _ _ hdigits hsome hrest =>
    have halpha := isAlpha_of_isDigit (hdigits c (mem_of_getLast?_append hsome hc))
    simp [hrest d hd, halpha]
  | word _ hletters hrest =>
    have hdigit : c.isDigit = false := by
      by_contra hdigit
      have := isAlpha_of_isDigit (by simpa using hdigit)
      simp [hletters c (List.mem_of_getLast? hc)] at this
    simp [hrest d hd, hdigit]
  | other hdigit halpha =>
    obtain rfl : _ = c := by simpa using hc
    simp [hdigit, halpha]

theorem ScanReached.split (h : ScanReached query before rest) : query = before ++ rest := by
  unfold ScanReached at h
  generalize hs : (before, rest) = s at h
  induction h generalizing before rest with
  | refl =>
    cases hs
    rfl
  | @tail t u _ hstep ih =>
    subst hs
    obtain ⟨b, l⟩ := t
    obtain ⟨used, hl, hb, -⟩ := scanStep_iff.mp hstep
    have := ih rfl
    rw [this, hl, show before = b ++ used from hb, List.append_assoc]

theorem ScanReached.boundary (h : ScanReached query before rest) :
    ∀ c ∈ before.getLast?, ∀ d ∈ rest.head?,
      ¬ (c.isDigit = true ∧ d.isDigit = true) ∧ ¬ (c.isAlpha = true ∧ d.isAlpha = true) := by
  unfold ScanReached at h
  cases h.cases_tail with
  | inl heq =>
    cases heq
    simp
  | inr htail =>
    obtain ⟨⟨b, l⟩, -, hstep⟩ := htail
    obtain ⟨used, heq, hb, hl, hrest⟩ := scanStep_iff.mp hstep
    obtain ⟨used', heq', hread⟩ := numberArm_read b hl
    dsimp only at heq hb hrest
    rw [← hrest] at heq' hread
    obtain rfl : used' = used := List.append_cancel_right (heq'.symm.trans heq)
    intro c hc
    rw [hb, List.getLast?_append_of_ne_nil b hread.used_ne_nil] at hc
    exact hread.boundary c hc

theorem isTokenChar_of_isAlphanum {c : Char} (h : c.isAlphanum = true) (after : List Char) :
    isTokenChar c after = true := by
  simp [isTokenChar, h]

theorem isAlphanum_of_isDigit {c : Char} (h : c.isDigit = true) : c.isAlphanum = true := by
  simp [Char.isAlphanum, h]

theorem isAlphanum_of_isAlpha {c : Char} (h : c.isAlpha = true) : c.isAlphanum = true := by
  simp [Char.isAlphanum, h]

theorem isTokenChar_comma {after : List Char} : isTokenChar ',' after = startsGroup after := by
  simp [isTokenChar, show Char.isAlphanum ',' = false by decide]

theorem startsGroup_digit {c : Char} {cs : List Char} (h : startsGroup (c :: cs) = true) :
    c.isDigit = true := by
  unfold startsGroup at h
  split at h
  · simp_all
  · cases h

theorem IsRun.inside (h : IsRun run rest) :
    ∀ u c v, run = u ++ c :: v → isTokenChar c (v ++ rest) = true := by
  induction h with
  | stop => simp
  | digit hc _ ih =>
    intro u c v heq
    cases u with
    | nil =>
      cases heq
      exact isTokenChar_of_isAlphanum (isAlphanum_of_isDigit hc) _
    | cons d u => exact ih u c v (List.cons.inj heq).2
  | comma hgroup _ ih =>
    intro u c v heq
    cases u with
    | nil =>
      cases heq
      rw [isTokenChar_comma]
      exact hgroup
    | cons d u => exact ih u c v (List.cons.inj heq).2

/-- The token goes on neither side of a run that no fragment is cut from. -/
theorem IsRun.right (h : IsRun run rest) (hrest : ¬ ∃ c ∈ rest.head?, c.isAlpha = true) :
    ∀ c v, rest = c :: v → isTokenChar c v = false := by
  rintro c v rfl
  obtain ⟨hdigit, hgroup⟩ := h.head_rest
  have halpha : c.isAlpha = false := by
    by_contra halpha
    exact hrest ⟨c, rfl, by simpa using halpha⟩
  have halphanum : c.isAlphanum = false := by
    simp [Char.isAlphanum, halpha, hdigit c rfl]
  by_cases hc : c = ','
  · subst hc
    rw [isTokenChar_comma]
    exact hgroup v rfl
  · simp [isTokenChar, halphanum, hc]

/-- A run that is cut off nowhere is a number by itself, perhaps behind a comma of its token. -/
theorem bare_whole (hreached : ScanReached query before (run ++ rest))
    (hstart : ∃ c ∈ run.head?, c.isDigit = true) (hrun : IsRun run rest)
    (hdecimal : startsDecimal rest = false)
    (hbefore : before.getLast?.any Char.isAlpha = false)
    (hcut : ¬ ((∃ c ∈ rest.head?, c.isAlpha = true) ∨ AfterPoint before ∨
      AfterGroupComma before (run ++ rest))) :
    WholeNumber query (run.filter Char.isDigit) := by
  obtain ⟨hrest, hpoint, hcomma⟩ : (¬ ∃ c ∈ rest.head?, c.isAlpha = true) ∧
      ¬ AfterPoint before ∧ ¬ AfterGroupComma before (run ++ rest) := by
    simpa only [not_or] using hcut
  obtain ⟨d, hd, hdigit⟩ := hstart
  have hne : run ≠ [] := by
    rintro rfl
    simp at hd
  have hhead : d ∈ (run ++ rest).head? := by
    rw [List.head?_append_of_ne_nil _ hne]
    exact hd
  have hlast (c : Char) (hc : c ∈ before.getLast?) : c.isAlphanum = false := by
    have hdigit' : ¬ c.isDigit = true := fun h =>
      (hreached.boundary c hc d hhead).1 ⟨h, hdigit⟩
    have halpha : c.isAlpha = false := by
      rw [Option.mem_def.mp hc] at hbefore
      simpa using hbefore
    simp [Char.isAlphanum, halpha, hdigit']
  by_cases hjoined : startsGroup (run ++ rest) = true ∧ before.getLast? = some ','
  · obtain ⟨hgroup, hjoined⟩ := hjoined
    obtain ⟨u, rfl⟩ := List.getLast?_eq_some_iff.mp hjoined
    refine ⟨u, ',' :: run, rest, ⟨?_, by simp, ?_, ?_, hrun.right hrest⟩, .bare ?_ hdecimal ?_, ?_⟩
    · simpa using hreached.split
    · intro w c v heq
      cases w with
      | nil =>
        cases heq
        rw [isTokenChar_comma]
        exact hgroup
      | cons e w => exact hrun.inside w c v (List.cons.inj heq).2
    · rintro w c rfl
      by_cases hc : c = ','
      · subst hc
        rw [isTokenChar_comma, ← Bool.not_eq_true]
        intro hbad
        exact absurd (startsGroup_digit hbad) (by decide)
      · have hnot : c.isAlphanum = false := by
          by_contra hnot
          exact hcomma ⟨hgroup, w, c, by simp, by simpa using hnot⟩
        simp [isTokenChar, hnot, hc]
    · intro c hc
      rcases List.mem_cons.mp hc with rfl | hc
      · exact .inr rfl
      · exact hrun.joined c hc
    · rintro ⟨-, c, hc, hc'⟩
      obtain rfl : ',' = c := by simpa using hc
      exact absurd hc' (by decide)
    · simp
  · refine ⟨before, run, rest, ⟨hreached.split, hne, hrun.inside, ?_, hrun.right hrest⟩,
      .bare hrun.joined hdecimal fun h => hpoint h.1, rfl⟩
    rintro w c rfl
    have hnot := hlast c (by simp)
    by_cases hc : c = ','
    · subst hc
      rw [isTokenChar_comma, ← Bool.not_eq_true]
      intro hgroup
      exact hjoined ⟨hgroup, by simp⟩
    · simp [isTokenChar, hnot, hc]

/-- Digits after a prefix, neither preceded by digits nor followed by groups, end their token. -/
theorem prefixed_whole (hreached : ScanReached query before (letters ++ digits ++ rest))
    (hne : letters ≠ []) (hletters : ∀ c ∈ letters, c.isAlpha = true)
    (hshort : letters.length ≤ 4) (hdigits : ∀ c ∈ digits, c.isDigit = true)
    (hrest : ∀ c ∈ rest.head?, c.isAlphanum = false)
    (hcut : ¬ ((∃ c ∈ before.getLast?, c.isDigit = true) ∨
      ∃ cs, rest = ',' :: cs ∧ startsGroup cs = true)) : WholeNumber query digits := by
  rw [not_or] at hcut
  have hfilter : (letters ++ digits).filter Char.isDigit = digits := by
    rw [List.filter_append, List.filter_eq_self.mpr hdigits, List.append_left_eq_self,
      List.filter_eq_nil_iff]
    intro c hc hdigit
    have halpha := hletters c hc
    simp [isAlpha_of_isDigit hdigit] at halpha
  refine ⟨before, letters ++ digits, rest, ⟨?_, by simp [hne], ?_, ?_, ?_⟩,
    .prefixed rfl hne hletters hshort fun c hc => .inl (hdigits c hc), hfilter⟩
  · simpa using hreached.split
  · intro u c v heq
    have hmem : c ∈ letters ++ digits := by simp [heq]
    apply isTokenChar_of_isAlphanum
    rcases List.mem_append.mp hmem with hmem | hmem
    · exact isAlphanum_of_isAlpha (hletters c hmem)
    · exact isAlphanum_of_isDigit (hdigits c hmem)
  · rintro u c rfl
    obtain ⟨l, letters, rfl⟩ := List.exists_cons_of_ne_nil hne
    have hl : l.isAlpha = true := hletters l (by simp)
    have halpha : ¬ c.isAlpha = true := fun h =>
      (hreached.boundary c (by simp) l (by simp)).2 ⟨h, hl⟩
    have hdigit : ¬ c.isDigit = true := fun h => hcut.1 ⟨c, by simp, h⟩
    have hnot : c.isAlphanum = false := by simp [Char.isAlphanum, halpha, hdigit]
    by_cases hc : c = ','
    · subst hc
      rw [isTokenChar_comma, ← Bool.not_eq_true]
      intro hgroup
      simp [isAlpha_of_isDigit (startsGroup_digit hgroup)] at hl
    · simp [isTokenChar, hnot, hc]
  · rintro c v rfl
    have hnot := hrest c rfl
    by_cases hc : c = ','
    · subst hc
      rw [isTokenChar_comma, ← Bool.not_eq_true]
      exact fun hgroup => hcut.2 ⟨v, rfl, hgroup⟩
    · simp [isTokenChar, hnot, hc]

end Arms

section Order

theorem scanStep_lengthens {s t : List Char × List Char} (h : ScanStep s t) :
    s.1.length < t.1.length := by
  obtain ⟨used, heq, hb, hl, hrest⟩ := scanStep_iff.mp h
  obtain ⟨used', heq', hread⟩ := numberArm_read s.1 hl
  rw [← hrest] at heq'
  obtain rfl : used' = used := List.append_cancel_right (heq'.symm.trans heq)
  have := List.length_pos_iff.mpr hread.used_ne_nil
  rw [hb, List.length_append]
  omega

theorem scan_lengthens {s t : List Char × List Char} (h : Relation.ReflTransGen ScanStep s t) :
    s.1.length ≤ t.1.length := by
  induction h with
  | refl => exact le_rfl
  | tail _ hstep ih => exact ih.trans (scanStep_lengthens hstep).le

/-- The digits that the scan contributes, each with the place where its turn starts. -/
theorem exists_places (before l : List Char) :
    ∃ places : List (List Char × List Char), places.map Prod.snd = numberReads before l ∧
      places.Pairwise (fun x y => x.1.length < y.1.length) ∧
      ∀ b d, (b, d) ∈ places ↔ ∃ rest, Relation.ReflTransGen ScanStep (before, l) (b, rest) ∧
        rest ≠ [] ∧ (numberArm b rest).pushed = some d := by
  induction hn : l.length using Nat.strong_induction_on generalizing before l with
  | _ n ih =>
  subst hn
  rw [numberReads]
  by_cases hl : l = []
  · subst hl
    refine ⟨[], by simp, List.Pairwise.nil, fun b d => ?_⟩
    simp only [List.not_mem_nil, false_iff, not_exists, not_and]
    intro rest hreach hne
    rcases hreach.cases_head with heq | ⟨t, hstep, -⟩
    · cases heq
      exact absurd rfl hne
    · exact absurd rfl hstep.1
  · have hlt := numberArm_lt before hl
    obtain ⟨places, hmap, hsorted, hmem⟩ :=
      ih _ hlt (before ++ usedBy l (numberArm before l).rest) (numberArm before l).rest rfl
    have hstep : ScanStep (before, l)
        (before ++ usedBy l (numberArm before l).rest, (numberArm before l).rest) := ⟨hl, rfl⟩
    rw [dif_neg hl]
    refine ⟨(numberArm before l).pushed.toList.map (fun d => (before, d)) ++ places, ?_, ?_, ?_⟩
    · simp [hmap]
    · rw [List.pairwise_append]
      refine ⟨?_, hsorted, ?_⟩
      · cases (numberArm before l).pushed <;> simp
      · intro x hx y hy
        obtain ⟨d, -, rfl⟩ := List.mem_map.mp hx
        obtain ⟨rest, hreach, -⟩ := (hmem y.1 y.2).mp hy
        have hlt := scanStep_lengthens hstep
        have hle := scan_lengthens hreach
        exact lt_of_lt_of_le hlt hle
    · intro b d
      rw [List.mem_append, hmem, List.mem_map]
      simp only [Option.mem_toList, Prod.mk.injEq]
      constructor
      · rintro (⟨d', hd', rfl, rfl⟩ | ⟨rest, hreach, hne, hpushed⟩)
        · exact ⟨l, .refl, hl, hd'⟩
        · exact ⟨rest, hreach.head hstep, hne, hpushed⟩
      · rintro ⟨rest, hreach, hne, hpushed⟩
        rcases hreach.cases_head with heq | ⟨t, hstep', hreach'⟩
        · cases heq
          exact .inl ⟨d, hpushed, rfl, rfl⟩
        · rw [hstep'.2] at hreach'
          exact .inr ⟨rest, hreach', hne, hpushed⟩

/-- What is read before the first place of a key, as the places before it. -/
theorem before_first {places : List (List Char × List Char)} {b d : List Char}
    {pre post : List (List Char × List Char)} (heq : places = pre ++ (b, d) :: post)
    (hsorted : places.Pairwise fun x y => x.1.length < y.1.length) {b' d' : List Char}
    (hmem : (b', d') ∈ places) : (b', d') ∈ pre ↔ b'.length < b.length := by
  subst heq
  obtain ⟨-, htail, hcross⟩ := List.pairwise_append.mp hsorted
  constructor
  · intro h
    exact hcross _ h _ List.mem_cons_self
  · intro hlt
    rcases List.mem_append.mp hmem with h | h
    · exact h
    · rcases List.mem_cons.mp h with heq | h
      · cases heq
        omega
      · have := (List.pairwise_cons.mp htail).1 _ h
        dsimp only at this
        omega

/-- A key is returned exactly if it is read somewhere with fewer than eight others before it. -/
theorem mem_numberQueryDigits {query digits : String} :
    digits ∈ numberQueryDigits query ↔ ∃ before,
      ReadsKey query.toList before digits.toList ∧
        ¬ BeyondEight query.toList before digits.toList := by
  obtain ⟨places, hmap, hsorted, hmem⟩ := exists_places [] query.toList
  have hreads {b d : List Char} : ReadsKey query.toList b d ↔
      isLookupKey d = true ∧ (b, d) ∈ places := by
    rw [hmem]
    rfl
  have hkeys : digits ∈ numberQueryDigits query ↔
      digits.toList ∈ (FirstSeen.distinct isLookupKey (places.map Prod.snd)).take 8 := by
    unfold numberQueryDigits
    rw [hmap, List.mem_map]
    constructor
    · rintro ⟨d, hd, rfl⟩
      rwa [String.toList_ofList]
    · intro hd
      exact ⟨digits.toList, hd, String.ofList_toList⟩
  rw [hkeys, FirstSeen.mem_take_distinct]
  constructor
  · rintro ⟨pre, post, heq, hnew, hkey, hfew⟩
    obtain ⟨first, tail, hplaces, rfl, htail⟩ := List.map_eq_append_iff.mp heq
    obtain ⟨⟨b, d⟩, later, rfl, rfl, -⟩ := List.map_eq_cons_iff.mp htail
    refine ⟨b, hreads.mpr ⟨hkey, by simp [hplaces]⟩, ?_⟩
    rintro ⟨others, hcard, hnot, hothers⟩
    have hsub : others ⊆ (FirstSeen.distinct isLookupKey (first.map Prod.snd)).toFinset := by
      intro d' hd'
      obtain ⟨b', hlt, hread⟩ := hothers d' hd'
      obtain ⟨hkey', hplace⟩ := hreads.mp hread
      rw [List.mem_toFinset, FirstSeen.mem_distinct]
      exact ⟨List.mem_map_of_mem ((before_first hplaces hsorted hplace).mpr hlt), hkey'⟩
    have hle := (Finset.card_le_card hsub).trans (List.toFinset_card_le _)
    omega
  · rintro ⟨b, hread, hbeyond⟩
    obtain ⟨hkey, hplace⟩ := hreads.mp hread
    obtain ⟨pre, post, heq, hnew⟩ := List.eq_append_cons_of_mem
      (List.mem_map_of_mem (f := Prod.snd) hplace)
    refine ⟨pre, post, heq, hnew, hkey, ?_⟩
    by_contra hmany
    obtain ⟨first, tail, hplaces, rfl, htail⟩ := List.map_eq_append_iff.mp heq
    obtain ⟨⟨b₀, d⟩, later, rfl, rfl, -⟩ := List.map_eq_cons_iff.mp htail
    have hfirst : b₀.length ≤ b.length := by
      by_contra hlt
      have := (before_first hplaces hsorted hplace).mpr (by omega)
      exact hnew (List.mem_map_of_mem (f := Prod.snd) this)
    have hnodup := FirstSeen.distinct_nodup (p := isLookupKey) (first.map Prod.snd)
    apply hbeyond
    refine ⟨((FirstSeen.distinct isLookupKey (first.map Prod.snd)).take 8).toFinset, ?_, ?_, ?_⟩
    · rw [List.toFinset_card_of_nodup (hnodup.sublist (List.take_sublist _ _)), List.length_take]
      omega
    · rw [List.mem_toFinset]
      intro hmem'
      exact hnew (FirstSeen.mem_distinct.mp ((List.take_sublist _ _).mem hmem')).1
    · intro d' hd'
      rw [List.mem_toFinset] at hd'
      obtain ⟨hin, hkey'⟩ := FirstSeen.mem_distinct.mp ((List.take_sublist _ _).mem hd')
      obtain ⟨⟨b', d'⟩, hplace', rfl⟩ := List.mem_map.mp hin
      have hall : (b', d') ∈ places := by simp [hplaces, hplace']
      exact ⟨b', ((before_first hplaces hsorted hall).mp hplace').trans_le hfirst,
        hreads.mpr ⟨hkey', hall⟩⟩

end Order

section Fragments
variable {query before used rest run letters digits : List Char}

theorem numberRun_of_isRun (h : IsRun run rest) :
    numberRun (run ++ rest) = ⟨run.filter Char.isDigit, decide (',' ∈ run), rest⟩ := by
  induction h with
  | @stop rest hdigit hgroup =>
    cases rest with
    | nil => rfl
    | cons c cs =>
      have hc : c.isDigit = false := hdigit c rfl
      have hcomma : (c == ',' && startsGroup cs) = false := by
        by_cases hc : c = ','
        · subst hc
          simp [hgroup cs rfl]
        · simp [hc]
      simp [numberRun, hc, hcomma]
  | @digit c run rest hc _ ih =>
    have hne : ',' ≠ c := by
      rintro rfl
      exact absurd hc (by decide)
    simp [numberRun, hc, ih, hne]
  | comma hgroup _ ih =>
    simp [numberRun, hgroup, ih, show Char.isDigit ',' = false by decide]

theorem FragmentRead.pushed (h : FragmentRead before used rest digits) :
    (numberArm before (used ++ rest)).pushed = some digits := by
  cases h with
  | bare hstart hrun hdecimal hbefore hlong _ =>
    have hnumber := numberRun_of_isRun hrun
    obtain ⟨c, hc, hdigit⟩ := hstart
    obtain ⟨run, rfl⟩ := List.head?_eq_some_iff.mp hc
    rw [List.cons_append] at hnumber ⊢
    unfold numberArm
    dsimp only
    rw [if_pos hdigit]
    unfold digitArm
    rw [hnumber]
    simp only [hdecimal, hbefore, Bool.not_false, Bool.true_and, Bool.or_eq_true,
      decide_eq_true_eq]
    rw [if_pos hlong]
  | @prefixed letters digits rest hne hletters hshort hdigits hsome hrest _ =>
    obtain ⟨d, digits, rfl⟩ := List.exists_cons_of_ne_nil hsome
    obtain ⟨l, letters, rfl⟩ := List.exists_cons_of_ne_nil hne
    have hd : d.isDigit = true := hdigits d List.mem_cons_self
    have hl : l.isAlpha = true := hletters l List.mem_cons_self
    have hl' : ¬ l.isDigit = true := fun h => by simp [isAlpha_of_isDigit h] at hl
    have htake : ((l :: letters) ++ (d :: digits ++ rest)).takeWhile Char.isAlpha =
        l :: letters := by
      rw [List.takeWhile_append_of_pos hletters]
      simp [isAlpha_of_isDigit hd]
    have hdrop : ((l :: letters) ++ (d :: digits ++ rest)).dropWhile Char.isAlpha =
        d :: digits ++ rest := by
      rw [List.dropWhile_append_of_pos hletters]
      simp [isAlpha_of_isDigit hd]
    have hrest' : rest.takeWhile Char.isDigit = [] ∧ rest.dropWhile Char.isDigit = rest := by
      cases rest with
      | nil => simp
      | cons r rest =>
        have hr := hrest r rfl
        simp only [Char.isAlphanum, Bool.or_eq_false_iff] at hr
        simp [hr.2]
    have htake' : (d :: digits ++ rest).takeWhile Char.isDigit = d :: digits := by
      rw [List.takeWhile_append_of_pos hdigits, hrest'.1, List.append_nil]
    have hdrop' : (d :: digits ++ rest).dropWhile Char.isDigit = rest := by
      rw [List.dropWhile_append_of_pos hdigits, hrest'.2]
    have hnone : rest.head?.any Char.isAlphanum = false := by
      cases rest with
      | nil => rfl
      | cons r rest => simpa using hrest r rfl
    rw [List.append_assoc, List.cons_append]
    unfold numberArm
    dsimp only
    rw [if_neg hl', if_pos hl]
    unfold letterArm
    rw [← List.cons_append, htake, hdrop]
    dsimp only
    have hgoes : (decide ((l :: letters).length ≤ 4) &&
        (d :: digits ++ rest).head?.any Char.isDigit) = true := by
      rw [decide_eq_true hshort, List.cons_append, List.head?_cons, Option.any_some, hd]
      rfl
    rw [htake', hdrop', if_pos hgoes, hnone]
    rfl

/-- What a turn contributes is a whole number of the query or cut out of one. -/
theorem ArmRead.whole_or_fragment (h : ArmRead before used rest (some digits))
    (hreached : ScanReached query before (used ++ rest)) :
    FragmentRead before used rest digits ∨ WholeNumber query digits := by
  generalize hpushed : some digits = pushed at h
  cases h with
  | number hstart hrun hdecimal =>
    split_ifs at hpushed with hcond
    cases hpushed
    by_cases hcut : (∃ c ∈ rest.head?, c.isAlpha = true) ∨ AfterPoint before ∨
        AfterGroupComma before (used ++ rest)
    · exact .inl (.bare hstart hrun hdecimal hcond.1 hcond.2 hcut)
    · exact .inr (bare_whole hreached hstart hrun hdecimal hcond.1 hcut)
  | decimal => cases hpushed
  | @prefixed letters ds _ hne hletters hshort hdigits hsome hrest =>
    split_ifs at hpushed with hany
    cases hpushed
    have hend : ∀ c ∈ rest.head?, c.isAlphanum = false := by
      intro c hc
      rw [Option.mem_def.mp hc, Option.any_some, Bool.not_eq_true] at hany
      exact hany
    by_cases hcut : (∃ c ∈ before.getLast?, c.isDigit = true) ∨
        ∃ cs, rest = ',' :: cs ∧ startsGroup cs = true
    · exact .inl (.prefixed hne hletters hshort hdigits hsome hend hcut)
    · exact .inr (prefixed_whole hreached hne hletters hshort hdigits hend hcut)
  | word => cases hpushed
  | other => cases hpushed

theorem ArmRead.only_digits {pushed : Option (List Char)} (h : ArmRead before used rest pushed) :
    ∀ d ∈ pushed, ∀ c ∈ d, c.isDigit = true := by
  intro d hd c hc
  cases h with
  | number =>
    split_ifs at hd
    · cases hd
      exact (List.mem_filter.mp hc).2
    · cases hd
  | decimal => cases hd
  | prefixed _ _ _ hdigits =>
    split_ifs at hd
    · cases hd
    · cases hd
      exact hdigits c hc
  | word => cases hd
  | other => cases hd

/-- A text of token characters is one token. -/
theorem IsToken.whole_text {token after : List Char} (h : IsToken query before token after)
    (hall : ∀ c v, c :: v <:+ query → isTokenChar c v = true) : token = query := by
  have hbefore : before = [] := by
    rcases List.eq_nil_or_concat before with rfl | ⟨u, c, rfl⟩
    · rfl
    · have hin := hall c (token ++ after) ⟨u, by simp [h.split]⟩
      simp [h.left u c (by simp)] at hin
  have hafter : after = [] := by
    cases after with
    | nil => rfl
    | cons c v =>
      have hin := hall c v ⟨before ++ token, by simp [h.split]⟩
      simp [h.right c v rfl] at hin
  simp [h.split, hbefore, hafter]

end Fragments
end Munarium

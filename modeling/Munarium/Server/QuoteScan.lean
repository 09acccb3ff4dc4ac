import Munarium.Lib.Toggled
import Munarium.Server.Verification

/-! Which fabricated quotations the scan for quotes finds. It takes the quote marks by turns as
opening and closing ones, whatever marks they are. -/
namespace Munarium

/-- A passage between an opening curly quote and the next closing one. -/
def CurlyPassage (answer passage : String) : Prop :=
  ∃ before after, answer.toList = before ++ '\u201C' :: (passage.toList ++ '\u201D' :: after) ∧
    ∀ c ∈ passage.toList, isQuoteMark c = false

/-- A passage long enough to be checked that occurs in no served text. -/
def Fabricated (servedTexts : List String) (passage : String) : Prop :=
  MIN_QUOTE_CHARS ≤ (utf8 (trim passage)).length ∧
    ∀ t ∈ servedTexts, ¬ (normalizeWs passage).toList <:+: (normalizeWs t).toList

/-- A text that stands between two quote marks of the answer. -/
def QuotedIn (answer span : String) : Prop :=
  ∃ before p q after, answer.toList = before ++ p :: (span.toList ++ q :: after) ∧
    isQuoteMark p = true ∧ isQuoteMark q = true

/-- Every fabricated quotation is reported, and every report is quoted. -/
structure QuotesReported (answer : String) (servedTexts : List String) : Prop where
  reported : ∀ passage, CurlyPassage answer passage → Fabricated servedTexts passage →
    passage ∈ checkQuotes answer servedTexts
  quoted : ∀ span ∈ checkQuotes answer servedTexts, QuotedIn answer span

/-- A text between two quote marks that an even number of quote marks precede. -/
def EvenlyQuoted (answer passage : String) : Prop :=
  Toggled.Between isQuoteMark answer.toList passage.toList

theorem afterFirst_isSome_iff {p l : List Char} : (afterFirst p l).isSome = true ↔ p <:+: l := by
  induction l with
  | nil => by_cases hp : p = [] <;> simp [afterFirst, hp]
  | cons c cs ih =>
    unfold afterFirst
    rw [List.infix_cons_iff]
    by_cases hp : p.isPrefixOf (c :: cs) = true
    · rw [if_pos hp]
      simp [List.isPrefixOf_iff_prefix.mp hp]
    · rw [if_neg hp, ih]
      rw [List.isPrefixOf_iff_prefix] at hp
      simp [hp]

theorem containsText_iff {p s : String} : containsText p s = true ↔ p.toList <:+: s.toList :=
  afterFirst_isSome_iff

theorem foldl_quoteStep (l : List Char) (s : List (List Char) × Option (List Char)) :
    l.foldl quoteStep (s.1.map String.ofList, s.2) =
      ((l.foldl (Toggled.step isQuoteMark) s).1.map String.ofList,
        (l.foldl (Toggled.step isQuoteMark) s).2) := by
  induction l generalizing s with
  | nil => rfl
  | cons c cs ih =>
    have hstep : quoteStep (s.1.map String.ofList, s.2) c =
        ((Toggled.step isQuoteMark s c).1.map String.ofList,
          (Toggled.step isQuoteMark s c).2) := by
      obtain ⟨closed, opened⟩ := s
      unfold quoteStep Toggled.step
      by_cases hc : isQuoteMark c = true
      · cases opened <;> simp [hc]
      · simp [hc]
    rw [List.foldl_cons, List.foldl_cons, hstep, ih]

theorem mem_quotedSpans {text span : String} :
    span ∈ quotedSpans text ↔
      EvenlyQuoted text span ∧ MIN_QUOTE_CHARS ≤ (utf8 (trim span)).length := by
  have hfold := foldl_quoteStep text.toList ([], none)
  have hspans : (text.toList.foldl quoteStep ([], none)).1 =
      (Toggled.scan isQuoteMark text.toList).1.map String.ofList := congrArg Prod.fst hfold
  unfold quotedSpans EvenlyQuoted
  rw [List.mem_filter, hspans, List.mem_map, decide_eq_true_eq, ← Toggled.mem_scan_iff]
  constructor
  · rintro ⟨⟨inner, hmem, rfl⟩, hlong⟩
    exact ⟨by rwa [String.toList_ofList], hlong⟩
  · rintro ⟨hmem, hlong⟩
    exact ⟨⟨span.toList, hmem, String.ofList_toList⟩, hlong⟩

theorem mem_checkQuotes {answer span : String} {servedTexts : List String} :
    span ∈ checkQuotes answer servedTexts ↔
      EvenlyQuoted answer span ∧ Fabricated servedTexts span := by
  have hserved : (!(servedTexts.map normalizeWs).any (containsText (normalizeWs span))) = true ↔
      ∀ t ∈ servedTexts, ¬ (normalizeWs span).toList <:+: (normalizeWs t).toList := by
    simp only [Bool.not_eq_true', List.any_eq_false, List.forall_mem_map, containsText_iff]
  unfold checkQuotes Fabricated
  rw [List.mem_filter, mem_quotedSpans, hserved, and_assoc]

/-- Every fabricated quotation is reported exactly where each stands after an even number of
quote marks. -/
theorem quotes_reported_iff (answer : String) (servedTexts : List String) :
    QuotesReported answer servedTexts ↔ ∀ passage, CurlyPassage answer passage →
      Fabricated servedTexts passage → EvenlyQuoted answer passage := by
  constructor
  · intro h passage hcurly hfabricated
    exact (mem_checkQuotes.mp (h.reported passage hcurly hfabricated)).1
  · intro h
    constructor
    · intro passage hcurly hfabricated
      exact mem_checkQuotes.mpr ⟨h passage hcurly hfabricated, hfabricated⟩
    · intro span hspan
      obtain ⟨before, p, q, after, heq, hp, hq, -⟩ := (mem_checkQuotes.mp hspan).1
      exact ⟨before, p, q, after, heq, hp, hq⟩

/-- A mark for inches hides the fabricated quotation after it. -/
theorem stray_mark_hides_quotation :
    ¬ QuotesReported "A 6\u0022 pipe: \u201CNever seen by anybody.\u201D" [] := by
  intro h
  have hplain : "Never seen by anybody.".toList.all (fun c => isQuoteMark c == false) = true := by
    decide +kernel
  have hmem := h.reported "Never seen by anybody."
    ⟨"A 6\u0022 pipe: ".toList, [], by decide +kernel,
      fun c hc => beq_iff_eq.mp (List.all_eq_true.mp hplain c hc)⟩
    ⟨by decide +kernel, by simp⟩
  revert hmem
  decide +kernel

end Munarium

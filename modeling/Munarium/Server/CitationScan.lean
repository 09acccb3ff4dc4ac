import Munarium.Server.CitationChecks

/-! Which fabricated citations the scan for brackets finds. It pairs an opening bracket with the
next closing one, so an unclosed bracket hides the one that follows it. -/
namespace Munarium

/-- A trimmed text between a bracket and the next one, on one line. -/
def InnermostToken (answer token : String) : Prop :=
  ∃ before inner after, answer.toList = before ++ '[' :: (inner ++ ']' :: after) ∧
    '[' ∉ inner ∧ ']' ∉ inner ∧ '\n' ∉ inner ∧ String.ofList (trimChars inner) = token

/-- The citation of a document, none of those that were served. -/
def FabricatedLabel (labels : List String) (token : String) : Prop :=
  '/' ∈ token.toList ∧ token ∉ labels

/-- The citation of a row, none of those that were served. -/
def FabricatedRow (served : List ServedEvidence) (token : String) : Prop :=
  ∃ id rowId, '#' ∉ id.toList ∧ id ≠ "" ∧ rowId ≠ "" ∧
    token = "evidence/" ++ id ++ "#" ++ rowId ∧
    ∀ e ∈ served, e.evidenceId = id → ∀ cells, (rowId, cells) ∉ e.rows

/-- Every fabricated citation is reported, in order and once. -/
structure FabricationsReported (answer : String) (labels : List String)
    (served : List ServedEvidence) : Prop where
  cited : ∀ token, InnermostToken answer token → FabricatedLabel labels token →
    token ∈ checkCitations answer labels
  rows : ∀ token, InnermostToken answer token → FabricatedRow served token →
    token ∈ checkEvidenceCitations answer served
  citedSorted : (checkCitations answer labels).Pairwise (· < ·)
  rowsSorted : (checkEvidenceCitations answer served).Pairwise (· < ·)

/-- A token in brackets before which no bracket is left open. -/
def PlainlyBracketed (answer token : String) : Prop :=
  ∃ before inner after, answer.toList = before ++ '[' :: (inner ++ ']' :: after) ∧
    ']' ∉ inner ∧ String.ofList (trimChars inner) = token ∧ ¬ Delimited.Unclosed '[' ']' before

/-- Every fabricated citation stands somewhere after no unclosed bracket. -/
def FabricationsPlain (answer : String) (labels : List String)
    (served : List ServedEvidence) : Prop :=
  ∀ token, InnermostToken answer token →
    FabricatedLabel labels token ∨ FabricatedRow served token → PlainlyBracketed answer token

theorem sortedDistinct_eq_dedup (l : List String) :
    sortedDistinct l = (StableSort.sortByKey id l).dedup := by
  have hsorted : (StableSort.sortByKey id l).Pairwise (· ≤ ·) :=
    (StableSort.keyedBy_compare id).sorted l
  exact hsorted.destutter_eq_dedup

theorem mem_sortedDistinct {l : List String} {s : String} : s ∈ sortedDistinct l ↔ s ∈ l := by
  rw [sortedDistinct_eq_dedup, List.mem_dedup]
  exact StableSort.mem_sortBy

theorem sortedDistinct_strict (l : List String) : (sortedDistinct l).Pairwise (· < ·) := by
  rw [sortedDistinct_eq_dedup]
  have hsorted : (StableSort.sortByKey id l).Pairwise (· ≤ ·) :=
    (StableSort.keyedBy_compare id).sorted l
  exact (hsorted.sublist (List.dedup_sublist _)).imp₂
    (fun _ _ hle hne => lt_of_le_of_ne hle hne) (List.nodup_dedup _)

/-- The tokens that the scan sees are those before which no bracket is left open. -/
theorem mem_bracketTokens_iff {answer token : String} :
    token ∈ bracketTokens answer ↔ PlainlyBracketed answer token := by
  unfold bracketTokens PlainlyBracketed
  rw [List.mem_map]
  constructor
  · rintro ⟨inner, hmem, rfl⟩
    obtain ⟨before, after, heq, hc, hopen⟩ := (Delimited.mem_spans_iff (by decide)).mp hmem
    exact ⟨before, inner, after, heq, hc, rfl, hopen⟩
  · rintro ⟨before, inner, after, heq, hc, rfl, hopen⟩
    exact ⟨inner, (Delimited.mem_spans_iff (by decide)).mpr ⟨before, after, heq, hc, hopen⟩, rfl⟩

theorem mem_of_mem_trimChars {cs : List Char} {c : Char} (h : c ∈ trimChars cs) : c ∈ cs := by
  unfold trimChars at h
  rw [List.mem_reverse] at h
  have hback := (List.dropWhile_sublist _).mem h
  rw [List.mem_reverse] at hback
  exact (List.dropWhile_sublist _).mem hback

theorem InnermostToken.one_line {answer token : String} (h : InnermostToken answer token) :
    '\n' ∉ token.toList := by
  obtain ⟨before, inner, after, -, -, -, hline, rfl⟩ := h
  rw [String.toList_ofList]
  intro hmem
  exact hline (mem_of_mem_trimChars hmem)

theorem fabricatedRow_iff {served : List ServedEvidence} {token : String} :
    FabricatedRow served token ↔ unservedRow served token = true := by
  unfold FabricatedRow unservedRow
  constructor
  · rintro ⟨id, rowId, hhash, hid, hrow, htoken, hserved⟩
    rw [parseEvidenceRef_eq_some.mpr ⟨htoken, hhash, hid, hrow⟩]
    simp only [Bool.not_eq_true', List.any_eq_false, Bool.and_eq_true, beq_iff_eq, row_isSome_iff,
      not_and, not_exists]
    exact hserved
  · intro h
    cases hparse : parseEvidenceRef token with
    | none => simp [hparse] at h
    | some r =>
      obtain ⟨id, rowId⟩ := r
      obtain ⟨htoken, hhash, hid, hrow⟩ := parseEvidenceRef_eq_some.mp hparse
      refine ⟨id, rowId, hhash, hid, hrow, htoken, ?_⟩
      simpa only [hparse, Bool.not_eq_true', List.any_eq_false, Bool.and_eq_true, beq_iff_eq,
        row_isSome_iff, not_and, not_exists] using h

theorem mem_checkCitations {answer token : String} {labels : List String}
    (h : InnermostToken answer token) (hlabel : FabricatedLabel labels token) :
    token ∈ checkCitations answer labels ↔ PlainlyBracketed answer token := by
  have hunserved : unservedLabel labels token = true := by
    rw [← Bool.not_eq_false, unservedLabel_eq_false_iff]
    intro hpass
    rcases hpass hlabel.1 with hline | hserved
    · exact h.one_line hline
    · exact hlabel.2 hserved
  unfold checkCitations
  rw [mem_sortedDistinct, List.mem_filter, mem_bracketTokens_iff]
  exact and_iff_left hunserved

theorem mem_checkEvidenceCitations {answer token : String} {served : List ServedEvidence}
    (hrow : FabricatedRow served token) :
    token ∈ checkEvidenceCitations answer served ↔ PlainlyBracketed answer token := by
  unfold checkEvidenceCitations
  rw [mem_sortedDistinct, List.mem_filter, mem_bracketTokens_iff]
  exact and_iff_left (fabricatedRow_iff.mp hrow)

/-- Every fabricated citation is reported exactly where each stands after no unclosed bracket. -/
theorem fabrications_reported_iff (answer : String) (labels : List String)
    (served : List ServedEvidence) :
    FabricationsReported answer labels served ↔ FabricationsPlain answer labels served := by
  constructor
  · intro hreported token htoken hfabricated
    rcases hfabricated with hlabel | hrow
    · exact (mem_checkCitations htoken hlabel).mp (hreported.cited token htoken hlabel)
    · exact (mem_checkEvidenceCitations hrow).mp (hreported.rows token htoken hrow)
  · intro hplain
    constructor
    · intro token htoken hlabel
      exact (mem_checkCitations htoken hlabel).mpr (hplain token htoken (.inl hlabel))
    · intro token htoken hrow
      exact (mem_checkEvidenceCitations hrow).mpr (hplain token htoken (.inr hrow))
    · exact sortedDistinct_strict _
    · exact sortedDistinct_strict _

/-- An unclosed bracket hides the fabricated citations behind it. -/
theorem unclosed_bracket_hides_citation :
    ¬ FabricationsReported "[1, see [docs/none]" [] [] ∧
      ¬ FabricationsReported "[1, see [evidence/none#r1]" [] [] := by
  constructor
  · intro h
    have hmem := h.cited "docs/none"
      ⟨"[1, see ".toList, "docs/none".toList, [], by decide, by decide, by decide, by decide,
        by decide⟩ ⟨by decide, by simp⟩
    revert hmem
    decide +kernel
  · intro h
    have hmem := h.rows "evidence/none#r1"
      ⟨"[1, see ".toList, "evidence/none#r1".toList, [], by decide, by decide, by decide,
        by decide, by decide⟩
      ⟨"none", "r1", by decide, by decide, by decide, by decide, by simp⟩
    revert hmem
    decide +kernel

end Munarium

import Munarium.Server.Verification

/-! When correct citations pass. Every token in brackets is read by both checks, and each of them
knows only its own vocabulary. -/
namespace Munarium

/-- A token that stands in brackets. -/
def Bracketed (answer token : String) : Prop :=
  ∃ before inner after, answer.toList = before ++ '[' :: (inner ++ ']' :: after) ∧
    ']' ∉ inner ∧ String.ofList (trimChars inner) = token

/-- The brackets of an answer are not nested. -/
def FlatBrackets (answer : String) : Prop := Delimited.Flat '[' ']' answer.toList

theorem bracketed_of_mem {answer token : String} (h : token ∈ bracketTokens answer) :
    Bracketed answer token := by
  obtain ⟨inner, hmem, rfl⟩ := List.mem_map.mp h
  obtain ⟨before, after, heq, hinner⟩ := Delimited.exists_of_mem_spans hmem
  exact ⟨before, inner, after, heq, hinner, rfl⟩

/-- Where brackets are not nested, the checks see every token in them. -/
theorem mem_bracketTokens {answer token : String} (hflat : FlatBrackets answer) :
    token ∈ bracketTokens answer ↔ Bracketed answer token := by
  constructor
  · exact bracketed_of_mem
  · intro h
    obtain ⟨before, inner, after, heq, hinner, rfl⟩ := h
    exact List.mem_map_of_mem (Delimited.mem_spans (by decide) hflat heq hinner)

/-- The citation that a row of a table is shown with. -/
def TableBlock.citationId (t : TableBlock) (i : ℕ) : Option String :=
  t.evidenceId.map fun id => "evidence/" ++ id ++ "#" ++ tableRowId t i

/-- A token that cites a row of one of the tables. -/
def RowCitation (blocks : List (String × EvidenceBlock)) (token : String) : Prop :=
  ∃ name t, (name, EvidenceBlock.completeTable t) ∈ blocks ∧
    ∃ i < t.rows.length, t.citationId i = some token

/-- An answer in which every token that can be read as a citation is one. -/
structure CitesCorrectly (o : HierarchyOutcome) (answer : String) : Prop where
  flat : FlatBrackets answer
  tokens : ∀ token, Bracketed answer token → '/' ∈ token.toList →
    token ∈ (ServedTurn.ofOutcome o).labels ∨ RowCitation o.blocks token

/-- Evidence ids in which a citation's row cannot start. -/
def PlainEvidenceIds (blocks : List (String × EvidenceBlock)) : Prop :=
  ∀ name t id, (name, EvidenceBlock.completeTable t) ∈ blocks → t.evidenceId = some id →
    '#' ∉ id.toList

theorem unservedLabel_eq_false_iff {labels : List String} {token : String} :
    unservedLabel labels token = false ↔
      ('/' ∈ token.toList → '\n' ∈ token.toList ∨ token ∈ labels) := by
  unfold unservedLabel
  by_cases hslash : '/' ∈ token.toList
  · have hne : token.isEmpty = false := by
      rw [String.isEmpty_eq_false_iff]
      rintro rfl
      simp at hslash
    simp [hslash, hne]
    tauto
  · simp [hslash]

theorem checkCitations_eq_nil {answer : String} {labels : List String} :
    checkCitations answer labels = [] ↔
      ∀ token ∈ bracketTokens answer, '/' ∈ token.toList →
        '\n' ∈ token.toList ∨ token ∈ labels := by
  unfold checkCitations
  rw [sortedDistinct_eq_nil, List.filter_eq_nil_iff]
  simp only [Bool.not_eq_true, unservedLabel_eq_false_iff]

theorem checkEvidenceCitations_eq_nil {answer : String} {served : List ServedEvidence} :
    checkEvidenceCitations answer served = [] ↔
      ∀ token ∈ bracketTokens answer, unservedRow served token = false := by
  unfold checkEvidenceCitations
  rw [sortedDistinct_eq_nil, List.filter_eq_nil_iff]
  simp only [Bool.not_eq_true]

theorem cut_hash {token id rowId : List Char} (h : '#' ∉ id) (heq : token = id ++ '#' :: rowId) :
    Delimited.cut '#' token = some (id, rowId) :=
  Delimited.cut_eq_some_iff.mpr ⟨heq, h⟩

/-- What a reference to a row reads as. -/
theorem parseEvidenceRef_eq_some {token id rowId : String} :
    parseEvidenceRef token = some (id, rowId) ↔
      token = "evidence/" ++ id ++ "#" ++ rowId ∧ '#' ∉ id.toList ∧ id ≠ "" ∧ rowId ≠ "" := by
  unfold parseEvidenceRef
  simp only [Option.bind_eq_some_iff]
  constructor
  · rintro ⟨rest, hstrip, ⟨a, b⟩, hcut, hparts⟩
    split_ifs at hparts with hempty
    simp only [Option.some.injEq, Prod.mk.injEq] at hparts
    obtain ⟨rfl, rfl⟩ := hparts
    obtain ⟨hrest, hhash⟩ := Delimited.cut_eq_some_iff.mp hcut
    simp only [Bool.or_eq_true, List.isEmpty_iff, not_or] at hempty
    refine ⟨?_, by simpa using hhash, by simpa using hempty.1, by simpa using hempty.2⟩
    have hjoin : rest = String.ofList a ++ "#" ++ String.ofList b := by
      apply String.toList_inj.mp
      simp [hrest]
    rw [MatrixProvider.stripStart_eq_some hstrip, hjoin]
    simp only [String.append_assoc]
  · rintro ⟨rfl, hhash, hid, hrow⟩
    refine ⟨id ++ "#" ++ rowId, ?_, (id.toList, rowId.toList), cut_hash hhash (by simp), ?_⟩
    · simp only [String.append_assoc]
      exact MatrixProvider.stripStart_append _ _
    · simp [hid, hrow]

/-- An id without a hash and a row can be told apart in a reference. -/
theorem reference_inj {id id' rowId rowId' : String} (h : '#' ∉ id.toList)
    (h' : '#' ∉ id'.toList)
    (heq : "evidence/" ++ id ++ "#" ++ rowId = "evidence/" ++ id' ++ "#" ++ rowId') :
    id = id' ∧ rowId = rowId' := by
  have hlists : id.toList ++ '#' :: rowId.toList = id'.toList ++ '#' :: rowId'.toList := by
    have := congrArg String.toList heq
    simpa using this
  have hcut := (cut_hash h hlists.symm).symm.trans (cut_hash h' rfl)
  simp only [Option.some.injEq, Prod.mk.injEq, String.toList_inj] at hcut
  exact hcut

theorem parseEvidenceRef_slash {token : String} {r : String × String}
    (h : parseEvidenceRef token = some r) : '/' ∈ token.toList := by
  obtain ⟨rfl, -⟩ := parseEvidenceRef_eq_some.mp (show _ = some (r.1, r.2) from h)
  simp

theorem row_isSome_iff {e : ServedEvidence} {rowId : String} :
    (e.row rowId).isSome = true ↔ ∃ cells, (rowId, cells) ∈ e.rows := by
  unfold ServedEvidence.row
  simp [List.find?_isSome]

theorem mem_servedEvidence {blocks : List (String × EvidenceBlock)} {e : ServedEvidence} :
    e ∈ servedEvidence blocks ↔
      ∃ name t, (name, EvidenceBlock.completeTable t) ∈ blocks ∧ servedTable t = some e := by
  unfold servedEvidence
  rw [List.mem_filterMap]
  constructor
  · rintro ⟨⟨name, b⟩, hmem, hb⟩
    cases b with
    | completeTable t => exact ⟨name, t, hmem, hb⟩
    | documentHits | count | factSlice | refusal => cases hb
  · rintro ⟨name, t, hmem, hb⟩
    exact ⟨_, hmem, hb⟩

/-- The rows that the checks know are the ones with citations. -/
theorem served_iff_rowCitation {blocks : List (String × EvidenceBlock)} {token id rowId : String}
    (hplain : PlainEvidenceIds blocks) (h : parseEvidenceRef token = some (id, rowId)) :
    ((servedEvidence blocks).any fun e => e.evidenceId == id && (e.row rowId).isSome) = true ↔
      RowCitation blocks token := by
  simp only [List.any_eq_true, Bool.and_eq_true, beq_iff_eq, row_isSome_iff, mem_servedEvidence]
  constructor
  · rintro ⟨e, ⟨name, t, hmem, htable⟩, rfl, cells, hcells⟩
    obtain ⟨id, hid, rfl⟩ := Option.map_eq_some_iff.mp htable
    obtain ⟨i, hi, heq⟩ := List.mem_mapIdx.mp hcells
    simp only [Prod.mk.injEq] at heq
    refine ⟨name, t, hmem, i, hi, ?_⟩
    rw [TableBlock.citationId, hid, (parseEvidenceRef_eq_some.mp h).1, heq.1]
    rfl
  · rintro ⟨name, t, hmem, i, hi, hcite⟩
    obtain ⟨id', hid, hcited⟩ := Option.map_eq_some_iff.mp hcite
    obtain ⟨heq, hhash, -⟩ := parseEvidenceRef_eq_some.mp h
    obtain ⟨rfl, rfl⟩ := reference_inj (hplain name t id' hmem hid) hhash (hcited.trans heq)
    have htable : servedTable t =
        some ⟨id', t.rows.mapIdx fun i row => (tableRowId t i, cellTexts row)⟩ := by
      rw [servedTable, hid]
      rfl
    exact ⟨_, ⟨name, t, hmem, htable⟩, rfl, _, List.mem_mapIdx.mpr ⟨i, hi, rfl⟩⟩

theorem unservedRow_eq_false_iff {blocks : List (String × EvidenceBlock)} {token : String}
    (hplain : PlainEvidenceIds blocks) :
    unservedRow (servedEvidence blocks) token = false ↔
      ((parseEvidenceRef token).isSome = true → RowCitation blocks token) := by
  unfold unservedRow
  cases hparse : parseEvidenceRef token with
  | none => simp
  | some r =>
    simp only [Bool.not_eq_eq_eq_not, Bool.not_false, Option.isSome_some, forall_const]
    exact served_iff_rowCitation hplain hparse

/-- Where an answer's citations meet no check that does not know them: a cited row is a label too,
or is of several lines, and a cited label that reads as a reference to a row is one. -/
structure KnownToBoth (o : HierarchyOutcome) (answer : String) : Prop where
  rows : ∀ token, Bracketed answer token → RowCitation o.blocks token →
    token ∈ (ServedTurn.ofOutcome o).labels ∨ '\n' ∈ token.toList
  labels : ∀ token, Bracketed answer token → token ∈ (ServedTurn.ofOutcome o).labels →
    (parseEvidenceRef token).isSome = true → RowCitation o.blocks token

theorem RowCitation.slash {blocks : List (String × EvidenceBlock)} {token : String}
    (h : RowCitation blocks token) : '/' ∈ token.toList := by
  obtain ⟨name, t, -, i, -, hid⟩ := h
  obtain ⟨id, -, rfl⟩ := Option.map_eq_some_iff.mp hid
  simp

/-- Correct citations pass both checks where each is known to both, and only there. -/
theorem citationChecks_eq_nil_iff {o : HierarchyOutcome} {answer : String}
    (h : CitesCorrectly o answer) (hplain : PlainEvidenceIds o.blocks) :
    (ServedTurn.ofOutcome o).citationChecks answer = [] ↔ KnownToBoth o answer := by
  unfold ServedTurn.citationChecks
  rw [List.append_eq_nil_iff, List.map_eq_nil_iff, List.map_eq_nil_iff, checkCitations_eq_nil,
    checkEvidenceCitations_eq_nil]
  simp only [mem_bracketTokens h.flat]
  constructor
  · intro ⟨hlabels, hrows⟩
    constructor
    · intro token hin hrow
      exact (hlabels token hin hrow.slash).symm
    · intro token hin _ hparse
      exact (unservedRow_eq_false_iff hplain).mp (hrows token hin) hparse
  · intro hboth
    constructor
    · intro token hin hslash
      rcases h.tokens token hin hslash with hlabel | hrow
      · exact Or.inr hlabel
      · exact (hboth.rows token hin hrow).symm
    · intro token hin
      apply (unservedRow_eq_false_iff hplain).mpr
      intro hparse
      obtain ⟨r, hr⟩ := Option.isSome_iff_exists.mp hparse
      rcases h.tokens token hin (parseEvidenceRef_slash hr) with hlabel | hrow
      · exact hboth.labels token hin hlabel hparse
      · exact hrow

def sales : TableBlock := ⟨["region"], [[some "north"]], ["r0001"], false, some "ev-1"⟩

def salesPlan : EvidencePlan :=
  ⟨"p", ⟨"q", none, true, SortedMap.empty⟩,
    [⟨"sales", ["matrix:sales"], .required, .primary, none, true, none⟩], none,
    "preserve_and_disclose"⟩

def salesTurn : Turn :=
  ⟨[⟨"matrix", (· == "matrix:sales"), fun _ _ _ => .ok (.completeTable sales)⟩],
    fun _ _ => .ok {}, fun _ => 0⟩

def salesOutcome : HierarchyOutcome where
  decision := decisionOf salesPlan (runLayers salesTurn salesPlan.intent
    salesPlan.layers.zipIdx (started salesPlan)).1
  blocks := [("sales", .completeTable sales)]
  documents := none
  documentEvidence := []

/-- The citation that the table's row is shown with, in brackets. -/
def salesAnswer : String := "[evidence/ev-1#r0001]"

theorem salesAnswer_flat : FlatBrackets salesAnswer :=
  Delimited.flat_cons (by decide : '[' ∉ "evidence/ev-1#r0001]".toList)

theorem salesAnswer_tokens : bracketTokens salesAnswer = ["evidence/ev-1#r0001"] := by
  decide +kernel

theorem salesAnswer_correct : CitesCorrectly salesOutcome salesAnswer where
  flat := salesAnswer_flat
  tokens token hin _ := by
    have hmem := (mem_bracketTokens salesAnswer_flat).mpr hin
    rw [salesAnswer_tokens, List.mem_singleton] at hmem
    subst hmem
    right
    exact ⟨"sales", sales, List.mem_cons_self, 0, by decide, by decide⟩

theorem salesOutcome_plain : PlainEvidenceIds salesOutcome.blocks := by
  intro name t id hmem hid
  simp only [salesOutcome, List.mem_singleton, Prod.mk.injEq, EvidenceBlock.completeTable.injEq]
    at hmem
  rw [hmem.2] at hid
  cases hid
  decide

/-- A row that is cited as it was shown is reported as unserved. -/
theorem correct_row_rejected :
    (executePlan salesPlan salesTurn).2 = .ok salesOutcome ∧
      CitesCorrectly salesOutcome salesAnswer ∧ PlainEvidenceIds salesOutcome.blocks ∧
      (ServedTurn.ofOutcome salesOutcome).citationChecks salesAnswer =
        ["citation: evidence/ev-1#r0001"] :=
  ⟨rfl, salesAnswer_correct, salesOutcome_plain, by decide +kernel⟩

theorem citationChecks_eq_nil_iff_sales : ¬ KnownToBoth salesOutcome salesAnswer := by
  intro hboth
  have hnil := (citationChecks_eq_nil_iff salesAnswer_correct salesOutcome_plain).mpr hboth
  have hsome : (ServedTurn.ofOutcome salesOutcome).citationChecks salesAnswer ≠ [] := by
    decide +kernel
  exact hsome hnil

end Munarium

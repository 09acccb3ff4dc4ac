import Munarium.Server.CitationChecks

/-! The typed assertions of an answer: the fences they come in, and when their check agrees with
the check of citations. -/
namespace Munarium

def FENCE : List Char := ['\x60', '\x60', '\x60']

def ASSERTIONS_FENCE : List Char := FENCE ++ "assertions".toList

/-- `extract_assertions`; `parse` reads a block's JSON. -/
def extractAssertions (parse : String → Except String (List TypedAssertion)) (answer : String) :
    Except String (List TypedAssertion) :=
  match Delimited.cutAt ASSERTIONS_FENCE answer.toList with
  | none => .ok []
  | some (_, body) =>
      match Delimited.cutAt FENCE body with
      | none => .error "assertions block is not closed"
      | some (block, _) =>
          (parse (trim (String.ofList block))).mapError ("block does not parse: " ++ ·)

/-- The fences of a text from the left, each with what it encloses where it is closed. -/
def fences (text : List Char) : List (Option (List Char)) :=
  match hopen : Delimited.cutAt ASSERTIONS_FENCE text with
  | none => []
  | some (_, body) =>
      match hclose : Delimited.cutAt FENCE body with
      | none => [none]
      | some (block, rest) =>
          have := (Delimited.length_cutAt (by decide) hclose).trans
            (Delimited.length_cutAt (by decide) hopen)
          some block :: fences rest
termination_by text.length

section Fences

variable (parse : String → Except String (List TypedAssertion))

/-- What a fence says: its assertions, or how it is malformed. -/
def readFence : Option (List Char) → Except String (List TypedAssertion)
  | none => .error "assertions block is not closed"
  | some block => (parse (trim (String.ofList block))).mapError ("block does not parse: " ++ ·)

/-- A reading under which a fence's assertions are checked, or the fence is reported. -/
def Handled (reading : Except String (List TypedAssertion)) (fence : Option (List Char)) : Prop :=
  match readFence parse fence with
  | .ok assertions => ∀ a ∈ assertions, ∃ checked, reading = .ok checked ∧ a ∈ checked
  | .error report => reading = .error report

/-- No later fence says anything that the first one does not. -/
def FirstSaysAll : List (Option (List Char)) → Prop
  | [] => True
  | first :: later => ∀ fence ∈ later, Handled parse (readFence parse first) fence

theorem handled_self (fence : Option (List Char)) :
    Handled parse (readFence parse fence) fence := by
  unfold Handled
  split
  · rename_i assertions hread
    intro a ha
    exact ⟨assertions, hread, ha⟩
  · assumption

/-- Only the first fence is read. -/
theorem extractAssertions_eq (answer : String) : extractAssertions parse answer =
    match fences answer.toList with
    | [] => .ok []
    | first :: _ => readFence parse first := by
  unfold extractAssertions
  fun_cases fences answer.toList with
  | case1 hopen => simp only [hopen]
  | case2 before body hopen hclose => simp only [hopen, hclose, readFence]
  | case3 before body hopen block rest hclose hlt => simp only [hopen, hclose, readFence]

theorem handled_iff (answer : String) :
    (∀ fence ∈ fences answer.toList, Handled parse (extractAssertions parse answer) fence) ↔
      FirstSaysAll parse (fences answer.toList) := by
  rw [extractAssertions_eq]
  cases fences answer.toList with
  | nil => simp [FirstSaysAll]
  | cons first later =>
    simp only [List.forall_mem_cons, FirstSaysAll]
    exact and_iff_right (handled_self parse first)

end Fences

section Served

variable (served : List ServedEvidence)

/-- A row that was served, of any artifact with the id. -/
def ServedRow (id rowId : String) (cells : List String) : Prop :=
  ∃ e ∈ served, e.evidenceId = id ∧ (rowId, cells) ∈ e.rows

/-- The first row with the id of the first artifact with the id. -/
def firstRow (id rowId : String) : Option (List String) :=
  (served.find? fun e => e.evidenceId == id).bind fun e => e.row rowId

/-- A reference that stands in brackets as it is. -/
def Bracketable (ref : String) : Prop := ']' ∉ ref.toList ∧ trim ref = ref

variable {served} {ref id rowId : String}

theorem resolveRef_eq (h : parseEvidenceRef ref = some (id, rowId)) :
    resolveRef served ref = firstRow served id rowId := by
  simp only [resolveRef, h, Option.bind_some, firstRow]

theorem firstRow_served {cells : List String} (h : firstRow served id rowId = some cells) :
    ServedRow served id rowId cells := by
  obtain ⟨e, hfind, hcells⟩ := Option.bind_eq_some_iff.mp h
  obtain ⟨row, hrow, rfl⟩ := Option.map_eq_some_iff.mp hcells
  have hid : e.evidenceId = id := by simpa using List.find?_some hfind
  have hrowId : row.1 = rowId := by simpa using List.find?_some hrow
  exact ⟨e, List.mem_of_find?_eq_some hfind, hid, hrowId ▸ List.mem_of_find?_eq_some hrow⟩

theorem unservedRow_iff (h : parseEvidenceRef ref = some (id, rowId)) :
    unservedRow served ref = false ↔ ∃ cells, ServedRow served id rowId cells := by
  simp only [unservedRow, h, Bool.not_eq_false', List.any_eq_true, Bool.and_eq_true, beq_iff_eq,
    row_isSome_iff, ServedRow]
  constructor
  · rintro ⟨e, he, hid, cells, hcells⟩
    exact ⟨cells, e, he, hid, hcells⟩
  · rintro ⟨cells, e, he, hid, hcells⟩
    exact ⟨e, he, hid, cells, hcells⟩

theorem bracketTokens_single (h : Bracketable ref) : bracketTokens ("[" ++ ref ++ "]") = [ref] := by
  have hlist : ("[" ++ ref ++ "]").toList = '[' :: (ref.toList ++ [']']) := by simp
  have hopen : Delimited.cut '[' ('[' :: (ref.toList ++ [']'])) = some ([], ref.toList ++ [']']) :=
    Delimited.cut_eq_some_iff.mpr ⟨rfl, List.not_mem_nil⟩
  have hclose : Delimited.cut ']' (ref.toList ++ [']']) = some (ref.toList, []) :=
    Delimited.cut_eq_some_iff.mpr ⟨rfl, h.1⟩
  have hspans : Delimited.spans '[' ']' ('[' :: (ref.toList ++ [']'])) = [ref.toList] := by
    rw [Delimited.spans_eq_cons hopen hclose, Delimited.spans_nil]
  have htrim : String.ofList (trimChars ref.toList) = ref := h.2
  simp only [bracketTokens, hlist, hspans, List.map_cons, htrim, List.map_nil]

/-- An assertion of one reference passes where the first row has its value. -/
theorem checkAssertions_eq_nil_iff {a : TypedAssertion} (href : a.evidenceRefs = [ref])
    (h : parseEvidenceRef ref = some (id, rowId)) : checkAssertions [a] served = [] ↔
      ∃ cells, firstRow served id rowId = some cells ∧ ∃ c ∈ cells, trim c = trim a.value := by
  have hsingle : checkAssertions [a] served =
      ([ref].filterMap (refViolation a served)) ++ (valueViolation a served).toList := by
    simp [checkAssertions, checkAssertion, href]
  rw [hsingle, ← resolveRef_eq h]
  cases hresolve : resolveRef served ref with
  | none => simp [refViolation, h, hresolve]
  | some cells => simp [refViolation, h, hresolve, valueViolation, href]

variable (served)

/-- Every served row that can be cited is found by its reference, and each of its cells is a cell
of the row that is found. -/
structure FirstRowsSpeak : Prop where
  found : ∀ ref id rowId cells, parseEvidenceRef ref = some (id, rowId) → Bracketable ref →
    ServedRow served id rowId cells → (firstRow served id rowId).isSome = true
  cells : ∀ ref id rowId cells, parseEvidenceRef ref = some (id, rowId) →
    ServedRow served id rowId cells → ∀ c ∈ cells,
      ∃ first, firstRow served id rowId = some first ∧ ∃ d ∈ first, trim d = trim c

end Served

/-- The assertions of an answer are all checked, and their check agrees with the check of citations
and with the cells that were served. -/
structure AssertionsAgree (parse : String → Except String (List TypedAssertion)) (answer : String)
    (served : List ServedEvidence) : Prop where
  handled : ∀ fence ∈ fences answer.toList, Handled parse (extractAssertions parse answer) fence
  cited : ∀ ref, (parseEvidenceRef ref).isSome = true → Bracketable ref →
    ((resolveRef served ref).isSome = true ↔
      checkEvidenceCitations ("[" ++ ref ++ "]") served = [])
  valued : ∀ a ref id rowId, a.evidenceRefs = [ref] → parseEvidenceRef ref = some (id, rowId) →
    (∃ cells, ServedRow served id rowId cells) → (checkAssertions [a] served ≠ [] ↔
      ¬ ∃ cells, ServedRow served id rowId cells ∧ ∃ c ∈ cells, trim c = trim a.value)

theorem citedAccepted_iff {served : List ServedEvidence} {ref id rowId : String}
    (h : parseEvidenceRef ref = some (id, rowId)) (hbracket : Bracketable ref) :
    checkEvidenceCitations ("[" ++ ref ++ "]") served = [] ↔
      ∃ cells, ServedRow served id rowId cells := by
  rw [checkEvidenceCitations_eq_nil, bracketTokens_single hbracket, List.forall_mem_singleton,
    unservedRow_iff h]

/-- The checks do what they should exactly where the first fence says all and the first rows do. -/
theorem assertions_agree_iff (parse : String → Except String (List TypedAssertion))
    (answer : String) (served : List ServedEvidence) : AssertionsAgree parse answer served ↔
      FirstSaysAll parse (fences answer.toList) ∧ FirstRowsSpeak served := by
  constructor
  · intro h
    constructor
    · exact (handled_iff parse answer).mp h.handled
    · constructor
      case found =>
        intro ref id rowId cells hparse hbracket hrow
        rw [← resolveRef_eq hparse]
        exact (h.cited ref (by rw [hparse]; rfl) hbracket).mpr
          ((citedAccepted_iff hparse hbracket).mpr ⟨cells, hrow⟩)
      case cells =>
        intro ref id rowId cells hparse hrow c hc
        obtain ⟨a, hvalue, href⟩ : ∃ a : TypedAssertion, a.value = c ∧ a.evidenceRefs = [ref] :=
          ⟨⟨c, none, none, none, [ref]⟩, rfl, rfl⟩
        have hiff := h.valued a ref id rowId href hparse ⟨cells, hrow⟩
        have hnil : checkAssertions [a] served = [] := by
          by_contra hne
          exact hiff.mp hne ⟨cells, hrow, c, hc, by rw [hvalue]⟩
        rw [← hvalue]
        exact (checkAssertions_eq_nil_iff href hparse).mp hnil
  · intro h
    obtain ⟨hfences, hrows⟩ := h
    constructor
    case handled => exact (handled_iff parse answer).mpr hfences
    case cited =>
      intro ref hparse hbracket
      obtain ⟨⟨id, rowId⟩, hparse⟩ := Option.isSome_iff_exists.mp hparse
      rw [citedAccepted_iff hparse hbracket, resolveRef_eq hparse]
      constructor
      · intro hfound
        obtain ⟨cells, hfirst⟩ := Option.isSome_iff_exists.mp hfound
        exact ⟨cells, firstRow_served hfirst⟩
      · intro hserved
        obtain ⟨cells, hrow⟩ := hserved
        exact hrows.found ref id rowId cells hparse hbracket hrow
    case valued =>
      intro a ref id rowId href hparse _
      rw [Ne, checkAssertions_eq_nil_iff href hparse, not_iff_not]
      constructor
      · intro hfirst
        obtain ⟨cells, hfirst, hvalue⟩ := hfirst
        exact ⟨cells, firstRow_served hfirst, hvalue⟩
      · intro hserved
        obtain ⟨cells, hrow, c, hc, hvalue⟩ := hserved
        obtain ⟨first, hfirst, d, hd, heq⟩ := hrows.cells ref id rowId cells hparse hrow c hc
        exact ⟨first, hfirst, d, hd, heq.trans hvalue⟩

def northCount : TypedAssertion := ⟨"12", none, none, none, []⟩

/-- The reading of two blocks. -/
def blockJson (text : String) : Except String (List TypedAssertion) :=
  if text = "[]" then .ok []
  else if text = "[\x7b\"value\":\"12\"\x7d]" then .ok [northCount]
  else .error "expected value"

/-- An answer with two fences. -/
def twoFences : String :=
  String.ofList (ASSERTIONS_FENCE ++ "[]".toList ++ FENCE ++ ASSERTIONS_FENCE ++
    "[\x7b\"value\":\"12\"\x7d]".toList ++ FENCE)

/-- An artifact that two layers have read in part. -/
def readTwice : List ServedEvidence :=
  [⟨"ev-1", [("r0001", ["north"])]⟩, ⟨"ev-1", [("r0002", ["south"])]⟩]

/-- A second fence goes unread, and a row that a second layer served is taken for unserved. -/
theorem second_fence_unread :
    ¬ AssertionsAgree blockJson twoFences [] ∧ ¬ AssertionsAgree blockJson "" readTwice := by
  constructor
  · intro h
    have hmem : some "[\x7b\"value\":\"12\"\x7d]".toList ∈ fences twoFences.toList := by
      decide +kernel
    have hread : readFence blockJson (some "[\x7b\"value\":\"12\"\x7d]".toList) =
        .ok [northCount] := by rfl
    have hextract : extractAssertions blockJson twoFences = .ok [] := by rfl
    have hhandled := h.handled _ hmem
    simp only [Handled, hread, hextract, List.forall_mem_singleton] at hhandled
    obtain ⟨checked, hchecked, hin⟩ := hhandled
    cases hchecked
    cases hin
  · intro h
    have hbracket : Bracketable "evidence/ev-1#r0002" := ⟨by decide +kernel, by decide +kernel⟩
    have hiff := h.cited "evidence/ev-1#r0002" (by decide +kernel) hbracket
    have haccepted : checkEvidenceCitations "[evidence/ev-1#r0002]" readTwice = [] := by
      decide +kernel
    have hunresolved : (resolveRef readTwice "evidence/ev-1#r0002").isSome = false := by
      decide +kernel
    rw [hiff.mpr haccepted] at hunresolved
    cases hunresolved

end Munarium

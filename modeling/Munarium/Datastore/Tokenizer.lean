import Munarium.Retrieval.Chunker

/-! The classifying tokenizer: one pass over the characters of a text. -/
namespace Munarium

/-- The letters and numbers outside ASCII, as the toolchain's Unicode version has them. -/
class UnicodeAlphanumeric where
  alphanumeric : Char → Bool

structure Token where
  offsetFrom : ℕ
  offsetTo : ℕ
  position : ℕ
  text : List Char
  positionLength : ℕ
  deriving DecidableEq

/-- `char::is_alphanumeric`. -/
def isAlphanumeric [UnicodeAlphanumeric] (c : Char) : Bool :=
  if c.toNat < 128 then c.isAlphanum else UnicodeAlphanumeric.alphanumeric c

def isLetter [UnicodeAlphanumeric] (c : Char) : Bool := isAlphanumeric c && !c.isDigit

section Scan
variable (chars : List Char)

def atDigit (i : ℕ) : Bool := chars[i]?.any Char.isDigit

def isAt (c : Char) (i : ℕ) : Bool := chars[i]? == some c

/-- The exclusive end of the run of such characters from here. -/
def runWhile (p : Char → Bool) (i : ℕ) : ℕ := i + ((chars.drop i).takeWhile p).length

def digitsEnd (i : ℕ) : ℕ := runWhile chars Char.isDigit i

def runHasDigit (a b : ℕ) : Bool := ((chars.take b).drop a).any Char.isDigit

def runAllLetters (a b : ℕ) : Bool := ((chars.take b).drop a).all fun c => !c.isDigit

theorem le_runWhile (p : Char → Bool) (i : ℕ) : i ≤ runWhile chars p i := Nat.le_add_right _ _

theorem lt_length_of_isAt {c : Char} {i : ℕ} (h : isAt chars c i = true) : i < chars.length := by
  by_contra hlong
  have hnone : chars[i]? = none := List.getElem?_eq_none (not_lt.mp hlong)
  simp [isAt, hnone] at h

/-- Runs that one separator joins, as long as one starts behind it. -/
def joinRuns (sep : Char) (starts inside : Char → Bool) (i : ℕ) : ℕ :=
  if isAt chars sep i && chars[i + 1]?.any starts then
    joinRuns sep starts inside (runWhile chars inside (i + 1))
  else i
termination_by chars.length - i
decreasing_by
  rename_i h
  have hlt := lt_length_of_isAt chars (Bool.and_eq_true_iff.mp h).1
  have hle := le_runWhile chars inside (i + 1)
  omega

/-- Digit groups that dots join. -/
def dottedDigits (i : ℕ) : ℕ := joinRuns chars '.' Char.isDigit Char.isDigit i

def afterSign (i : ℕ) : ℕ := if isAt chars '+' i || isAt chars '-' i then i + 1 else i

section Runs
variable {chars : List Char} {i : ℕ}

theorem le_joinRuns (sep : Char) (starts inside : Char → Bool) (i : ℕ) :
    i ≤ joinRuns chars sep starts inside i := by
  fun_induction joinRuns chars sep starts inside i with
  | case1 i _ ih =>
    have hle := le_runWhile chars inside (i + 1)
    omega
  | case2 i _ => exact le_refl i

theorem lt_runWhile {p : Char → Bool} {c : Char} (h : chars[i]? = some c) (hc : p c = true) :
    i < runWhile chars p i := by
  obtain ⟨hi, hget⟩ := List.getElem?_eq_some_iff.mp h
  rw [runWhile, List.drop_eq_getElem_cons hi, hget, List.takeWhile_cons_of_pos hc,
    List.length_cons]
  omega

theorem le_afterSign (chars : List Char) (i : ℕ) : i ≤ afterSign chars i := by
  unfold afterSign
  split_ifs <;> omega

end Runs

variable [UnicodeAlphanumeric]

def atLetter (i : ℕ) : Bool := chars[i]?.any isLetter

def runEnd (i : ℕ) : ℕ := runWhile chars isAlphanumeric i

/-- The digit/slash join. -/
def slashJoin (i : ℕ) : ℕ := joinRuns chars '/' Char.isDigit isAlphanumeric i

/-- Runs that dots join. -/
def dottedRuns (i : ℕ) : ℕ := joinRuns chars '.' isAlphanumeric isAlphanumeric i

def isScientificTail (i : ℕ) : Bool :=
  (isAt chars 'e' i || isAt chars 'E' i) && atDigit chars (afterSign chars (i + 1)) &&
    !atLetter chars (digitsEnd chars (afterSign chars (i + 1)))

def consumeNumber (start : ℕ) : ℕ :=
  let i := dottedDigits chars (digitsEnd chars start)
  if isScientificTail chars i then digitsEnd chars (afterSign chars (i + 1)) else i

def startsLetterChain (i : ℕ) : Bool := isAt chars '-' i && atLetter chars (i + 1)

/-- The further parts of a hyphen chain, up to the first one that has a digit. -/
def chainParts (j : ℕ) : List (ℕ × ℕ) :=
  if isAt chars '-' j && atLetter chars (j + 1) then
    if runAllLetters chars (j + 1) (runEnd chars (j + 1)) then
      (j + 1, runEnd chars (j + 1)) :: chainParts (runEnd chars (j + 1))
    else []
  else []
termination_by chars.length - j
decreasing_by
  rename_i h _
  have hlt := lt_length_of_isAt chars (Bool.and_eq_true_iff.mp h).1
  have hle : j + 1 ≤ runEnd chars (j + 1) := le_runWhile chars isAlphanumeric (j + 1)
  omega

/-- The end of a number that does not start with a sign. -/
def numberEnd (i : ℕ) : ℕ :=
  let stop := digitsEnd chars i
  if atLetter chars stop && !isScientificTail chars stop then max stop (runEnd chars stop)
  else if isAt chars '/' stop && atDigit chars (stop + 1) then slashJoin chars stop
  else consumeNumber chars i

/-- The end of a word that is not compound. -/
def wordEnd (i : ℕ) : ℕ :=
  let stop := runEnd chars i
  if runHasDigit chars i stop then dottedRuns chars stop else stop

/-- What one turn of the loop pushes, and where the next one starts. -/
def scanTurn (i : ℕ) (c : Char) : List (ℕ × ℕ) × ℕ :=
  if (c == '-' || c == '+') && atDigit chars (i + 1) then
    ([(i, consumeNumber chars (i + 1))], consumeNumber chars (i + 1))
  else if c.isDigit then ([(i, numberEnd chars i)], numberEnd chars i)
  else if isAlphanumeric c then
    let stop := runEnd chars i
    let parts := if runAllLetters chars i stop && startsLetterChain chars stop then
      (i, stop) :: chainParts chars stop else [(i, stop)]
    match parts.tail.getLast? with
    | some (_, chainEnd) => ((i, chainEnd) :: parts, chainEnd)
    | none => ([(i, wordEnd chars i)], wordEnd chars i)
  else ([], i + 1)

def pushToken (span : ℕ × ℕ) (position : ℕ) : Token :=
  { offsetFrom := byteLen (chars.take span.1)
    offsetTo := byteLen (chars.take span.2)
    position := position
    text := (chars.take span.2).drop span.1
    positionLength := 1 }

/-- The tokens of the spans, each at the next position. -/
def pushAll (position : ℕ) : List (ℕ × ℕ) → List Token
  | [] => []
  | span :: spans => pushToken chars span position :: pushAll (position + 1) spans

section Progress
variable {chars : List Char} {i : ℕ}

theorem digitsEnd_le_consumeNumber (chars : List Char) (i : ℕ) :
    digitsEnd chars i ≤ consumeNumber chars i := by
  have hdots : digitsEnd chars i ≤ dottedDigits chars (digitsEnd chars i) := le_joinRuns _ _ _ _
  unfold consumeNumber
  dsimp only
  split_ifs
  · have hsign := le_afterSign chars (dottedDigits chars (digitsEnd chars i) + 1)
    have hrun := le_runWhile chars Char.isDigit
      (afterSign chars (dottedDigits chars (digitsEnd chars i) + 1))
    unfold digitsEnd at *
    omega
  · exact hdots

theorem digitsEnd_le_numberEnd (i : ℕ) : digitsEnd chars i ≤ numberEnd chars i := by
  unfold numberEnd
  dsimp only
  split_ifs
  · exact le_max_left _ _
  · exact le_joinRuns _ _ _ _
  · exact digitsEnd_le_consumeNumber chars i

theorem runEnd_le_wordEnd (i : ℕ) : runEnd chars i ≤ wordEnd chars i := by
  unfold wordEnd
  dsimp only
  split_ifs
  · exact le_joinRuns _ _ _ _
  · exact le_refl _

theorem chainParts_getLast {s : ℕ × ℕ} {j : ℕ} (h : (chainParts chars j).getLast? = some s) :
    j < s.2 := by
  fun_induction chainParts chars j with
  | case1 j _ _ ih =>
    have hle : j + 1 ≤ runEnd chars (j + 1) := le_runWhile chars isAlphanumeric (j + 1)
    rw [List.getLast?_cons] at h
    cases hlast : (chainParts chars (runEnd chars (j + 1))).getLast? with
    | none =>
      obtain rfl : (j + 1, runEnd chars (j + 1)) = s := by simpa [hlast] using h
      exact hle
    | some t =>
      obtain rfl : t = s := by simpa [hlast] using h
      have := ih hlast
      omega
  | case2 => cases h
  | case3 => cases h

/-- Every turn of the loop makes progress. -/
theorem lt_scanTurn {c : Char} (h : chars[i]? = some c) : i < (scanTurn chars i c).2 := by
  unfold scanTurn
  dsimp only
  split_ifs with hsign hdigit hword hchain
  · have hle : i + 1 ≤ digitsEnd chars (i + 1) := le_runWhile chars _ _
    have := digitsEnd_le_consumeNumber chars (i + 1)
    show i < consumeNumber chars (i + 1)
    omega
  · exact (lt_runWhile h hdigit).trans_le (digitsEnd_le_numberEnd i)
  · have hrun : i < runEnd chars i := lt_runWhile h hword
    rw [List.tail_cons]
    cases hlast : (chainParts chars (runEnd chars i)).getLast? with
    | none => exact hrun.trans_le (runEnd_le_wordEnd i)
    | some s => exact hrun.trans (chainParts_getLast hlast)
  · exact (lt_runWhile h hword).trans_le (runEnd_le_wordEnd i)
  · exact Nat.lt_succ_self i

end Progress

def scanFrom (i position : ℕ) : List Token :=
  match _h : chars[i]? with
  | none => []
  | some c =>
      pushAll chars position (scanTurn chars i c).1 ++
        scanFrom (scanTurn chars i c).2 (position + (scanTurn chars i c).1.length)
termination_by chars.length - i
decreasing_by
  have hlt := lt_scanTurn _h
  have hi := (List.getElem?_eq_some_iff.mp _h).1
  omega

def scan (text : List Char) : List Token := scanFrom text 0 0

end Scan
end Munarium

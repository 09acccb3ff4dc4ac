import Munarium.Lib.FirstSeen
import Munarium.Std.Text
import Mathlib.Data.List.TakeWhile
import Mathlib.Data.String.Basic
import Mathlib.Logic.Relation

/-! The digit forms that a query contributes to the lookup of number forms. The scan looks at ASCII
letters, digits, commas and points only, so that a character stands for all its bytes. -/
namespace Munarium

/-- Exactly three digits come first. -/
def startsGroup : List Char → Bool
  | a :: b :: c :: rest => a.isDigit && b.isDigit && c.isDigit && !rest.head?.any Char.isDigit
  | _ => false

def startsDecimal : List Char → Bool
  | '.' :: d :: _ => d.isDigit
  | _ => false

/-- A run of digits and group commas, and what comes after it. -/
structure NumberRun where
  joined : List Char
  grouped : Bool
  rest : List Char

def numberRun : List Char → NumberRun
  | [] => ⟨[], false, []⟩
  | c :: cs =>
      if c.isDigit then
        let r := numberRun cs
        ⟨c :: r.joined, r.grouped, r.rest⟩
      else if c == ',' && startsGroup cs then { numberRun cs with grouped := true }
      else ⟨[], false, c :: cs⟩

/-- What one turn of the scan contributes, and the text that it leaves. -/
structure NumberArm where
  pushed : Option (List Char)
  rest : List Char

/-- A run of digits; the fraction of a decimal is skipped with it. -/
def digitArm (afterLetter : Bool) (l : List Char) : NumberArm :=
  let run := numberRun l
  let decimal := startsDecimal run.rest
  { pushed :=
      if !decimal && !afterLetter && (run.grouped || decide (5 ≤ run.joined.length)) then
        some run.joined
      else none
    rest := if decimal then (run.rest.drop 1).dropWhile Char.isDigit else run.rest }

/-- A run of letters; the digits glued to a short one are read with it. -/
def letterArm (l : List Char) : NumberArm :=
  let tail := l.dropWhile Char.isAlpha
  if decide ((l.takeWhile Char.isAlpha).length ≤ 4) && tail.head?.any Char.isDigit then
    let rest := tail.dropWhile Char.isDigit
    ⟨if rest.head?.any Char.isAlphanum then none else some (tail.takeWhile Char.isDigit), rest⟩
  else ⟨none, tail⟩

def numberArm (before : List Char) : List Char → NumberArm
  | [] => ⟨none, []⟩
  | c :: cs =>
      if c.isDigit then digitArm (before.getLast?.any Char.isAlpha) (c :: cs)
      else if c.isAlpha then letterArm (c :: cs)
      else ⟨none, cs⟩

/-- A maximal run of digits and group commas. -/
inductive IsRun : List Char → List Char → Prop
  | stop {rest : List Char} (hdigit : ∀ c ∈ rest.head?, c.isDigit = false)
      (hgroup : ∀ cs, rest = ',' :: cs → startsGroup cs = false) : IsRun [] rest
  | digit {c : Char} {run rest : List Char} (hc : c.isDigit = true) (h : IsRun run rest) :
      IsRun (c :: run) rest
  | comma {run rest : List Char} (hgroup : startsGroup (run ++ rest) = true)
      (h : IsRun run rest) : IsRun (',' :: run) rest

theorem numberRun_isRun (l : List Char) :
    ∃ run, l = run ++ (numberRun l).rest ∧ IsRun run (numberRun l).rest ∧
      (numberRun l).joined = run.filter Char.isDigit ∧
      ((numberRun l).grouped = true ↔ ',' ∈ run) := by
  induction l with
  | nil =>
    exact ⟨[], rfl, .stop (by simp [numberRun]) (by simp [numberRun]), rfl, by simp [numberRun]⟩
  | cons c cs ih =>
    obtain ⟨run, heq, hrun, hjoined, hgrouped⟩ := ih
    unfold numberRun
    split_ifs with hdigit hcomma
    · have hne : c ≠ ',' := by
        rintro rfl
        exact absurd hdigit (by decide)
      refine ⟨c :: run, ?_, .digit hdigit hrun, ?_, ?_⟩
      · simpa using heq
      · simp [hdigit, hjoined]
      · simpa [Ne.symm hne] using hgrouped
    · simp only [Bool.and_eq_true, beq_iff_eq] at hcomma
      obtain ⟨rfl, hgroup⟩ := hcomma
      refine ⟨',' :: run, ?_, .comma (heq ▸ hgroup) hrun, ?_, by simp⟩
      · simpa using heq
      · simp [hjoined, hdigit]
    · refine ⟨[], rfl, .stop (by simpa using hdigit) ?_, rfl, by simp⟩
      rintro cs' heq'
      cases heq'
      simpa using hcomma

theorem IsRun.joined {run rest : List Char} (h : IsRun run rest) :
    ∀ c ∈ run, c.isDigit = true ∨ c = ',' := by
  induction h with
  | stop => simp
  | digit hc _ ih =>
    intro d hd
    rcases List.mem_cons.mp hd with rfl | hd
    · exact .inl hc
    · exact ih d hd
  | comma _ _ ih =>
    intro d hd
    rcases List.mem_cons.mp hd with rfl | hd
    · exact .inr rfl
    · exact ih d hd

theorem IsRun.head_rest {run rest : List Char} (h : IsRun run rest) :
    (∀ c ∈ rest.head?, c.isDigit = false) ∧ ∀ cs, rest = ',' :: cs → startsGroup cs = false := by
  induction h with
  | stop hdigit hgroup => exact ⟨hdigit, hgroup⟩
  | digit _ _ ih => exact ih
  | comma _ _ ih => exact ih

/-- What a turn of the scan reads: the text it uses, the text it leaves, what it contributes. -/
inductive ArmRead (before : List Char) : List Char → List Char → Option (List Char) → Prop
  | number {run rest : List Char} (hstart : ∃ c ∈ run.head?, c.isDigit = true)
      (hrun : IsRun run rest) (hdecimal : startsDecimal rest = false) :
      ArmRead before run rest
        (if before.getLast?.any Char.isAlpha = false ∧
            (',' ∈ run ∨ 5 ≤ (run.filter Char.isDigit).length) then
          some (run.filter Char.isDigit) else none)
  | decimal {run fraction rest : List Char} (hstart : ∃ c ∈ run.head?, c.isDigit = true)
      (hrun : IsRun run ('.' :: (fraction ++ rest))) (hne : fraction ≠ [])
      (hfraction : ∀ c ∈ fraction, c.isDigit = true)
      (hrest : ∀ c ∈ rest.head?, c.isDigit = false) :
      ArmRead before (run ++ '.' :: fraction) rest none
  | prefixed {letters digits rest : List Char} (hne : letters ≠ [])
      (hletters : ∀ c ∈ letters, c.isAlpha = true) (hshort : letters.length ≤ 4)
      (hdigits : ∀ c ∈ digits, c.isDigit = true) (hsome : digits ≠ [])
      (hrest : ∀ c ∈ rest.head?, c.isDigit = false) :
      ArmRead before (letters ++ digits) rest
        (if rest.head?.any Char.isAlphanum then none else some digits)
  | word {letters rest : List Char} (hne : letters ≠ [])
      (hletters : ∀ c ∈ letters, c.isAlpha = true)
      (hrest : ∀ c ∈ rest.head?, c.isAlpha = false) : ArmRead before letters rest none
  | other {c : Char} {rest : List Char} (hdigit : c.isDigit = false) (halpha : c.isAlpha = false) :
      ArmRead before [c] rest none

theorem head_dropWhile {p : Char → Bool} (l : List Char) :
    ∀ c ∈ (l.dropWhile p).head?, p c = false := by
  intro c hc
  have hnot := List.head?_dropWhile_not p l
  rw [Option.mem_def.mp hc] at hnot
  simpa using hnot

theorem digitArm_read (before : List Char) {c : Char} {cs : List Char} (hc : c.isDigit = true) :
    ∃ used, c :: cs = used ++ (digitArm (before.getLast?.any Char.isAlpha) (c :: cs)).rest ∧
      ArmRead before used (digitArm (before.getLast?.any Char.isAlpha) (c :: cs)).rest
        (digitArm (before.getLast?.any Char.isAlpha) (c :: cs)).pushed := by
  obtain ⟨run, heq, hrun, hjoined, hgrouped⟩ := numberRun_isRun (c :: cs)
  unfold digitArm
  dsimp only
  generalize numberRun (c :: cs) = r at *
  have hstart : ∃ d ∈ run.head?, d.isDigit = true := by
    cases run with
    | nil =>
      have hhead := hrun.head_rest.1 c (by rw [← List.nil_append r.rest, ← heq]; rfl)
      simp [hc] at hhead
    | cons d run =>
      obtain ⟨rfl, -⟩ := List.cons.inj heq
      exact ⟨c, rfl, hc⟩
  cases hdecimal : startsDecimal r.rest with
  | false =>
    refine ⟨run, heq, ?_⟩
    have hread : ArmRead before _ _ _ := .number hstart hrun hdecimal
    convert hread using 1
    · rfl
    · rw [hjoined]
      refine if_congr ?_ rfl rfl
      simp [hgrouped]
  | true =>
    obtain ⟨d, tail, hrest, hd⟩ : ∃ d tail, r.rest = '.' :: d :: tail ∧ d.isDigit = true := by
      unfold startsDecimal at hdecimal
      split at hdecimal
      · exact ⟨_, _, by assumption, hdecimal⟩
      · cases hdecimal
    have hsplit := List.takeWhile_append_dropWhile (p := Char.isDigit) (l := d :: tail)
    have hskip : (if true = true then (r.rest.drop 1).dropWhile Char.isDigit else r.rest) =
        (d :: tail).dropWhile Char.isDigit := by
      rw [if_pos rfl, hrest]
      rfl
    rw [hskip]
    refine ⟨run ++ '.' :: (d :: tail).takeWhile Char.isDigit, ?_, ?_⟩
    · rw [List.append_assoc, List.cons_append, hsplit, ← hrest]
      exact heq
    · simp only [Bool.not_true, Bool.false_and, Bool.false_eq_true, if_false]
      apply ArmRead.decimal hstart
      · rw [hsplit, ← hrest]
        exact hrun
      · simp [hd]
      · exact fun c hc => List.mem_takeWhile_imp hc
      · exact head_dropWhile _

theorem letterArm_read (before : List Char) {c : Char} {cs : List Char} (hc : c.isAlpha = true) :
    ∃ used, c :: cs = used ++ (letterArm (c :: cs)).rest ∧
      ArmRead before used (letterArm (c :: cs)).rest (letterArm (c :: cs)).pushed := by
  have hsplit := List.takeWhile_append_dropWhile (p := Char.isAlpha) (l := c :: cs)
  have hne : (c :: cs).takeWhile Char.isAlpha ≠ [] := by simp [hc]
  have hletters : ∀ d ∈ (c :: cs).takeWhile Char.isAlpha, d.isAlpha = true :=
    fun d hd => List.mem_takeWhile_imp hd
  unfold letterArm
  dsimp only
  by_cases hprefix : (decide (((c :: cs).takeWhile Char.isAlpha).length ≤ 4) &&
      ((c :: cs).dropWhile Char.isAlpha).head?.any Char.isDigit) = true
  · rw [if_pos hprefix]
    simp only [Bool.and_eq_true, decide_eq_true_eq] at hprefix
    have hdigits := List.takeWhile_append_dropWhile (p := Char.isDigit)
      (l := (c :: cs).dropWhile Char.isAlpha)
    refine ⟨(c :: cs).takeWhile Char.isAlpha ++
      ((c :: cs).dropWhile Char.isAlpha).takeWhile Char.isDigit, ?_, ?_⟩
    · rw [List.append_assoc, hdigits, hsplit]
    · have hsome : ((c :: cs).dropWhile Char.isAlpha).takeWhile Char.isDigit ≠ [] := by
        obtain ⟨d, hd, hdigit⟩ : ∃ d, ((c :: cs).dropWhile Char.isAlpha).head? = some d ∧
            d.isDigit = true := by
          simpa [Option.any_eq_true] using hprefix.2
        obtain ⟨tail, htail⟩ := List.head?_eq_some_iff.mp hd
        rw [htail, List.takeWhile_cons_of_pos hdigit]
        exact List.cons_ne_nil _ _
      exact .prefixed hne hletters hprefix.1 (fun _ hd => List.mem_takeWhile_imp hd) hsome
        (head_dropWhile ((c :: cs).dropWhile Char.isAlpha))
  · rw [if_neg hprefix]
    exact ⟨_, hsplit.symm, .word hne hletters (head_dropWhile _)⟩

theorem numberArm_read (before : List Char) {l : List Char} (hl : l ≠ []) :
    ∃ used, l = used ++ (numberArm before l).rest ∧
      ArmRead before used (numberArm before l).rest (numberArm before l).pushed := by
  cases l with
  | nil => exact absurd rfl hl
  | cons c cs =>
    unfold numberArm
    dsimp only
    split_ifs with hdigit halpha
    · exact digitArm_read before hdigit
    · exact letterArm_read before halpha
    · exact ⟨[c], rfl, .other (by simpa using hdigit) (by simpa using halpha)⟩

theorem ArmRead.used_ne_nil {before used rest : List Char} {pushed : Option (List Char)}
    (h : ArmRead before used rest pushed) : used ≠ [] := by
  cases h with
  | number hstart =>
    rintro rfl
    simp at hstart
  | decimal => simp
  | prefixed hne => simp [hne]
  | word hne => exact hne
  | other => simp

theorem numberArm_lt (before : List Char) {l : List Char} (hl : l ≠ []) :
    (numberArm before l).rest.length < l.length := by
  obtain ⟨used, heq, hread⟩ := numberArm_read before hl
  have hlen := congrArg List.length heq
  have hpos := List.length_pos_iff.mpr hread.used_ne_nil
  rw [List.length_append] at hlen
  omega

/-- The text that a turn uses. -/
def usedBy (l rest : List Char) : List Char := l.take (l.length - rest.length)

def numberReads (before l : List Char) : List (List Char) :=
  if hl : l = [] then []
  else
    have := numberArm_lt before hl
    let arm := numberArm before l
    arm.pushed.toList ++ numberReads (before ++ usedBy l arm.rest) arm.rest
termination_by l.length

def isDateForm (digits : List Char) : Bool :=
  digits.length == 8 && (['1', '9'].isPrefixOf digits || ['2', '0'].isPrefixOf digits)

/-- Long enough to be an identifier, and no date. -/
def isLookupKey (digits : List Char) : Bool := decide (5 ≤ digits.length) && !isDateForm digits

def numberQueryDigits (query : String) : List String :=
  ((FirstSeen.distinct isLookupKey (numberReads [] query.toList)).take 8).map String.ofList

example : numberQueryDigits "US patent 4,436,097 issued" = ["4436097"] := by decide +kernel

end Munarium

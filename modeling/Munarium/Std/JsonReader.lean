import Munarium.Std.JsonMembers
import Mathlib.Tactic.IntervalCases
import Mathlib.Data.List.TakeWhile

/-! RFC 8259 texts. `read` gives a text's value with its members in the order of the text, and
`parse` the value as `serde_json` holds it. A number with a fraction, an exponent or too many
digits is a float, and how its digits round is a parameter. -/
namespace Munarium
namespace Json

class FloatReader where
  read : List Char → Option ℚ

def isBlank (c : Char) : Bool := c = ' ' ∨ c = '\n' ∨ c = '\t' ∨ c = '\r'

def skipBlank (cs : List Char) : List Char := cs.dropWhile isBlank

def hexValue (c : Char) : Option ℕ :=
  if '0' ≤ c ∧ c ≤ '9' then some (c.toNat - 48)
  else if 'a' ≤ c ∧ c ≤ 'f' then some (c.toNat - 87)
  else if 'A' ≤ c ∧ c ≤ 'F' then some (c.toNat - 55)
  else none

def hex4 (a b c d : Char) : Option ℕ := do
  let a ← hexValue a
  let b ← hexValue b
  let c ← hexValue c
  let d ← hexValue d
  return a * 4096 + b * 256 + c * 16 + d

/-- The escapes of one letter. -/
def unescape (c : Char) : Option Char :=
  if c = '"' ∨ c = '\\' ∨ c = '/' then some c
  else if c = 'b' then some (Char.ofNat 8)
  else if c = 'f' then some (Char.ofNat 12)
  else if c = 'n' then some (Char.ofNat 10)
  else if c = 'r' then some (Char.ofNat 13)
  else if c = 't' then some (Char.ofNat 9)
  else none

/-- What a string's text says at a time: a character, or one UTF-16 unit. -/
inductive Piece where
  | char (c : Char)
  | unit (n : ℕ)

/-- The pieces up to the closing quote, and what follows it. -/
def readPieces : List Char → Option (List Piece × List Char)
  | [] => none
  | '"' :: rest => some ([], rest)
  | '\\' :: 'u' :: a :: b :: c :: d :: rest =>
      match hex4 a b c d with
      | some n => (readPieces rest).map fun r => (.unit n :: r.1, r.2)
      | none => none
  | '\\' :: e :: rest =>
      match unescape e with
      | some c => (readPieces rest).map fun r => (.char c :: r.1, r.2)
      | none => none
  | c :: rest =>
      if c.toNat < 32 then none else (readPieces rest).map fun r => (.char c :: r.1, r.2)

/-- A surrogate stands only in a pair. -/
def decodePieces : List Piece → Option (List Char)
  | [] => some []
  | .char c :: rest => (decodePieces rest).map (c :: ·)
  | .unit n :: rest =>
      if n < 0xD800 ∨ 0xE000 ≤ n then (decodePieces rest).map (Char.ofNat n :: ·)
      else if n < 0xDC00 then
        match rest with
        | .unit m :: rest =>
            if 0xDC00 ≤ m ∧ m < 0xE000 then
              let paired := 0x10000 + (n - 0xD800) * 0x400 + (m - 0xDC00)
              (decodePieces rest).map (Char.ofNat paired :: ·)
            else none
        | _ => none
      else none

/-- The string up to the closing quote, and what follows it. -/
def readString (cs : List Char) : Option (String × List Char) :=
  match readPieces cs with
  | some (pieces, rest) => (decodePieces pieces).map fun s => (String.ofList s, rest)
  | none => none

def isNumeric (c : Char) : Bool :=
  c.isDigit ∨ c = '+' ∨ c = '-' ∨ c = '.' ∨ c = 'e' ∨ c = 'E'

section
variable [FloatReader]

def readFloat (cs : List Char) : Option (Json × List Char) :=
  (FloatReader.read (cs.takeWhile isNumeric)).map fun q => (.float q, cs.dropWhile isNumeric)

/-- An integer of 64 bits is one, and other numbers are floats; so is `-0`. -/
def readNumber (cs : List Char) : Option (Json × List Char) :=
  let negative := cs.head? = some '-'
  let body := if negative then cs.tail else cs
  let digits := body.takeWhile Char.isDigit
  let rest := body.dropWhile Char.isDigit
  let n := Nat.ofDigitChars 10 digits 0
  if digits = [] ∨ 1 < digits.length ∧ digits.head? = some '0' then none
  else if rest.head? = some '.' ∨ rest.head? = some 'e' ∨ rest.head? = some 'E' then readFloat cs
  else if negative then
    if 0 < n ∧ n ≤ 2 ^ 63 then some (.int (-n), rest) else readFloat cs
  else if n < 2 ^ 64 then some (.int n, rest) else readFloat cs

mutual
/-- A value at the head of a text, with its members as the text has them. -/
def readValue : ℕ → List Char → Option (Json × List Char)
  | 0, _ => none
  | fuel + 1, cs =>
      match skipBlank cs with
      | 'n' :: 'u' :: 'l' :: 'l' :: rest => some (.null, rest)
      | 't' :: 'r' :: 'u' :: 'e' :: rest => some (.bool true, rest)
      | 'f' :: 'a' :: 'l' :: 's' :: 'e' :: rest => some (.bool false, rest)
      | '"' :: rest => (readString rest).map fun r => (.str r.1, r.2)
      | '[' :: rest =>
          if (skipBlank rest).head? = some ']' then some (.arr [], (skipBlank rest).tail)
          else (readItems fuel rest).map fun r => (.arr r.1, r.2)
      | '{' :: rest =>
          if (skipBlank rest).head? = some '}' then some (.obj [], (skipBlank rest).tail)
          else (readMembers fuel rest).map fun r => (.obj r.1, r.2)
      | cs => readNumber cs

def readItems : ℕ → List Char → Option (List Json × List Char)
  | 0, _ => none
  | fuel + 1, cs =>
      match readValue fuel cs with
      | some (v, rest) =>
          match skipBlank rest with
          | ',' :: rest => (readItems fuel rest).map fun r => (v :: r.1, r.2)
          | ']' :: rest => some ([v], rest)
          | _ => none
      | none => none

def readMembers : ℕ → List Char → Option (List (String × Json) × List Char)
  | 0, _ => none
  | fuel + 1, cs =>
      match skipBlank cs with
      | '"' :: rest =>
          match readString rest with
          | some (k, rest) =>
              match skipBlank rest with
              | ':' :: rest =>
                  match readValue fuel rest with
                  | some (v, rest) =>
                      match skipBlank rest with
                      | ',' :: rest => (readMembers fuel rest).map fun r => ((k, v) :: r.1, r.2)
                      | '}' :: rest => some ([(k, v)], rest)
                      | _ => none
                  | none => none
              | _ => none
          | none => none
      | _ => none
end

/-- A whole text's value, with its members as the text has them. -/
def read (text : String) : Option Json :=
  match readValue (text.length + 1) text.toList with
  | some (v, rest) => if skipBlank rest = [] then some v else none
  | none => none

/-- A whole text's value. -/
def parse (text : String) : Option Json := (read text).map ordered

end

theorem hex4_control : ∀ n : Fin 32,
    hex4 '0' '0' (hexDigit (n.val / 16)) (hexDigit (n.val % 16)) = some n.val := by
  decide

theorem decodePieces_unit {n : ℕ} (h : n < 0xD800) (ps : List Piece) :
    decodePieces (.unit n :: ps) = (decodePieces ps).map (Char.ofNat n :: ·) := by
  cases ps with
  | nil => simp [decodePieces, h]
  | cons q qs => cases q <;> simp [decodePieces, h]

/-- An escaped character is one piece, and the piece says it. -/
theorem readPieces_escapeChar (c : Char) : ∃ p : Piece,
    (∀ tail, readPieces (escapeChar c ++ tail) = (readPieces tail).map fun r => (p :: r.1, r.2)) ∧
      ∀ ps, decodePieces (p :: ps) = (decodePieces ps).map (c :: ·) := by
  have hchar (n : ℕ) (h : c.toNat = n) : c = Char.ofNat n := by rw [← h, Char.ofNat_toNat]
  by_cases hquote : c = '"'
  · subst hquote
    exact ⟨.char '"', fun tail => rfl, fun ps => rfl⟩
  by_cases hslash : c = '\\'
  · subst hslash
    exact ⟨.char '\\', fun tail => rfl, fun ps => rfl⟩
  by_cases h8 : c.toNat = 8
  · obtain rfl := hchar 8 h8
    exact ⟨.char (Char.ofNat 8), fun tail => rfl, fun ps => rfl⟩
  by_cases h9 : c.toNat = 9
  · obtain rfl := hchar 9 h9
    exact ⟨.char (Char.ofNat 9), fun tail => rfl, fun ps => rfl⟩
  by_cases h10 : c.toNat = 10
  · obtain rfl := hchar 10 h10
    exact ⟨.char (Char.ofNat 10), fun tail => rfl, fun ps => rfl⟩
  by_cases h12 : c.toNat = 12
  · obtain rfl := hchar 12 h12
    exact ⟨.char (Char.ofNat 12), fun tail => rfl, fun ps => rfl⟩
  by_cases h13 : c.toNat = 13
  · obtain rfl := hchar 13 h13
    exact ⟨.char (Char.ofNat 13), fun tail => rfl, fun ps => rfl⟩
  by_cases hcontrol : c.toNat < 32
  · refine ⟨.unit c.toNat, fun tail => ?_, fun ps => ?_⟩
    · have hescape : escapeChar c =
          ['\\', 'u', '0', '0', hexDigit (c.toNat / 16), hexDigit (c.toNat % 16)] := by
        simp only [escapeChar, hquote, hslash, h8, h9, h10, h12, h13, hcontrol, if_true, if_false]
      rw [hescape]
      simp only [List.cons_append, List.nil_append, readPieces]
      rw [hex4_control ⟨c.toNat, hcontrol⟩]
    · rw [decodePieces_unit (by omega), Char.ofNat_toNat]
  · refine ⟨.char c, fun tail => ?_, fun ps => rfl⟩
    have hescape : escapeChar c = [c] := by
      simp only [escapeChar, hquote, hslash, h8, h9, h10, h12, h13, hcontrol, if_false]
    rw [hescape, List.cons_append, List.nil_append, readPieces, if_neg hcontrol]
    · exact hquote
    · intro _ _ _ _ _ h
      exact absurd h hslash
    · intro _ _ h
      exact absurd h hslash

theorem readPieces_escaped (cs rest : List Char) : ∃ ps,
    readPieces (cs.flatMap escapeChar ++ '"' :: rest) = some (ps, rest) ∧
      decodePieces ps = some cs := by
  induction cs with
  | nil => exact ⟨[], rfl, rfl⟩
  | cons c cs ih =>
    obtain ⟨ps, hread, hdecode⟩ := ih
    obtain ⟨p, hp, htexts⟩ := readPieces_escapeChar c
    refine ⟨p :: ps, ?_, ?_⟩
    · rw [List.flatMap_cons, List.append_assoc, hp, hread]
      rfl
    · rw [htexts, hdecode]
      rfl

/-- An escaped string reads back. -/
theorem readString_escaped (s : String) (rest : List Char) :
    readString (s.toList.flatMap escapeChar ++ '"' :: rest) = some (s, rest) := by
  obtain ⟨ps, hread, hdecode⟩ := readPieces_escaped s.toList rest
  simp [readString, hread, hdecode]

/-- What follows does not go on with a number. -/
def Ends (rest : List Char) : Prop :=
  ∀ c, rest.head? = some c → c.isDigit = false ∧ c ≠ '.' ∧ c ≠ 'e' ∧ c ≠ 'E'

theorem toDigits_head {n : ℕ} (h : 0 < n) : (Nat.toDigits 10 n).head? ≠ some '0' := by
  induction n using Nat.strong_induction_on with
  | _ n ih =>
    by_cases hsmall : n < 10
    · rw [Nat.toDigits_of_lt_base hsmall]
      interval_cases n <;> decide
    · rw [Nat.toDigits_of_base_le (by decide) (by omega), List.head?_append_of_ne_nil _
        Nat.toDigits_ne_nil]
      exact ih (n / 10) (by omega) (by omega)

theorem takeWhile_digits (n : ℕ) {rest : List Char} (h : Ends rest) :
    (Nat.toDigits 10 n ++ rest).takeWhile Char.isDigit = Nat.toDigits 10 n ∧
      (Nat.toDigits 10 n ++ rest).dropWhile Char.isDigit = rest := by
  have hall : ∀ c ∈ Nat.toDigits 10 n, c.isDigit = true :=
    fun c hc => Nat.isDigit_of_mem_toDigits (by decide) (by decide) hc
  rw [List.takeWhile_append_of_pos hall, List.dropWhile_append_of_pos hall]
  cases rest with
  | nil => simp
  | cons c rest =>
    have hc := (h c rfl).1
    simp [hc]

section
variable [FloatReader]

/-- Digits are read back to the integer that they write, with its sign. -/
theorem readNumber_digits {n : ℕ} {rest : List Char} (h : Ends rest) :
    (n < 2 ^ 64 → readNumber (Nat.toDigits 10 n ++ rest) = some (.int n, rest)) ∧
      (0 < n → n ≤ 2 ^ 63 →
        readNumber ('-' :: (Nat.toDigits 10 n ++ rest)) = some (.int (-n), rest)) := by
  obtain ⟨htake, hdrop⟩ := takeWhile_digits n h
  have hne : Nat.toDigits 10 n ≠ [] := Nat.toDigits_ne_nil
  have hzero : ¬(1 < (Nat.toDigits 10 n).length ∧ (Nat.toDigits 10 n).head? = some '0') := by
    rintro ⟨hlong, hhead⟩
    by_cases hn : n = 0
    · subst hn
      simp [Nat.toDigits_zero] at hlong
    · exact toDigits_head (by omega) hhead
  have hstop : ¬(rest.head? = some '.' ∨ rest.head? = some 'e' ∨ rest.head? = some 'E') := by
    rintro (hc | hc | hc)
    · exact (h _ hc).2.1 rfl
    · exact (h _ hc).2.2.1 rfl
    · exact (h _ hc).2.2.2 rfl
  have hsign : (Nat.toDigits 10 n ++ rest).head? ≠ some '-' := by
    rw [List.head?_append_of_ne_nil _ hne]
    intro hhead
    have hdigit := Nat.isDigit_of_mem_toDigits (b := 10) (n := n) (by decide) (by decide)
      (List.mem_of_mem_head? hhead)
    revert hdigit
    decide
  constructor
  · intro hn
    simp only [readNumber, hsign, if_false, htake, hdrop, hne,
      false_or, hzero, hstop, Nat.ofDigitChars_ten_toDigits, hn, if_true]
  · intro hpos hn
    simp only [readNumber, List.head?_cons, if_true, List.tail_cons, htake, hdrop,
      hne, false_or, hzero, if_false, hstop, Nat.ofDigitChars_ten_toDigits, hpos, hn, and_self]

variable {fuel : ℕ} {c : Char} {cs rest : List Char}

omit [FloatReader] in
theorem skipBlank_cons (h : isBlank c = false) (cs : List Char) :
    skipBlank (c :: cs) = c :: cs := by
  simp [skipBlank, h]

theorem readValue_string (s : String) (rest : List Char) :
    readValue (fuel + 1) ('"' :: (s.toList.flatMap escapeChar ++ '"' :: rest)) =
      some (.str s, rest) := by
  rw [readValue, skipBlank_cons (by decide)]
  simp only [readString_escaped, Option.map_some]

theorem readValue_number (h : c = '-' ∨ c.isDigit = true) (cs : List Char) :
    readValue (fuel + 1) (c :: cs) = readNumber (c :: cs) := by
  have hne (d : Char) (hd : d.isDigit = false ∧ d ≠ '-') : c ≠ d := by
    rintro rfl
    rcases h with rfl | h
    · exact hd.2 rfl
    · rw [hd.1] at h
      cases h
  have hblank : isBlank c = false := by
    simp [isBlank, hne ' ' (by decide), hne '\n' (by decide), hne '\t' (by decide),
      hne '\r' (by decide)]
  rw [readValue, skipBlank_cons hblank]
  split
  case h_7 => rfl
  all_goals
    rename_i heq
    exact absurd (List.cons.inj heq).1 (hne _ (by decide))

/-- An array whose text begins with an item. -/
theorem readValue_items (h : isBlank c = false) (hc : c ≠ ']') :
    readValue (fuel + 1) ('[' :: c :: cs) =
      (readItems fuel (c :: cs)).map fun r => (.arr r.1, r.2) := by
  rw [readValue, skipBlank_cons (by decide)]
  simp only [skipBlank_cons h, List.head?_cons, Option.some.injEq, hc, if_false]

/-- An object whose text begins with a member. -/
theorem readValue_members (h : isBlank c = false) (hc : c ≠ '}') :
    readValue (fuel + 1) ('{' :: c :: cs) =
      (readMembers fuel (c :: cs)).map fun r => (.obj r.1, r.2) := by
  rw [readValue, skipBlank_cons (by decide)]
  simp only [skipBlank_cons h, List.head?_cons, Option.some.injEq, hc, if_false]

theorem readItems_last {v : Json} (h : readValue fuel cs = some (v, ']' :: rest)) :
    readItems (fuel + 1) cs = some ([v], rest) := by
  simp only [readItems, h, skipBlank_cons (show isBlank ']' = false by decide)]

theorem readItems_next {v : Json} (h : readValue fuel cs = some (v, ',' :: rest)) :
    readItems (fuel + 1) cs = (readItems fuel rest).map fun r => (v :: r.1, r.2) := by
  simp only [readItems, h, skipBlank_cons (show isBlank ',' = false by decide)]

theorem readMembers_last {k : String} {v : Json}
    (h : readValue fuel cs = some (v, '}' :: rest)) :
    readMembers (fuel + 1) ('"' :: (k.toList.flatMap escapeChar ++ '"' :: ':' :: cs)) =
      some ([(k, v)], rest) := by
  simp only [readMembers, skipBlank_cons (show isBlank '"' = false by decide),
    skipBlank_cons (show isBlank ':' = false by decide), readString_escaped, h,
    skipBlank_cons (show isBlank '}' = false by decide)]

theorem readMembers_next {k : String} {v : Json}
    (h : readValue fuel cs = some (v, ',' :: rest)) :
    readMembers (fuel + 1) ('"' :: (k.toList.flatMap escapeChar ++ '"' :: ':' :: cs)) =
      (readMembers fuel rest).map fun r => ((k, v) :: r.1, r.2) := by
  simp only [readMembers, skipBlank_cons (show isBlank '"' = false by decide),
    skipBlank_cons (show isBlank ':' = false by decide), readString_escaped, h,
    skipBlank_cons (show isBlank ',' = false by decide)]

end

end Json
end Munarium

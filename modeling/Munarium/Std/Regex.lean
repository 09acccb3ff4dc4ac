import Mathlib.Data.List.Monad
import Munarium.Std.Text

/-! The part of the `regex` crate the date grammar uses. A pattern lists every prefix of
the text it can match, preferred matches first, so the first full match is the crate's. -/
namespace Munarium

abbrev Pattern := StateT (List Char) List

namespace Pattern

variable {α : Type}

def charIf (p : Char → Bool) : Pattern Char
  | [] => []
  | c :: cs => if p c then [(c, cs)] else []

/-- `a|b|…`, earlier alternatives preferred. -/
def firstOf (ps : List (Pattern α)) : Pattern α := fun cs => ps.flatMap fun p => p cs

/-- `p?`. -/
def optional (p : Pattern α) : Pattern Unit := firstOf [do let _ ← p, pure ()]

/-- `\s*`, longest first. -/
def spaces : Pattern Unit
  | [] => [((), [])]
  | c :: cs => if isWhitespace c then spaces cs ++ [((), c :: cs)] else [((), c :: cs)]

/-- `\s+`. -/
def spaces1 : Pattern Unit := do
  let _ ← charIf isWhitespace
  spaces

/-- Simple case folding meets ASCII letters in themselves, the other case, and for `s`
the long s; no pattern of the grammar holds a `k`. -/
def sameLetter (pattern text : Char) : Bool :=
  text.toLower == pattern || (pattern == 's' && text == 'ſ')

/-- A literal under a letter comparison; the result is the text as it stood. -/
def literal (eq : Char → Char → Bool) : List Char → Pattern (List Char)
  | [] => pure []
  | p :: ps => do
      let c ← charIf (eq p)
      let cs ← literal eq ps
      pure (c :: cs)

def exact (s : String) : Pattern (List Char) := literal (· == ·) s.toList

/-- A lowercase literal under `(?i)`. -/
def caseless (s : String) : Pattern (List Char) := literal sameLetter s.toList

/-- `\d`. Other decimal digits match in the crate too, but the number they spell does
not parse there, and no other part of the grammar consumes one. -/
def digit : Pattern ℕ := do
  let c ← charIf Char.isDigit
  pure (c.toNat - '0'.toNat)

/-- `\d{n}` as a number. -/
def digits : ℕ → Pattern ℕ
  | 0 => pure 0
  | n + 1 => do
      let high ← digits n
      let low ← digit
      pure (10 * high + low)

/-- `^…$`. -/
def fullMatch (p : Pattern α) (text : List Char) : Option α :=
  (p text).findSome? fun m => if m.2.isEmpty then some m.1 else none

/-- What is left of the text after the preferred match of `^…`. -/
def afterMatch (p : Pattern α) (text : List Char) : Option (List Char) :=
  (p text).head?.map Prod.snd

end Pattern

example : (Pattern.digits 4).fullMatch "1943".toList = some 1943 := by decide

end Munarium

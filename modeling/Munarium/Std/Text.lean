import Mathlib.Data.String.Basic

/-! Rust's `str` operations on the text the kernel compares and parses. A `String`
is its list of Unicode scalar values; positions are suffixes, never byte offsets. -/
namespace Munarium

/-- The character tables of the toolchain's Unicode version. ASCII never consults
them, and nothing below depends on what they contain. -/
class Unicode where
  lower : Char → List Char
  cased : Char → Bool
  caseIgnorable : Char → Bool

/-- The `White_Space` property, as `char::is_whitespace` and the regex `\s` use it. -/
def isWhitespace (c : Char) : Bool :=
  let n := c.toNat
  (9 ≤ n && n ≤ 13) || n == 0x20 || n == 0x85 || n == 0xA0 || n == 0x1680 ||
    (0x2000 ≤ n && n ≤ 0x200A) || n == 0x2028 || n == 0x2029 || n == 0x202F ||
    n == 0x205F || n == 0x3000

def trimChars (cs : List Char) : List Char :=
  ((cs.dropWhile isWhitespace).reverse.dropWhile isWhitespace).reverse

/-- `str::trim`. -/
def trim (s : String) : String := String.ofList (trimChars s.toList)

/-- `str::split_whitespace`: the maximal runs without white space. -/
def splitWhitespace (s : String) : List String :=
  ((s.toList.splitOnP isWhitespace).filter (fun w => !w.isEmpty)).map String.ofList

/-- `str::split` on one character. -/
def splitChar (c : Char) (s : String) : List (List Char) := s.toList.splitOnP (· == c)

/-- `[String]::join`. -/
def join (sep : String) : List String → String
  | [] => ""
  | [s] => s
  | s :: rest => s ++ sep ++ join sep rest

/-- The text after the first occurrence of `p`, as `find` followed by slicing leaves it. -/
def afterFirst (p : List Char) : List Char → Option (List Char)
  | [] => if p.isEmpty then some [] else none
  | c :: cs => if p.isPrefixOf (c :: cs) then some ((c :: cs).drop p.length)
      else afterFirst p cs

/-- `str::contains` with a string pattern. -/
def containsText (p s : String) : Bool := (afterFirst p.toList s.toList).isSome

def startsWith (p s : String) : Bool := p.toList.isPrefixOf s.toList

section Lowercase
variable [Unicode]

/-- `char::to_lowercase`, before the one rule that looks at context. -/
def lowerChar (c : Char) : List Char :=
  if c.toNat < 128 then [c.toLower] else Unicode.lower c

def caseIgnorableThenCased (cs : List Char) : Bool :=
  match cs.dropWhile Unicode.caseIgnorable with
  | [] => false
  | c :: _ => Unicode.cased c

/-- Capital sigma is the one letter whose lowercase depends on its neighbours.
`before` is what was read so far, nearest character first. -/
def lowerSigma (before after : List Char) : Char :=
  if caseIgnorableThenCased before && !caseIgnorableThenCased after then 'ς' else 'σ'

def lowerFrom (before : List Char) : List Char → List Char
  | [] => []
  | c :: after =>
      (if c = 'Σ' then [lowerSigma before after] else lowerChar c) ++
        lowerFrom (c :: before) after

/-- `str::to_lowercase`. -/
def toLowercase (s : String) : String := String.ofList (lowerFrom [] s.toList)

end Lowercase

/-- Tables that know no letter outside ASCII, enough to run the model on ASCII text. -/
abbrev asciiUnicode : Unicode where
  lower c := [c]
  cased c := c.isAlpha
  caseIgnorable c := c == '.' || c == ':' || c == '^' || c.toNat == 0x27 || c.toNat == 0x60

example : letI := asciiUnicode; toLowercase "Hero.Eyes" = "hero.eyes" := by decide
example : splitWhitespace "  Alpha\tbeta " = ["Alpha", "beta"] := by decide

end Munarium

import Munarium.Std.Digest
import Munarium.Std.JsonMembers
import Munarium.Std.JsonText
import Munarium.Std.Utf16

/-! The canonical text of an artifact's documents. Read back it is the value, with the members of
each object in ascending order of their UTF-16 code units. -/
namespace Munarium
open StableSort

inductive DatastoreError where
  | integrity (message : String)
  | unsupported (message : String)
  | limit (message : String)
  | path (message : String)
  | invalid (message : String)
  | canonical (message : String)
  | io (message : String)
  deriving DecidableEq

namespace Canonical
section
variable [FloatText]

def numberText : Json → String
  | .int n => toString n
  | .float q => FloatText.text q
  | _ => ""

def forbidden (path : String) (n : Json) : DatastoreError :=
  .canonical (path ++ ": artifact@1 forbids non-integer and out-of-range numbers (got " ++
    numberText n ++ "); carry a ratio as a decimal STRING at a declared scale")

/-- `i64::to_string`. -/
def integerText : ℤ → List Char
  | .ofNat n => Nat.toDigits 10 n
  | .negSucc n => '-' :: Nat.toDigits 10 (n + 1)

def writeString (s : String) : List Char := '"' :: (s.toList.flatMap Json.escapeChar ++ ['"'])

/-- The bytes that an object's keys are sorted by. -/
def keyBytes (k : String) : List ℕ := (encodeUtf16 k).flatMap toBeBytes

def sortKeys {α : Type*} (members : List (String × α)) : List (String × α) :=
  sortByKey (fun m => keyBytes m.1) members

def commas (texts : List (List Char)) : List Char := [','].intercalate texts

/-- The members' texts, or the first of them that is refused. -/
def collect : List (String × Except DatastoreError (List Char)) →
    Except DatastoreError (List (List Char))
  | [] => .ok []
  | (k, text) :: rest => do
      let text ← text
      let texts ← collect rest
      return (writeString k ++ ':' :: text) :: texts

mutual
def writeCanonical (path : String) : Json → Except DatastoreError (List Char)
  | .null => .ok ['n', 'u', 'l', 'l']
  | .bool true => .ok ['t', 'r', 'u', 'e']
  | .bool false => .ok ['f', 'a', 'l', 's', 'e']
  | .int n =>
      match (Json.int n).asI64 with
      | some i => .ok (integerText i)
      | none => .error (forbidden path (.int n))
  | .float q => .error (forbidden path (.float q))
  | .str s => .ok (writeString s)
  | .arr items => do
      let texts ← writeItems path 0 items
      return '[' :: (commas texts ++ [']'])
  | .obj fields => do
      let texts ← collect (sortKeys (writeFields path fields))
      return '{' :: (commas texts ++ ['}'])

def writeItems (path : String) (i : ℕ) : List Json → Except DatastoreError (List (List Char))
  | [] => .ok []
  | item :: rest => do
      let text ← writeCanonical (path ++ "[" ++ toString i ++ "]") item
      let texts ← writeItems path (i + 1) rest
      return text :: texts

/-- What each member would be written as. -/
def writeFields (path : String) :
    List (String × Json) → List (String × Except DatastoreError (List Char))
  | [] => []
  | (k, v) :: rest => (k, writeCanonical (path ++ "." ++ k) v) :: writeFields path rest
end

def canonicalText (v : Json) : Except DatastoreError String :=
  (writeCanonical "$" v).map String.ofList

def canonicalBytes (v : Json) : Except DatastoreError Bytes := (canonicalText v).map utf8

def canonicalSha256 [Sha256] (v : Json) : Except DatastoreError String :=
  (canonicalBytes v).map sha256Hex

end

/-- The document whose members stand in the order that they are written in. -/
def sorted : Json → Json := Json.arranged sortKeys

/-- Members in ascending order of their UTF-16 code units, at every depth. -/
def Ascending : Json → Prop :=
  Json.Names (List.Pairwise fun k l => encodeUtf16 k < encodeUtf16 l)

example : letI : FloatText := ⟨fun _ => ""⟩
    canonicalText (.obj [("b", .int 1), ("a", .arr [.null, .str "x\n"])]) =
      .ok "\x7b\"a\":[null,\"x\\n\"],\"b\":1\x7d" := by decide +kernel

end Canonical
end Munarium

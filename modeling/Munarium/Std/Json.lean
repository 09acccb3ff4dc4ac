import Mathlib.Algebra.Group.Int.Defs
import Mathlib.Data.Rat.Defs
import Mathlib.Data.String.Basic
import Munarium.Lib.SortedMap

/-! `serde_json::Value` as the kernel reads and builds it. Objects are ordered maps:
their fields are kept in ascending key order, as the crate's default map keeps them. -/
namespace Munarium

/-- Integers and floats are different numbers to the decoder; a stored float is
finite, so a rational holds it. -/
inductive Json where
  | null
  | bool (b : Bool)
  | int (n : ℤ)
  | float (q : ℚ)
  | str (s : String)
  | arr (items : List Json)
  | obj (fields : List (String × Json))

namespace Json

/-- The `json!` macro on an object: one insertion per written field. -/
def object (fields : List (String × Json)) : Json :=
  .obj (fields.foldl (fun m f => SortedMap.insertEntry f.1 f.2 m) [])

/-- `Value::get` with a string index. -/
def get (k : String) : Json → Option Json
  | .obj fields => fields.lookup k
  | _ => none

def asStr : Json → Option String
  | .str s => some s
  | _ => none

def asObject : Json → Option (List (String × Json))
  | .obj fields => some fields
  | _ => none

/-- Indexing by a key: a missing member, or no object at all, reads as `null`. -/
instance : GetElem Json String Json fun _ _ => True where
  getElem v k _ := (v.get k).getD .null

def isNull (v : Json) : Bool :=
  match v with
  | .null => true
  | _ => false

theorem isNull_iff {v : Json} : v.isNull = true ↔ v = .null := by cases v <;> simp [isNull]

def asArray : Json → Option (List Json)
  | .arr items => some items
  | _ => none

def asI64 : Json → Option ℤ
  | .int n => if -2 ^ 63 ≤ n ∧ n < 2 ^ 63 then some n else none
  | _ => none

/-- `Value::as_u64`. -/
def asU64 : Json → Option ℕ
  | .int n => if 0 ≤ n ∧ n < 2 ^ 64 then some n.toNat else none
  | _ => none

/-- A missing value reads as `null`, as `json!` writes an absent option. -/
def ofOption {α : Type*} (f : α → Json) : Option α → Json
  | none => .null
  | some a => f a

@[simp] theorem get_obj (k : String) (fields : List (String × Json)) :
    (Json.obj fields).get k = fields.lookup k := rfl

@[simp] theorem asStr_str (s : String) : (Json.str s).asStr = some s := rfl

theorem asStr_eq_some {v : Json} {s : String} : v.asStr = some s ↔ v = .str s := by
  cases v <;> simp [asStr]

@[simp] theorem asObject_obj (fields : List (String × Json)) :
    (Json.obj fields).asObject = some fields := rfl

theorem lookup_foldl_insert {j : String} (fields : List (String × Json))
    (h : j ∉ fields.map Prod.fst) (m : List (String × Json)) :
    (fields.foldl (fun m f => SortedMap.insertEntry f.1 f.2 m) m).lookup j = m.lookup j := by
  induction fields generalizing m with
  | nil => rfl
  | cons f rest ih =>
    simp only [List.map_cons, List.mem_cons, not_or] at h
    rw [List.foldl_cons, ih h.2, SortedMap.lookup_insertEntry_of_ne h.1]

/-- The first written field survives when no later field repeats its name. -/
theorem get_object_head {k : String} {v : Json} {rest : List (String × Json)}
    (h : k ∉ rest.map Prod.fst) : (object ((k, v) :: rest)).get k = some v := by
  simp only [object, get_obj, List.foldl_cons]
  rw [lookup_foldl_insert rest h, SortedMap.lookup_insertEntry_self]

/-- The last written field wins. -/
theorem get_object_last (fields : List (String × Json)) (k : String) (v : Json) :
    (object (fields ++ [(k, v)])).get k = some v := by
  simp only [object, get_obj, List.foldl_append, List.foldl_cons, List.foldl_nil]
  exact SortedMap.lookup_insertEntry_self _ _ _

/-- With distinct names every written field is read back. -/
theorem get_object_of_mem {k : String} {v : Json} {fields : List (String × Json)}
    (hd : (fields.map Prod.fst).Nodup) (h : (k, v) ∈ fields) :
    (object fields).get k = some v := by
  obtain ⟨before, after, rfl⟩ := List.append_of_mem h
  rw [List.map_append, List.map_cons] at hd
  have hafter : k ∉ after.map Prod.fst := (List.nodup_cons.mp hd.of_append_right).1
  simp only [object, get_obj, List.foldl_append, List.foldl_cons]
  rw [lookup_foldl_insert after hafter, SortedMap.lookup_insertEntry_self]

theorem index_object {k : String} {v : Json} {fields : List (String × Json)}
    (hd : (fields.map Prod.fst).Nodup) (h : (k, v) ∈ fields) : (object fields)[k] = v := by
  show ((object fields).get k).getD .null = v
  rw [get_object_of_mem hd h, Option.getD_some]

/-- Objects of the same distinct names are equal only when all their values are. -/
theorem object_zip_injective (names : List String) (vs ws : List Json) (hnames : names.Nodup)
    (hvs : vs.length = names.length) (hws : ws.length = names.length)
    (h : object (names.zip vs) = object (names.zip ws)) : vs = ws := by
  apply List.ext_getElem (hvs.trans hws.symm)
  intro i hi hi'
  have hin : i < names.length := hvs ▸ hi
  have hread {us : List Json} (hlen : us.length = names.length) (hu : i < us.length) :
      (object (names.zip us))[names[i]] = us[i] := by
    apply index_object
    · rwa [List.map_fst_zip hlen.ge]
    · rw [List.mem_iff_getElem]
      exact ⟨i, by simp [hin, hu], by simp⟩
  rw [← hread hvs hi, ← hread hws hi', h]

/-- An object holds no other names than those written. -/
theorem name_of_mem_object {e : String × Json} (fields m : List (String × Json))
    (h : e ∈ fields.foldl (fun m f => SortedMap.insertEntry f.1 f.2 m) m) :
    e.1 ∈ fields.map Prod.fst ∨ e ∈ m := by
  induction fields generalizing m with
  | nil => exact .inr h
  | cons f rest ih =>
    rcases ih _ h with hr | hm
    · exact .inl (List.mem_cons_of_mem _ hr)
    · rcases SortedMap.mem_insertEntry hm with rfl | hm
      · exact .inl List.mem_cons_self
      · exact .inr hm

theorem get_object_of_not_mem {k : String} {fields : List (String × Json)}
    (h : k ∉ fields.map Prod.fst) : (object fields).get k = none := by
  simp only [object, get_obj]
  rw [lookup_foldl_insert fields h, List.lookup_nil]

section Equality

mutual
def beq : Json → Json → Bool
  | .null, .null => true
  | .bool a, .bool b => a == b
  | .int a, .int b => a == b
  | .float a, .float b => a == b
  | .str a, .str b => a == b
  | .arr a, .arr b => beqItems a b
  | .obj a, .obj b => beqFields a b
  | _, _ => false

def beqItems : List Json → List Json → Bool
  | [], [] => true
  | x :: xs, y :: ys => beq x y && beqItems xs ys
  | _, _ => false

def beqFields : List (String × Json) → List (String × Json) → Bool
  | [], [] => true
  | (k, x) :: xs, (l, y) :: ys => k == l && beq x y && beqFields xs ys
  | _, _ => false
end

mutual
theorem beq_iff : ∀ a b : Json, a.beq b = true ↔ a = b
  | .null, b => by cases b <;> simp [beq]
  | .bool _, b => by cases b <;> simp [beq]
  | .int _, b => by cases b <;> simp [beq]
  | .float _, b => by cases b <;> simp [beq]
  | .str _, b => by cases b <;> simp [beq]
  | .arr xs, b => by cases b <;> simp [beq, beqItems_iff xs]
  | .obj xs, b => by cases b <;> simp [beq, beqFields_iff xs]

theorem beqItems_iff : ∀ a b : List Json, beqItems a b = true ↔ a = b
  | [], b => by cases b <;> simp [beqItems]
  | x :: xs, b => by cases b <;> simp [beqItems, beq_iff x, beqItems_iff xs]

theorem beqFields_iff : ∀ a b : List (String × Json), beqFields a b = true ↔ a = b
  | [], b => by cases b <;> simp [beqFields]
  | (k, x) :: xs, b => by
      cases b with
      | nil => simp [beqFields]
      | cons f ys => simp [beqFields, beq_iff x, beqFields_iff xs, and_assoc, Prod.ext_iff]
end

instance : DecidableEq Json := fun a b => decidable_of_iff _ (beq_iff a b)

end Equality

def hexDigit (n : ℕ) : Char := "0123456789abcdef".toList.getD n '0'

/-- The escapes `serde_json` writes inside a string. -/
def escapeChar (c : Char) : List Char :=
  if c = '"' then ['\\', '"']
  else if c = '\\' then ['\\', '\\']
  else if c.toNat = 8 then ['\\', 'b']
  else if c.toNat = 9 then ['\\', 't']
  else if c.toNat = 10 then ['\\', 'n']
  else if c.toNat = 12 then ['\\', 'f']
  else if c.toNat = 13 then ['\\', 'r']
  else if c.toNat < 32 then
    ['\\', 'u', '0', '0', hexDigit (c.toNat / 16), hexDigit (c.toNat % 16)]
  else [c]

/-- A string as JSON text. -/
def quote (s : String) : String :=
  String.ofList ('"' :: (s.toList.flatMap escapeChar ++ ['"']))

end Json
end Munarium

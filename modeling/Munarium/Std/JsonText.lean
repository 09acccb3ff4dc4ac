import Munarium.Std.JsonReader

/-! The compact text of a value, as `serde_json` displays it. -/
namespace Munarium

/-- How a float is displayed. -/
class FloatText where
  text : ℚ → String

namespace Json

/-- A string in quotes. -/
def quoted (s : String) : List Char := '"' :: (s.toList.flatMap escapeChar ++ ['"'])

/-- Texts between commas. -/
def separated (texts : List (List Char)) : List Char := [','].intercalate texts

def numeral : ℤ → List Char
  | .ofNat n => Nat.toDigits 10 n
  | .negSucc n => '-' :: Nat.toDigits 10 (n + 1)

section
variable [FloatText]

mutual
def chars : Json → List Char
  | .null => ['n', 'u', 'l', 'l']
  | .bool true => ['t', 'r', 'u', 'e']
  | .bool false => ['f', 'a', 'l', 's', 'e']
  | .int n => numeral n
  | .float q => (FloatText.text q).toList
  | .str s => quoted s
  | .arr items => '[' :: (separated (itemChars items) ++ [']'])
  | .obj fields => '\x7b' :: (separated (fieldChars fields) ++ ['\x7d'])

def itemChars : List Json → List (List Char)
  | [] => []
  | v :: rest => v.chars :: itemChars rest

def fieldChars : List (String × Json) → List (List Char)
  | [] => []
  | (k, v) :: rest => (quoted k ++ ':' :: v.chars) :: fieldChars rest
end

/-- `Value::to_string`. -/
def display (v : Json) : String := String.ofList v.chars

theorem itemChars_eq (items : List Json) : itemChars items = items.map chars := by
  induction items with
  | nil => rfl
  | cons v rest ih => rw [itemChars, ih, List.map_cons]

theorem fieldChars_eq (fields : List (String × Json)) :
    fieldChars fields = fields.map fun f => quoted f.1 ++ ':' :: f.2.chars := by
  induction fields with
  | nil => rfl
  | cons f rest ih => rw [fieldChars, ih, List.map_cons]

end

/-- `value[k] = v`: a member of an object, or of `null` as an empty one. -/
def setMember (value : Json) (k : String) (v : Json) : Option Json :=
  match value with
  | .obj fields => some (.obj (SortedMap.insertEntry k v fields))
  | .null => some (.obj [(k, v)])
  | _ => none

theorem separated_cons_cons (t u : List Char) (rest : List (List Char)) :
    separated (t :: u :: rest) = t ++ ',' :: separated (u :: rest) := by
  simp [separated, List.intercalate, List.intersperse]

theorem separated_cons_start (t : List Char) (rest : List (List Char)) :
    t <+: separated (t :: rest) := by
  cases rest with
  | nil => simp [separated]
  | cons u rest =>
    rw [separated_cons_cons]
    exact List.prefix_append _ _

theorem separated_start {texts more : List (List Char)} (h : texts <+: more) :
    separated texts <+: separated more := by
  induction texts generalizing more with
  | nil => simp [separated]
  | cons t texts ih =>
    obtain ⟨rest, rfl⟩ := h
    cases texts with
    | nil =>
      simp only [List.cons_append, List.nil_append]
      have ht : separated [t] = t := by simp [separated]
      rw [ht]
      exact separated_cons_start t rest
    | cons u texts =>
      simp only [List.cons_append, separated_cons_cons]
      rw [List.prefix_append_right_inj, List.cons_prefix_cons]
      exact ⟨rfl, ih (List.prefix_append _ _)⟩

theorem separated_sublist {texts texts' : List (List Char)}
    (h : List.Forall₂ List.Sublist texts texts') :
    (separated texts).Sublist (separated texts') := by
  induction h with
  | nil => exact List.Sublist.refl _
  | cons hhead htail ih =>
    cases htail with
    | nil => simpa [separated] using hhead
    | cons hnext hrest =>
      rw [separated_cons_cons, separated_cons_cons]
      exact hhead.append (ih.cons_cons _)

theorem infix_separated {t : List Char} {texts : List (List Char)} (h : t ∈ texts) :
    t <:+: separated texts := by
  induction texts with
  | nil => cases h
  | cons u texts ih =>
    rcases List.mem_cons.mp h with rfl | h
    · exact (separated_cons_start t texts).isInfix
    · cases texts with
      | nil => cases h
      | cons w texts =>
        rw [separated_cons_cons]
        obtain ⟨a, b, hab⟩ := ih h
        exact ⟨u ++ ',' :: a, b, by simp [← hab]⟩

theorem mem_separated {c : Char} {texts : List (List Char)} (h : c ∈ separated texts) :
    c = ',' ∨ ∃ t ∈ texts, c ∈ t := by
  induction texts with
  | nil => cases h
  | cons t texts ih =>
    cases texts with
    | nil =>
      have ht : separated [t] = t := by simp [separated]
      rw [ht] at h
      exact Or.inr ⟨t, List.mem_cons_self, h⟩
    | cons u texts =>
      rw [separated_cons_cons] at h
      rcases List.mem_append.mp h with h | h
      · exact Or.inr ⟨t, List.mem_cons_self, h⟩
      · rcases List.mem_cons.mp h with h | h
        · exact Or.inl h
        · rcases ih h with h | ⟨w, hw, hc⟩
          · exact Or.inl h
          · exact Or.inr ⟨w, List.mem_cons_of_mem _ hw, hc⟩

theorem hexDigit_ne_newline (n : ℕ) : hexDigit n ≠ '\n' := by
  have hdigits : ∀ c ∈ "0123456789abcdef".toList, c ≠ '\n' := by
    rintro c hc rfl
    simp at hc
  unfold hexDigit
  rw [List.getD_eq_getElem?_getD]
  cases hget : "0123456789abcdef".toList[n]? with
  | none => decide
  | some c => exact hdigits c (List.mem_of_getElem? hget)

theorem newline_not_mem_escapeChar (c : Char) : '\n' ∉ escapeChar c := by
  unfold escapeChar
  split_ifs with hquote hslash h8 h9 h10 h12 h13 hcontrol
  · decide
  · decide
  · decide
  · decide
  · decide
  · decide
  · decide
  · simp only [List.mem_cons, List.not_mem_nil, or_false, not_or]
    exact ⟨by decide, by decide, by decide, by decide, (hexDigit_ne_newline _).symm,
      (hexDigit_ne_newline _).symm⟩
  · rw [List.mem_singleton]
    rintro rfl
    exact h10 rfl

theorem newline_not_mem_quoted (s : String) : '\n' ∉ quoted s := by
  simp only [quoted, List.mem_cons, List.mem_append, List.mem_flatMap, not_or, not_exists, not_and,
    List.not_mem_nil, not_false_iff, and_true]
  exact ⟨by decide, fun c _ => newline_not_mem_escapeChar c, by decide⟩

theorem newline_not_mem_numeral (n : ℤ) : '\n' ∉ numeral n := by
  have hdigits (k : ℕ) : '\n' ∉ Nat.toDigits 10 k := by
    intro h
    have := Nat.isDigit_of_mem_toDigits (by decide) (by decide) h
    cases this
  cases n with
  | ofNat k => exact hdigits k
  | negSucc k =>
    simp only [numeral, List.mem_cons, not_or]
    exact ⟨by decide, hdigits (k + 1)⟩

section
variable [FloatText]

/-- The texts of the members of an object can be made shorter, each at its place. -/
def Shortens (fields fields' : List (String × Json)) : Prop :=
  List.Forall₂ (fun f g => f.1 = g.1 ∧ f.2.chars.Sublist g.2.chars) fields fields'

theorem Shortens.refl (fields : List (String × Json)) : Shortens fields fields :=
  List.forall₂_same.mpr fun _ _ => ⟨rfl, List.Sublist.refl _⟩

theorem Shortens.insertEntry {fields fields' : List (String × Json)} {k : String} {v v' : Json}
    (hv : v.chars.Sublist v'.chars) (h : Shortens fields fields') :
    Shortens (SortedMap.insertEntry k v fields) (SortedMap.insertEntry k v' fields') := by
  induction h with
  | nil => exact List.Forall₂.cons ⟨rfl, hv⟩ List.Forall₂.nil
  | @cons f g rest rest' hfg hrest ih =>
    obtain ⟨fk, fv⟩ := f
    obtain ⟨gk, gv⟩ := g
    obtain ⟨rfl, hchars⟩ := hfg
    unfold SortedMap.insertEntry
    simp only
    split_ifs
    · exact List.Forall₂.cons ⟨rfl, hv⟩ hrest
    · exact List.Forall₂.cons ⟨rfl, hv⟩ (List.Forall₂.cons ⟨rfl, hchars⟩ hrest)
    · exact List.Forall₂.cons ⟨rfl, hchars⟩ ih

theorem Shortens.foldl {written written' : List (String × Json)} (h : Shortens written written')
    {fields fields' : List (String × Json)} (hfields : Shortens fields fields') :
    Shortens (written.foldl (fun m f => SortedMap.insertEntry f.1 f.2 m) fields)
      (written'.foldl (fun m f => SortedMap.insertEntry f.1 f.2 m) fields') := by
  induction h generalizing fields fields' with
  | nil => exact hfields
  | @cons f g rest rest' hfg hrest ih =>
    obtain ⟨fk, fv⟩ := f
    obtain ⟨gk, gv⟩ := g
    obtain ⟨rfl, hchars⟩ := hfg
    exact ih (hfields.insertEntry hchars)

theorem chars_arr (items : List Json) :
    (Json.arr items).chars = '[' :: (separated (itemChars items) ++ [']']) := by rw [chars]

theorem chars_obj (fields : List (String × Json)) :
    (Json.obj fields).chars = '\x7b' :: (separated (fieldChars fields) ++ ['\x7d']) := by rw [chars]

/-- An object's text is shorter where its members' texts are. -/
theorem chars_obj_sublist {fields fields' : List (String × Json)} (h : Shortens fields fields') :
    (Json.obj fields).chars.Sublist (Json.obj fields').chars := by
  have hfields : (fieldChars fields).Forall₂ List.Sublist (fieldChars fields') := by
    rw [fieldChars_eq, fieldChars_eq, List.forall₂_map_left_iff, List.forall₂_map_right_iff]
    apply h.imp
    intro f g hfg
    rw [hfg.1]
    exact (List.Sublist.refl _).append (hfg.2.cons_cons _)
  rw [chars_obj, chars_obj]
  exact ((separated_sublist hfields).append (List.Sublist.refl _)).cons_cons _

theorem chars_object_sublist {fields fields' : List (String × Json)} (h : Shortens fields fields') :
    (Json.object fields).chars.Sublist (Json.object fields').chars :=
  chars_obj_sublist (h.foldl (Shortens.refl []))

/-- The text of a longer array starts like that of a shorter one. -/
theorem chars_arr_sublist {items more : List Json} (h : items <+: more) :
    (Json.arr items).chars.Sublist (Json.arr more).chars := by
  have hitems : itemChars items <+: itemChars more := by
    rw [itemChars_eq, itemChars_eq]
    exact h.map chars
  rw [chars_arr, chars_arr]
  exact ((separated_start hitems).sublist.append (List.Sublist.refl _)).cons_cons _

theorem infix_chars_arr {v : Json} {items : List Json} (h : v ∈ items) :
    v.chars <:+: (Json.arr items).chars := by
  have hv : v.chars ∈ itemChars items := by
    rw [itemChars_eq]
    exact List.mem_map_of_mem h
  obtain ⟨a, b, hab⟩ := infix_separated hv
  rw [chars_arr]
  exact ⟨'[' :: a, b ++ [']'], by simp [← hab]⟩

theorem infix_chars_obj {k : String} {v : Json} {fields : List (String × Json)}
    (h : fields.lookup k = some v) : v.chars <:+: (Json.obj fields).chars := by
  have hv : quoted k ++ ':' :: v.chars ∈ fieldChars fields := by
    rw [fieldChars_eq]
    exact List.mem_map.mpr ⟨(k, v), SortedMap.mem_of_lookup_eq_some h, rfl⟩
  obtain ⟨a, b, hab⟩ := infix_separated hv
  rw [chars_obj]
  exact ⟨'\x7b' :: (a ++ quoted k ++ [':']), b ++ ['\x7d'], by simp [← hab]⟩

/-- A value's text is one line. -/
theorem newline_not_mem_chars (hfloat : ∀ q, '\n' ∉ (FloatText.text q).toList) (v : Json) :
    '\n' ∉ v.chars := by
  induction v using Json.inductionOn with
  | null =>
    rw [chars]
    decide
  | bool b => cases b <;> rw [chars] <;> decide
  | int n =>
    rw [chars]
    exact newline_not_mem_numeral n
  | float q =>
    rw [chars]
    exact hfloat q
  | str s =>
    rw [chars]
    exact newline_not_mem_quoted s
  | arr items ih =>
    rw [chars_arr, itemChars_eq]
    intro h
    rcases List.mem_append.mp (List.mem_of_ne_of_mem (by decide) h) with h | h
    · rcases mem_separated h with h | ⟨t, ht, hc⟩
      · exact absurd h (by decide)
      · obtain ⟨v, hv, rfl⟩ := List.mem_map.mp ht
        exact ih v hv hc
    · exact absurd (List.mem_singleton.mp h) (by decide)
  | obj fields ih =>
    rw [chars_obj, fieldChars_eq]
    intro h
    rcases List.mem_append.mp (List.mem_of_ne_of_mem (by decide) h) with h | h
    · rcases mem_separated h with h | ⟨t, ht, hc⟩
      · exact absurd h (by decide)
      · obtain ⟨f, hf, rfl⟩ := List.mem_map.mp ht
        rcases List.mem_append.mp hc with hc | hc
        · exact newline_not_mem_quoted f.1 hc
        · exact ih f hf (List.mem_of_ne_of_mem (by decide) hc)
    · exact absurd (List.mem_singleton.mp h) (by decide)

end
end Json
end Munarium

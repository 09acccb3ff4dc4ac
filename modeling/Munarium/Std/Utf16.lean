import Mathlib.Data.List.Lex
import Mathlib.Data.String.Basic

/-! UTF-16: a text's code units, and their bytes in big-endian order. -/
namespace Munarium

def utf16Units (c : Char) : List ℕ :=
  if c.toNat < 0x10000 then [c.toNat]
  else [0xD800 + (c.toNat - 0x10000) / 0x400, 0xDC00 + (c.toNat - 0x10000) % 0x400]

/-- `str::encode_utf16`. -/
def encodeUtf16 (s : String) : List ℕ := s.toList.flatMap utf16Units

/-- `u16::to_be_bytes`. -/
def toBeBytes (u : ℕ) : List ℕ := [u / 256, u % 256]

theorem char_cases (c : Char) : c.toNat < 0xD800 ∨ 0xDFFF < c.toNat ∧ c.toNat < 0x110000 := by
  rcases c.valid with h | ⟨hlow, hhigh⟩
  · exact .inl h
  · exact .inr ⟨hlow, hhigh⟩

theorem utf16Units_ne_nil (c : Char) : utf16Units c ≠ [] := by
  unfold utf16Units
  split_ifs <;> simp

/-- The units of a text say its first character. -/
theorem utf16Units_append_inj {c d : Char} {xs ys : List ℕ}
    (h : utf16Units c ++ xs = utf16Units d ++ ys) : c = d ∧ xs = ys := by
  have hc := char_cases c
  have hd := char_cases d
  suffices hsame : c.toNat = d.toNat ∧ xs = ys from ⟨Char.toNat_inj.mp hsame.1, hsame.2⟩
  unfold utf16Units at h
  split_ifs at h with hsmall hsmall' hsmall' <;>
    simp only [List.cons_append, List.nil_append, List.cons.injEq] at h
  · exact h
  · omega
  · omega
  · exact ⟨by omega, h.2.2⟩

theorem encodeUtf16_injective : Function.Injective encodeUtf16 := by
  intro s t h
  apply String.toList_injective
  unfold encodeUtf16 at h
  generalize s.toList = cs at h
  generalize t.toList = ds at h
  induction cs generalizing ds with
  | nil =>
    cases ds with
    | nil => rfl
    | cons d ds => exact absurd (List.append_eq_nil_iff.mp h.symm).1 (utf16Units_ne_nil d)
  | cons c cs ih =>
    cases ds with
    | nil => exact absurd (List.append_eq_nil_iff.mp h).1 (utf16Units_ne_nil c)
    | cons d ds =>
      obtain ⟨rfl, hrest⟩ := utf16Units_append_inj h
      rw [ih ds hrest]

/-- Units in byte order are units in order. -/
theorem toBeBytes_lt_iff {us vs : List ℕ} :
    us.flatMap toBeBytes < vs.flatMap toBeBytes ↔ us < vs := by
  induction us generalizing vs with
  | nil =>
    cases vs with
    | nil => simp
    | cons v vs => simp [toBeBytes]
  | cons u us ih =>
    cases vs with
    | nil => simp [toBeBytes]
    | cons v vs =>
      simp only [List.flatMap_cons, toBeBytes, List.cons_append, List.nil_append,
        List.cons_lt_cons_iff, ih]
      constructor
      · rintro (h | ⟨h, h' | ⟨h', h''⟩⟩)
        · exact .inl (by omega)
        · exact .inl (by omega)
        · exact .inr ⟨by omega, h''⟩
      · rintro (h | ⟨rfl, h⟩)
        · by_cases hhigh : u / 256 = v / 256
          · exact .inr ⟨hhigh, .inl (by omega)⟩
          · exact .inl (by omega)
        · exact .inr ⟨rfl, .inr ⟨rfl, h⟩⟩

end Munarium

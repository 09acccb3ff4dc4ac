import Mathlib.Data.String.Basic
import Mathlib.Data.Rat.Lemmas
import Mathlib.Algebra.Order.Field.Basic
import Mathlib.Tactic.Linarith
import Mathlib.Order.Fin.Basic
import Mathlib.Tactic.Ring

/-! Decimal digits of a fixed width and decimal fractions, written so that their
text order is the order of what they denote. -/
namespace Digits

section Lexicographic
variable {α : Type*} [LinearOrder α]

theorem append_lt_append_iff {a b : List α} (h : a.length = b.length) (x y : List α) :
    a ++ x < b ++ y ↔ a < b ∨ a = b ∧ x < y := by
  induction a generalizing b with
  | nil =>
    obtain rfl := List.length_eq_zero_iff.mp h.symm
    simp
  | cons c a ih =>
    cases b with
    | nil => simp at h
    | cons d b =>
      have hl : a.length = b.length := by simpa using h
      simp only [List.cons_append, List.cons_lt_cons_iff, ih hl, List.cons.injEq]
      tauto

theorem append_le_append_iff {a b : List α} (h : a.length = b.length) (x y : List α) :
    a ++ x ≤ b ++ y ↔ a < b ∨ a = b ∧ x ≤ y := by
  rw [← not_lt, append_lt_append_iff h.symm, not_or, not_and, not_lt, not_lt]
  constructor
  · rintro ⟨hle, himp⟩
    rcases hle.lt_or_eq with hlt | heq
    · exact .inl hlt
    · exact .inr ⟨heq, himp heq.symm⟩
  · rintro (hlt | ⟨rfl, hxy⟩)
    · exact ⟨hlt.le, fun he => absurd he hlt.ne'⟩
    · exact ⟨le_rfl, fun _ => hxy⟩

theorem cons_le_cons_iff {c d : α} {a b : List α} :
    c :: a ≤ d :: b ↔ c < d ∨ c = d ∧ a ≤ b := by
  simpa [List.cons_lt_cons_iff] using append_le_append_iff (a := [c]) (b := [d]) rfl a b

end Lexicographic

theorem digitChar_lt_iff : ∀ {a b : Fin 10},
    Nat.digitChar a.val < Nat.digitChar b.val ↔ a < b := by decide

theorem digitChar_inj : ∀ {a b : Fin 10},
    Nat.digitChar a.val = Nat.digitChar b.val ↔ a = b := by decide

theorem zero_le_digitChar : ∀ d : Fin 10, '0' ≤ Nat.digitChar d.val := by decide

/-- The last `width` decimal digits of a number, padded with zeros. -/
def fixed : ℕ → ℕ → List Char
  | 0, _ => []
  | width + 1, n => Nat.digitChar (n / 10 ^ width % 10) :: fixed width (n % 10 ^ width)

@[simp] theorem length_fixed (width n : ℕ) : (fixed width n).length = width := by
  induction width generalizing n with
  | zero => rfl
  | succ width ih => simp [fixed, ih]

theorem lt_iff_div_mod (m a b : ℕ) :
    a < b ↔ a / m < b / m ∨ a / m = b / m ∧ a % m < b % m := by
  have ha := Nat.div_add_mod a m
  have hb := Nat.div_add_mod b m
  constructor
  · intro h
    rcases (Nat.div_le_div_right (c := m) h.le).lt_or_eq with hlt | heq
    · exact .inl hlt
    · rw [heq] at ha
      exact .inr ⟨heq, by omega⟩
  · rintro (hlt | ⟨heq, hmod⟩)
    · by_contra hn
      exact absurd (Nat.div_le_div_right (c := m) (not_lt.mp hn)) (not_le.mpr hlt)
    · rw [heq] at ha
      omega

theorem fixed_lt_iff {width a b : ℕ} (ha : a < 10 ^ width) (hb : b < 10 ^ width) :
    fixed width a < fixed width b ↔ a < b := by
  induction width generalizing a b with
  | zero =>
    have hab : a = b := by omega
    simp [fixed, hab]
  | succ width ih =>
    have hpos : 0 < 10 ^ width := by positivity
    have hda : a / 10 ^ width < 10 := Nat.div_lt_of_lt_mul (by rwa [← pow_succ])
    have hdb : b / 10 ^ width < 10 := Nat.div_lt_of_lt_mul (by rwa [← pow_succ])
    have hlt := digitChar_lt_iff (a := ⟨_, hda⟩) (b := ⟨_, hdb⟩)
    have heq := digitChar_inj (a := ⟨_, hda⟩) (b := ⟨_, hdb⟩)
    simp only [Fin.mk_lt_mk, Fin.mk.injEq] at hlt heq
    rw [fixed, fixed, List.cons_lt_cons_iff, Nat.mod_eq_of_lt hda, Nat.mod_eq_of_lt hdb, hlt,
      heq, ih (Nat.mod_lt _ hpos) (Nat.mod_lt _ hpos), ← lt_iff_div_mod]

theorem fixed_inj {width a b : ℕ} (ha : a < 10 ^ width) (hb : b < 10 ^ width) :
    fixed width a = fixed width b ↔ a = b := by
  constructor
  · intro h
    rcases lt_trichotomy a b with hab | hab | hab
    · exact absurd h ((fixed_lt_iff ha hb).mpr hab).ne
    · exact hab
    · exact absurd h ((fixed_lt_iff hb ha).mpr hab).ne'
  · rintro rfl
    rfl

/-- The number of exactly `width` digits at the front of a text, and what follows. -/
def scan : ℕ → ℕ → List Char → Option (ℕ × List Char)
  | 0, n, cs => some (n, cs)
  | _ + 1, _, [] => none
  | width + 1, n, c :: cs =>
      if c.isDigit then scan width (10 * n + (c.toNat - 48)) cs else none

theorem digitChar_toNat_sub : ∀ d : Fin 10, (Nat.digitChar d.val).toNat - 48 = d.val := by decide

theorem isDigit_digitChar : ∀ d : Fin 10, (Nat.digitChar d.val).isDigit = true := by decide

theorem exists_digitChar {c : Char} (h : c.isDigit = true) :
    ∃ d : Fin 10, c = Nat.digitChar d.val := by
  simp only [Char.isDigit, Bool.and_eq_true, decide_eq_true_eq, UInt32.le_iff_toNat_le] at h
  have hd : c.toNat - 48 < 10 := by
    have h1 : c.toNat ≤ 57 := h.2
    omega
  refine ⟨⟨c.toNat - 48, hd⟩, ?_⟩
  have h0 : 48 ≤ c.toNat := h.1
  apply Char.toNat_inj.mp
  rw [Nat.toNat_digitChar_of_lt_ten hd]
  omega

theorem scan_eq_some_iff {width n v : ℕ} {cs rest : List Char} :
    scan width n cs = some (v, rest) ↔
      ∃ k, k < 10 ^ width ∧ v = n * 10 ^ width + k ∧ cs = fixed width k ++ rest := by
  induction width generalizing n v cs with
  | zero =>
    simp only [scan, Option.some.injEq, Prod.mk.injEq, pow_zero, mul_one, fixed, List.nil_append]
    constructor
    · rintro ⟨rfl, rfl⟩
      exact ⟨0, by simp⟩
    · rintro ⟨k, hk, rfl, rfl⟩
      simp [Nat.lt_one_iff.mp hk]
  | succ width ih =>
    have hpos : 0 < 10 ^ width := by positivity
    constructor
    · intro h
      cases cs with
      | nil => simp [scan] at h
      | cons c cs =>
        simp only [scan] at h
        split_ifs at h with hc
        obtain ⟨d, rfl⟩ := exists_digitChar hc
        obtain ⟨k, hk, rfl, rfl⟩ := ih.mp h
        refine ⟨d.val * 10 ^ width + k, ?_, ?_, ?_⟩
        · have := d.isLt
          rw [pow_succ]
          nlinarith
        · rw [digitChar_toNat_sub]
          ring
        · have hdiv : (d.val * 10 ^ width + k) / 10 ^ width = d.val := by
            rw [Nat.add_comm, Nat.add_mul_div_right _ _ hpos, Nat.div_eq_of_lt hk, Nat.zero_add]
          have hmod : (d.val * 10 ^ width + k) % 10 ^ width = k := by
            rw [Nat.add_comm, Nat.add_mul_mod_self_right, Nat.mod_eq_of_lt hk]
          rw [fixed, hdiv, hmod, Nat.mod_eq_of_lt d.isLt, List.cons_append]
    · rintro ⟨k, hk, rfl, rfl⟩
      have hd : k / 10 ^ width < 10 := Nat.div_lt_of_lt_mul (by rwa [← pow_succ])
      rw [fixed, List.cons_append, scan, Nat.mod_eq_of_lt hd, if_pos (isDigit_digitChar ⟨_, hd⟩)]
      apply ih.mpr
      refine ⟨k % 10 ^ width, Nat.mod_lt _ hpos, ?_, rfl⟩
      have hval := digitChar_toNat_sub ⟨_, hd⟩
      simp only at hval
      rw [hval, pow_succ]
      have := Nat.div_add_mod k (10 ^ width)
      nlinarith

/-- The digits after the point, as a number below one. -/
def fraction : List (Fin 10) → ℚ
  | [] => 0
  | d :: ds => (d.val + fraction ds) / 10

def chars (ds : List (Fin 10)) : List Char := ds.map fun d => Nat.digitChar d.val

theorem fraction_bounds (ds : List (Fin 10)) : 0 ≤ fraction ds ∧ fraction ds < 1 := by
  induction ds with
  | nil => simp [fraction]
  | cons d ds ih =>
    obtain ⟨h0, h1⟩ := ih
    have hd : (d.val : ℚ) ≤ 9 := by exact_mod_cast Nat.le_of_lt_succ d.isLt
    have hd0 : (0 : ℚ) ≤ d.val := by positivity
    rw [fraction]
    constructor
    · positivity
    · rw [div_lt_one (by norm_num)]
      linarith

theorem fraction_cons_le_iff {d e : Fin 10} {ds es : List (Fin 10)} :
    fraction (d :: ds) ≤ fraction (e :: es) ↔ d < e ∨ d = e ∧ fraction ds ≤ fraction es := by
  obtain ⟨hd0, hd1⟩ := fraction_bounds ds
  obtain ⟨he0, he1⟩ := fraction_bounds es
  rw [fraction, fraction, div_le_div_iff_of_pos_right (by norm_num)]
  rcases lt_trichotomy d e with h | rfl | h
  · have hlt : (d.val : ℚ) + 1 ≤ e.val := by exact_mod_cast h
    simp only [h, true_or, iff_true]
    linarith
  · simp
  · have hlt : (e.val : ℚ) + 1 ≤ d.val := by exact_mod_cast h
    simp only [not_lt.mpr h.le, h.ne', false_and, or_self, iff_false, not_le]
    linarith

@[simp] theorem fraction_replicate_zero (n : ℕ) : fraction (List.replicate n 0) = 0 := by
  induction n with
  | zero => rfl
  | succ n ih => simp [List.replicate_succ, fraction, ih]

/-- Digits and what is written after them compare as the fractions do, when neither is
longer, or the shorter comes first and is followed by something below every digit. -/
theorem chars_append_le_iff {ds es : List (Fin 10)} {p q : List Char}
    (h : (ds.length = es.length ∧ p ≤ q) ∨
      (ds.length < es.length ∧ ∃ c rest, p = c :: rest ∧ c < '0')) :
    chars ds ++ p ≤ chars es ++ q ↔ fraction ds ≤ fraction es := by
  induction ds generalizing es with
  | nil =>
    have hf : fraction [] ≤ fraction es := (fraction_bounds es).1
    refine iff_of_true ?_ hf
    rcases h with ⟨hlen, hpq⟩ | ⟨hlen, c, rest, rfl, hc⟩
    · obtain rfl := List.length_eq_zero_iff.mp hlen.symm
      simpa [chars] using hpq
    · cases es with
      | nil => simp at hlen
      | cons e es =>
        simp only [chars, List.map_nil, List.nil_append, List.map_cons, List.cons_append]
        exact cons_le_cons_iff.mpr (.inl (hc.trans_le (zero_le_digitChar e)))
  | cons d ds ih =>
    cases es with
    | nil => simp at h
    | cons e es =>
      have h' : (ds.length = es.length ∧ p ≤ q) ∨
          (ds.length < es.length ∧ ∃ c rest, p = c :: rest ∧ c < '0') := by
        simpa using h
      simp only [chars, List.map_cons, List.cons_append] at ih ⊢
      rw [cons_le_cons_iff, digitChar_lt_iff, digitChar_inj, ih h', fraction_cons_le_iff]

theorem toString_inj {a b : ℕ} (h : toString a = toString b) : a = b := by
  have htext : a.repr = b.repr := h
  rw [Nat.repr_eq_ofList_toDigits, Nat.repr_eq_ofList_toDigits] at htext
  have hdigits := congrArg (fun l => Nat.ofDigitChars 10 l 0) (String.ofList_injective htext)
  simpa only [Nat.ofDigitChars_ten_toDigits] using hdigits

end Digits

import Mathlib.Data.Nat.Digits.Lemmas

/-! Numbers of a fixed width in little-endian bytes. -/
namespace LittleEndian

/-- The low `width` bytes of a number. -/
def bytes : ℕ → ℕ → List UInt8
  | 0, _ => []
  | width + 1, n => UInt8.ofNat (n % 256) :: bytes width (n / 256)

def value (bs : List UInt8) : ℕ := Nat.ofDigits 256 (bs.map UInt8.toNat)

@[simp] theorem value_nil : value [] = 0 := rfl

@[simp] theorem value_cons (b : UInt8) (bs : List UInt8) :
    value (b :: bs) = b.toNat + 256 * value bs := by
  simp [value, Nat.ofDigits_cons]

@[simp] theorem length_bytes (width n : ℕ) : (bytes width n).length = width := by
  induction width generalizing n with
  | zero => rfl
  | succ width ih => simp [bytes, ih]

theorem value_bytes {width n : ℕ} (h : n < 256 ^ width) : value (bytes width n) = n := by
  induction width generalizing n with
  | zero =>
    have hn : n = 0 := by simpa using h
    simp [bytes, hn]
  | succ width ih =>
    have hdiv : n / 256 < 256 ^ width := by
      apply Nat.div_lt_of_lt_mul
      rwa [← pow_succ']
    have hmod : (UInt8.ofNat (n % 256)).toNat = n % 256 := by simp
    rw [bytes, value_cons, ih hdiv, hmod]
    omega

theorem value_lt (bs : List UInt8) : value bs < 256 ^ bs.length := by
  induction bs with
  | nil => simp
  | cons b bs ih =>
    have hb := b.toNat_lt
    rw [value_cons, List.length_cons, pow_succ]
    omega

theorem bytes_value (bs : List UInt8) : bytes bs.length (value bs) = bs := by
  induction bs with
  | nil => rfl
  | cons b bs ih =>
    have hb := b.toNat_lt
    have hmod : (b.toNat + 256 * value bs) % 256 = b.toNat := by omega
    have hdiv : (b.toNat + 256 * value bs) / 256 = value bs := by omega
    rw [value_cons, List.length_cons, bytes, hmod, hdiv, ih, UInt8.ofNat_toNat]

end LittleEndian

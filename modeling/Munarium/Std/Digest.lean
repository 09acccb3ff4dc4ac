import Mathlib.Data.List.Nodup
import Mathlib.Data.String.Basic
import Mathlib.Logic.Function.Basic

/-! Bytes, their lowercase hex text, and SHA-256 as a parameter. -/
namespace Munarium

abbrev Bytes := List UInt8

/-- `str::as_bytes`. -/
def utf8 (s : String) : Bytes := s.toByteArray.data.toList

theorem utf8_append (s t : String) : utf8 (s ++ t) = utf8 s ++ utf8 t := by
  simp [utf8, String.toByteArray_append]

theorem utf8_injective : Function.Injective utf8 := by
  intro s t h
  have hd : s.toByteArray.data = t.toByteArray.data := Array.toList_inj.mp h
  have hb : s.toByteArray = t.toByteArray := ByteArray.ext hd
  exact String.toByteArray_inj.mp hb

/-- `str::from_utf8`. -/
def fromUtf8 (bytes : Bytes) : Option String := String.fromUTF8? ⟨⟨bytes⟩⟩

theorem utf8_of_fromUtf8 {bytes : Bytes} {s : String} (h : fromUtf8 bytes = some s) :
    utf8 s = bytes := by
  unfold fromUtf8 String.fromUTF8? at h
  split_ifs at h
  cases h
  rfl

theorem fromUtf8_utf8 (s : String) : fromUtf8 (utf8 s) = some s := by
  have hv : s.toByteArray.IsValidUTF8 := s.isValidUTF8
  have heq : (⟨⟨utf8 s⟩⟩ : ByteArray) = s.toByteArray := rfl
  rw [fromUtf8, heq, String.fromUTF8?, dif_pos hv]
  rfl

def hexDigit (n : Fin 16) : Char :=
  if n.val < 10 then Char.ofNat (48 + n.val) else Char.ofNat (87 + n.val)

theorem hexDigit_injective : Function.Injective hexDigit := by
  unfold Function.Injective
  decide

def UInt8.high (b : UInt8) : Fin 16 := ⟨b.toNat / 16, by have := b.toNat_lt; omega⟩

def UInt8.low (b : UInt8) : Fin 16 := ⟨b.toNat % 16, Nat.mod_lt _ (by decide)⟩

theorem UInt8.eq_of_nibbles {a b : UInt8} (hh : UInt8.high a = UInt8.high b)
    (hl : UInt8.low a = UInt8.low b) : a = b := by
  have h1 : a.toNat / 16 = b.toNat / 16 := congrArg Fin.val hh
  have h2 : a.toNat % 16 = b.toNat % 16 := congrArg Fin.val hl
  apply UInt8.toNat_inj.mp
  omega

/-- `hex::encode`. -/
def hexEncode (bytes : Bytes) : String :=
  String.ofList (bytes.flatMap fun b => [hexDigit (UInt8.high b), hexDigit (UInt8.low b)])

theorem hexEncode_injective : Function.Injective hexEncode := by
  intro a b h
  have hl := String.ofList_injective h
  clear h
  induction a generalizing b with
  | nil =>
    cases b with
    | nil => rfl
    | cons y b => simp at hl
  | cons x a ih =>
    cases b with
    | nil => simp at hl
    | cons y b =>
      simp only [List.flatMap_cons, List.cons_append, List.nil_append, List.cons.injEq] at hl
      obtain ⟨hh, hlow, hrest⟩ := hl
      rw [UInt8.eq_of_nibbles (hexDigit_injective hh) (hexDigit_injective hlow), ih hrest]

theorem hexDigit_utf8Size (n : Fin 16) : (hexDigit n).utf8Size = 1 := by
  revert n
  decide

theorem hexEncode_size (bytes : Bytes) : (hexEncode bytes).utf8ByteSize = 2 * bytes.length := by
  rw [hexEncode, String.utf8ByteSize_ofList]
  induction bytes with
  | nil => rfl
  | cons b rest ih =>
    simp only [List.flatMap_cons, List.cons_append, List.nil_append, String.utf8Len_cons,
      hexDigit_utf8Size, ih, List.length_cons]
    omega

theorem notMem_append_hexEncode {c : Char} {s : String} (hs : c ∉ s.toList)
    (hc : ∀ n, hexDigit n ≠ c) (bytes : Bytes) : c ∉ (s ++ hexEncode bytes).toList := by
  rw [String.toList_append, List.mem_append]
  rintro (h | h)
  · exact hs h
  · simp only [hexEncode, String.toList_ofList, List.mem_flatMap, List.mem_cons,
      List.not_mem_nil, or_false] at h
    obtain ⟨b, -, h | h⟩ := h <;> exact hc _ h.symm

/-- The digest as its crate computes it. -/
class Sha256 where
  digest : Bytes → Bytes

section
variable [Sha256]

def sha256Hex (bytes : Bytes) : String := hexEncode (Sha256.digest bytes)

theorem sha256Hex_injective (h : Function.Injective Sha256.digest) :
    Function.Injective sha256Hex := hexEncode_injective.comp h

end

/-- A digest known on a few inputs, and elsewhere too long to meet those. -/
abbrev tabledSha256 (known : List (Bytes × Bytes)) : Sha256 where
  digest input := (known.lookup input).getD (List.replicate 33 0 ++ input)

theorem tabledSha256_injective {known : List (Bytes × Bytes)}
    (hlength : ∀ e ∈ known, e.2.length = 32) (hvalues : (known.map Prod.snd).Nodup) :
    Function.Injective (tabledSha256 known).digest := by
  have key {a v : Bytes} (h : known.lookup a = some v) : (a, v) ∈ known := by
    obtain ⟨l₁, l₂, rfl, -⟩ := List.lookup_eq_some_iff.mp h
    simp
  intro a b h
  change (known.lookup a).getD (List.replicate 33 0 ++ a) =
    (known.lookup b).getD (List.replicate 33 0 ++ b) at h
  cases ha : known.lookup a with
  | none =>
    cases hb : known.lookup b with
    | none => simpa [ha, hb] using h
    | some w =>
      have hw := hlength _ (key hb)
      have := congrArg List.length h
      simp [ha, hb] at this hw
      omega
  | some v =>
    have hv := hlength _ (key ha)
    cases hb : known.lookup b with
    | none =>
      have := congrArg List.length h
      simp [ha, hb] at this hv
      omega
    | some w =>
      have hvw : v = w := by simpa [ha, hb] using h
      subst hvw
      exact congrArg Prod.fst
        (List.inj_on_of_nodup_map hvalues (key ha) (key hb) rfl)

end Munarium

import Munarium.Datastore.Canonical
import Munarium.Lib.Faulting
import Munarium.Lib.LittleEndian
import Munarium.Std.Usize

/-! The flat vector index and its bytes. Reading back what was written gives the index, what is
read is what would be written, and no offset of an untrusted table leaves the input. -/
namespace Munarium
open Faulting

/-- How a string is displayed for debugging. -/
class DebugText where
  text : String → String

/-- Bytes in memory, which are never more than the greatest `isize`. -/
structure Slice where
  bytes : Bytes
  fits : bytes.length < 2 ^ 63
  deriving DecidableEq

namespace Slice

def len (s : Slice) : ℕ := s.bytes.length

/-- `len` bytes at `pos`, or `none` when that range is not inside the bytes. -/
def sliceAt (s : Slice) (pos len : ℕ) : Option Bytes :=
  match checkedAdd pos len with
  | none => none
  | some stop => if stop ≤ s.len then some ((s.bytes.drop pos).take len) else none

def leU32At (s : Slice) (pos : ℕ) : Option UInt32 :=
  (s.sliceAt pos 4).map fun b => UInt32.ofNat (LittleEndian.value b)

def leU64At (s : Slice) (pos : ℕ) : Option UInt64 :=
  (s.sliceAt pos 8).map fun b => UInt64.ofNat (LittleEndian.value b)

/-- `pos + n` as an offset: a fault where it wraps or leaves the input. -/
def advance (s : Slice) (pos n : ℕ) : Faulting DatastoreError ℕ :=
  if pos + n < 2 ^ 64 ∧ pos + n ≤ s.len then pure (pos + n) else fault

/-- `bytes.len() - pos`. -/
def left (s : Slice) (pos : ℕ) : Faulting DatastoreError ℕ :=
  if pos ≤ s.len then pure (s.len - pos) else fault

/-- `&bytes[pos..]`. -/
def tail (s : Slice) (pos : ℕ) : Faulting DatastoreError Bytes :=
  if pos ≤ s.len then pure (s.bytes.drop pos) else fault

variable {s : Slice} {pos n : ℕ} {x rest : Bytes}

theorem sliceAt_eq_some (h : s.sliceAt pos n = some x) :
    pos + n ≤ s.len ∧ x.length = n ∧ s.bytes.drop pos = x ++ s.bytes.drop (pos + n) := by
  unfold sliceAt at h
  cases hc : checkedAdd pos n with
  | none => simp [hc] at h
  | some stop =>
    simp only [hc] at h
    unfold checkedAdd at hc
    split_ifs at hc with hlt
    cases hc
    split_ifs at h with hle
    cases h
    have hlen : s.len = s.bytes.length := rfl
    refine ⟨hle, ?_, ?_⟩
    · rw [List.length_take, List.length_drop]
      omega
    · rw [← List.drop_drop, List.take_append_drop]

theorem sliceAt_of_drop (hpos : pos ≤ s.len) (h : s.bytes.drop pos = x ++ rest) :
    s.sliceAt pos x.length = some x := by
  have hfits := s.fits
  have hlen : s.len = s.bytes.length := rfl
  have hd := congrArg List.length h
  rw [List.length_drop, List.length_append] at hd
  have hadd : checkedAdd pos x.length = some (pos + x.length) := checkedAdd_of_lt (by omega)
  have hle : pos + x.length ≤ s.len := by omega
  simp only [sliceAt, hadd, if_pos hle, h, List.take_left]

theorem returns_advance (h : pos + n ≤ s.len) : Returns (s.advance pos n) (pos + n) := by
  have hfits := s.fits
  have hlen : s.len = s.bytes.length := rfl
  rw [advance, if_pos ⟨by omega, h⟩]
  rfl

theorem returns_left (h : pos ≤ s.len) : Returns (s.left pos) (s.len - pos) := by
  rw [left, if_pos h]
  rfl

theorem returns_tail (h : pos ≤ s.len) : Returns (s.tail pos) (s.bytes.drop pos) := by
  rw [tail, if_pos h]
  rfl

end Slice

/-- `u32::to_le_bytes`, and `f32::to_le_bytes` of a float held as its bits. -/
def toLeBytes (v : UInt32) : Bytes := LittleEndian.bytes 4 v.toNat

/-- `f32::is_finite`. -/
def isFinite (v : UInt32) : Bool := v.toNat / 2 ^ 23 % 256 != 255

structure FlatVectorIndex where
  dims : UInt64
  chunkIds : List String
  data : List UInt32
  deriving DecidableEq

namespace FlatVectorIndex

def new (dims : UInt64) : FlatVectorIndex := ⟨dims, [], []⟩

def push [DebugText] (ix : FlatVectorIndex) (chunkId : String) (embedding : List UInt32) :
    Except DatastoreError FlatVectorIndex :=
  if embedding.length ≠ ix.dims.toNat then
    .error (.invalid ("embedding has " ++ toString embedding.length ++
      " dimensions, index expects " ++ toString ix.dims.toNat))
  else if embedding.any fun v => !isFinite v then
    .error (.invalid ("embedding for " ++ DebugText.text chunkId ++ " holds a non-finite value"))
  else
    .ok ⟨ix.dims, ix.chunkIds ++ [chunkId], ix.data ++ embedding⟩

/-- One entry of the id table; the length is cut to the low 32 bits. -/
def idBytes (id : String) : Bytes := LittleEndian.bytes 4 (utf8 id).length ++ utf8 id

def encoded (ix : FlatVectorIndex) : Bytes :=
  LittleEndian.bytes 8 ix.dims.toNat ++ (LittleEndian.bytes 8 ix.chunkIds.length ++
    (ix.chunkIds.flatMap idBytes ++ ix.data.flatMap toLeBytes))

/-- `none` where the vector would outgrow its capacity. -/
def toBytes (ix : FlatVectorIndex) : Faulting DatastoreError Slice :=
  if h : ix.encoded.length < 2 ^ 63 then pure ⟨ix.encoded, h⟩ else fault

def bad (what : String) : DatastoreError := .integrity ("vector index: " ++ what)

/-- `usize::try_from` where a `usize` has 64 bits. -/
def usizeTryFrom (v : UInt64) : Option UInt64 := some v

/-- The id table: the ids and the offset after the last. -/
def readIds (s : Slice) : ℕ → ℕ → ℕ → Faulting DatastoreError (List String × ℕ)
  | 0, _, pos => pure ([], pos)
  | count + 1, i, pos => do
      let len ← okOr (s.leU32At pos) (bad ("truncated before id " ++ toString i))
      let pos ← s.advance pos 4
      let id ← okOr (s.sliceAt pos len.toNat)
        (bad ("id " ++ toString i ++ " claims " ++ toString len.toNat ++ " bytes past the end"))
      let text ← okOr (fromUtf8 id) (bad ("id " ++ toString i ++ " is not UTF-8"))
      let pos ← s.advance pos len.toNat
      let (ids, pos) ← readIds s count (i + 1) pos
      return (text :: ids, pos)

/-- The floats of `as_chunks::<4>`. -/
def readFloats : Bytes → List UInt32
  | a :: b :: c :: d :: rest => UInt32.ofNat (LittleEndian.value [a, b, c, d]) :: readFloats rest
  | _ => []

def fromBytes (s : Slice) : Faulting DatastoreError FlatVectorIndex :=
  match s.leU64At 0, s.leU64At 8 with
  | some dims, some count =>
      match usizeTryFrom dims, usizeTryFrom count with
      | some dims, some count =>
          if dims = 0 then throw (bad "declares zero dimensions")
          else do
            let (ids, pos) ← readIds s count.toNat 0 16
            let want ← okOr ((checkedMul count.toNat dims.toNat).bind fun n => checkedMul n 4)
              (bad "declared size overflows")
            let left ← s.left pos
            if left ≠ want then
              throw (bad ("body is " ++ toString left ++ " bytes, expected " ++ toString want ++
                " for " ++ toString count.toNat ++ "x" ++ toString dims.toNat))
            else do
              let body ← s.tail pos
              return ⟨dims, ids, readFloats body⟩
      | _, _ => throw (bad "declared size overflows")
  | _, _ => throw (bad "shorter than its header")

theorem usizeTryFrom_eq (v : UInt64) : usizeTryFrom v = some v := rfl

theorem leU32At_eq_some {s : Slice} {pos : ℕ} {v : UInt32} (h : s.leU32At pos = some v) :
    pos + 4 ≤ s.len ∧
      s.bytes.drop pos = LittleEndian.bytes 4 v.toNat ++ s.bytes.drop (pos + 4) := by
  obtain ⟨x, hx, hv⟩ := Option.map_eq_some_iff.mp h
  obtain ⟨hle, hlen, hdrop⟩ := Slice.sliceAt_eq_some hx
  have hlt := LittleEndian.value_lt x
  have hval : v.toNat = LittleEndian.value x := by
    rw [← hv, UInt32.toNat_ofNat']
    apply Nat.mod_eq_of_lt
    simpa [hlen] using hlt
  have hbytes := LittleEndian.bytes_value x
  rw [hlen] at hbytes
  rw [hval, hbytes]
  exact ⟨hle, hdrop⟩

theorem leU64At_eq_some {s : Slice} {pos : ℕ} {v : UInt64} (h : s.leU64At pos = some v) :
    pos + 8 ≤ s.len ∧
      s.bytes.drop pos = LittleEndian.bytes 8 v.toNat ++ s.bytes.drop (pos + 8) := by
  obtain ⟨x, hx, hv⟩ := Option.map_eq_some_iff.mp h
  obtain ⟨hle, hlen, hdrop⟩ := Slice.sliceAt_eq_some hx
  have hlt := LittleEndian.value_lt x
  have hval : v.toNat = LittleEndian.value x := by
    rw [← hv, UInt64.toNat_ofNat']
    apply Nat.mod_eq_of_lt
    simpa [hlen] using hlt
  have hbytes := LittleEndian.bytes_value x
  rw [hlen] at hbytes
  rw [hval, hbytes]
  exact ⟨hle, hdrop⟩

theorem leU32At_of_drop {s : Slice} {pos n : ℕ} {rest : Bytes} (hn : n < 2 ^ 32)
    (hpos : pos ≤ s.len) (h : s.bytes.drop pos = LittleEndian.bytes 4 n ++ rest) :
    s.leU32At pos = some (UInt32.ofNat n) := by
  have hx := Slice.sliceAt_of_drop hpos h
  rw [LittleEndian.length_bytes] at hx
  have hlt : n < 256 ^ 4 := by simpa using hn
  rw [Slice.leU32At, hx, Option.map_some, LittleEndian.value_bytes hlt]

theorem leU64At_of_drop {s : Slice} {pos n : ℕ} {rest : Bytes} (hn : n < 2 ^ 64)
    (hpos : pos ≤ s.len) (h : s.bytes.drop pos = LittleEndian.bytes 8 n ++ rest) :
    s.leU64At pos = some (UInt64.ofNat n) := by
  have hx := Slice.sliceAt_of_drop hpos h
  rw [LittleEndian.length_bytes] at hx
  have hlt : n < 256 ^ 8 := by simpa using hn
  rw [Slice.leU64At, hx, Option.map_some, LittleEndian.value_bytes hlt]

theorem toLeBytes_ofNat_value {bs : Bytes} (h : bs.length = 4) :
    toLeBytes (UInt32.ofNat (LittleEndian.value bs)) = bs := by
  have hlt := LittleEndian.value_lt bs
  have hval : (UInt32.ofNat (LittleEndian.value bs)).toNat = LittleEndian.value bs := by
    rw [UInt32.toNat_ofNat']
    apply Nat.mod_eq_of_lt
    simpa [h] using hlt
  have hbytes := LittleEndian.bytes_value bs
  rw [h] at hbytes
  rw [toLeBytes, hval, hbytes]

/-- Whole floats are read to what is written as the same bytes. -/
theorem flatMap_readFloats (n : ℕ) {bs : Bytes} (h : bs.length = 4 * n) :
    (readFloats bs).flatMap toLeBytes = bs := by
  induction n generalizing bs with
  | zero =>
    obtain rfl := List.length_eq_zero_iff.mp h
    rfl
  | succ n ih =>
    match bs, h with
    | a :: b :: c :: d :: rest, h =>
      have hrest : rest.length = 4 * n := by
        simp only [List.length_cons] at h
        omega
      rw [readFloats, List.flatMap_cons, toLeBytes_ofNat_value rfl, ih hrest]
      rfl

theorem readFloats_toLeBytes_append (v : UInt32) (rest : Bytes) :
    readFloats (toLeBytes v ++ rest) = v :: readFloats rest := by
  have hlt : v.toNat < 256 ^ 4 := by simpa using v.toNat_lt
  have hval := LittleEndian.value_bytes hlt
  have hlist : ∀ bs : Bytes, bs.length = 4 →
      readFloats (bs ++ rest) = UInt32.ofNat (LittleEndian.value bs) :: readFloats rest := by
    intro bs hbs
    match bs, hbs with
    | [a, b, c, d], _ => rfl
  rw [toLeBytes, hlist _ (LittleEndian.length_bytes 4 _), hval, UInt32.ofNat_toNat]

theorem readFloats_flatMap (data : List UInt32) : readFloats (data.flatMap toLeBytes) = data := by
  induction data with
  | nil => rfl
  | cons v data ih => rw [List.flatMap_cons, readFloats_toLeBytes_append, ih]

theorem length_flatMap_toLeBytes (data : List UInt32) :
    (data.flatMap toLeBytes).length = 4 * data.length := by
  induction data with
  | nil => rfl
  | cons v data ih =>
    rw [List.flatMap_cons, List.length_append, ih, List.length_cons, toLeBytes,
      LittleEndian.length_bytes]
    omega

theorem length_idBytes (id : String) : (idBytes id).length = 4 + (utf8 id).length := by
  rw [idBytes, List.length_append, LittleEndian.length_bytes]

/-- A table is read without a fault, and what was read is the table. -/
theorem safe_readIds (s : Slice) (count i pos : ℕ) (hpos : pos ≤ s.len) :
    Safe (readIds s count i pos) fun out =>
      out.2 ≤ s.len ∧ out.1.length = count ∧
        s.bytes.drop pos = out.1.flatMap idBytes ++ s.bytes.drop out.2 := by
  induction count generalizing i pos with
  | zero => exact safe_pure ⟨hpos, rfl, rfl⟩
  | succ count ih =>
    apply (safe_okOr _ _).bind
    intro len hlen
    obtain ⟨h4, hd4⟩ := leU32At_eq_some hlen
    apply (Slice.returns_advance h4).safe.bind
    rintro _ rfl
    apply (safe_okOr _ _).bind
    intro id hid
    obtain ⟨hle, hidlen, hdid⟩ := Slice.sliceAt_eq_some hid
    apply (safe_okOr _ _).bind
    intro text htext
    have hutf := utf8_of_fromUtf8 htext
    apply (Slice.returns_advance hle).safe.bind
    rintro _ rfl
    apply (ih (i + 1) _ hle).bind
    rintro ⟨ids, stop⟩ ⟨hstop, hcount, hdrop⟩
    apply safe_pure
    refine ⟨hstop, by simp [hcount], ?_⟩
    rw [hd4, hdid, hdrop, List.flatMap_cons, idBytes, hutf, hidlen]
    simp only [List.append_assoc]

/-- A written table is read back. -/
theorem returns_readIds {s : Slice} {rest : Bytes} (ids : List String) (i : ℕ) {pos : ℕ}
    (hshort : ∀ id ∈ ids, (utf8 id).length < 2 ^ 32) (hpos : pos ≤ s.len)
    (h : s.bytes.drop pos = ids.flatMap idBytes ++ rest) :
    ∃ stop, Returns (readIds s ids.length i pos) (ids, stop) ∧ stop ≤ s.len ∧
      s.bytes.drop stop = rest := by
  induction ids generalizing i pos with
  | nil => exact ⟨pos, returns_pure _, hpos, h⟩
  | cons id ids ih =>
    have hid : (utf8 id).length < 2 ^ 32 := hshort id List.mem_cons_self
    rw [List.flatMap_cons, idBytes] at h
    simp only [List.append_assoc] at h
    have hlen := leU32At_of_drop hid hpos h
    obtain ⟨h4, hd4⟩ := leU32At_eq_some hlen
    have hnat : (UInt32.ofNat (utf8 id).length).toNat = (utf8 id).length := by
      rw [UInt32.toNat_ofNat']
      exact Nat.mod_eq_of_lt hid
    rw [hnat, h] at hd4
    have hd := (List.append_cancel_left hd4).symm
    have hslice := Slice.sliceAt_of_drop h4 hd
    obtain ⟨hle, -, hdid⟩ := Slice.sliceAt_eq_some hslice
    rw [hd] at hdid
    have hrest := (List.append_cancel_left hdid).symm
    obtain ⟨stop, hread, hstop, hdrop⟩ :=
      ih (i + 1) (fun x hx => hshort x (List.mem_cons_of_mem _ hx)) hle hrest
    refine ⟨stop, ?_, hstop, hdrop⟩
    apply (returns_okOr hlen _).bind
    apply (Slice.returns_advance h4).bind
    rw [hnat]
    apply (returns_okOr hslice _).bind
    apply (returns_okOr (fromUtf8_utf8 id) _).bind
    apply (Slice.returns_advance hle).bind
    apply hread.bind
    exact returns_pure _

theorem checkedMul_bind_eq_some {a b c : ℕ}
    (h : ((checkedMul a b).bind fun n => checkedMul n 4) = some c) : a * b * 4 = c := by
  obtain ⟨n, hn, hc⟩ := Option.bind_eq_some_iff.mp h
  rw [checkedMul_eq_some hn, checkedMul_eq_some hc]

/-- Bytes are read without a fault, and what was read is written as them. -/
theorem safe_fromBytes (s : Slice) : Safe (fromBytes s) fun ix => ix.encoded = s.bytes := by
  unfold fromBytes
  split
  · rename_i dims count hdims hcount
    obtain ⟨-, hd0⟩ := leU64At_eq_some hdims
    obtain ⟨hle, hd8⟩ := leU64At_eq_some hcount
    rw [List.drop_zero, Nat.zero_add] at hd0
    simp only [usizeTryFrom_eq]
    split_ifs with hzero
    · exact safe_throw _ _
    · apply (safe_readIds s count.toNat 0 16 hle).bind
      rintro ⟨ids, pos⟩ ⟨hpos, hids, hdrop⟩
      apply (safe_okOr _ _).bind
      intro want hwant
      apply (Slice.returns_left hpos).safe.bind
      rintro _ rfl
      split_ifs with hleft
      · exact safe_throw _ _
      · apply (Slice.returns_tail hpos).safe.bind
        rintro _ rfl
        apply safe_pure
        have hmul := checkedMul_bind_eq_some hwant
        have hbody : (s.bytes.drop pos).length = 4 * (count.toNat * dims.toNat) := by
          have hlen : s.len = s.bytes.length := rfl
          rw [List.length_drop]
          omega
        rw [encoded, flatMap_readFloats _ hbody, ← hdrop, hids, ← hd8, ← hd0]
  · exact safe_throw _ _

theorem toBytes_of_encoded {ix : FlatVectorIndex} {s : Slice} (h : ix.encoded = s.bytes) :
    Returns ix.toBytes s := by
  have hfits : ix.encoded.length < 2 ^ 63 := h ▸ s.fits
  rw [toBytes, dif_pos hfits]
  obtain ⟨bytes, fits⟩ := s
  subst h
  rfl

/-- The indexes that pushes on a new index build. -/
inductive Built [DebugText] : FlatVectorIndex → Prop where
  | new {dims : UInt64} (hdims : dims ≠ 0) : Built (FlatVectorIndex.new dims)
  | push {ix ix' : FlatVectorIndex} {id : String} {embedding : List UInt32} (hix : Built ix)
      (hid : (utf8 id).length < 2 ^ 32) (haccepted : ix.push id embedding = .ok ix') : Built ix'

/-- What the parts of an index have to do with one another. -/
structure Aligned (ix : FlatVectorIndex) : Prop where
  dims_ne : ix.dims ≠ 0
  data_length : ix.data.length = ix.chunkIds.length * ix.dims.toNat
  ids_short : ∀ id ∈ ix.chunkIds, (utf8 id).length < 2 ^ 32

theorem Aligned.push [DebugText] {ix ix' : FlatVectorIndex} {id : String} {embedding : List UInt32}
    (h : Aligned ix) (hid : (utf8 id).length < 2 ^ 32) (hpush : ix.push id embedding = .ok ix') :
    Aligned ix' := by
  unfold FlatVectorIndex.push at hpush
  split_ifs at hpush with hlen hfinite
  cases hpush
  refine ⟨h.dims_ne, ?_, ?_⟩
  · have hdims : embedding.length = ix.dims.toNat := not_not.mp hlen
    simp only [List.length_append, h.data_length, hdims, List.length_singleton]
    ring
  · intro x hx
    rcases List.mem_append.mp hx with hold | hnew
    · exact h.ids_short x hold
    · rwa [List.mem_singleton.mp hnew]

theorem Built.aligned [DebugText] {ix : FlatVectorIndex} (h : Built ix) : Aligned ix := by
  induction h with
  | new hdims => exact ⟨hdims, by simp [FlatVectorIndex.new], by simp [FlatVectorIndex.new]⟩
  | push _ hid haccepted ih => exact ih.push hid haccepted

/-- An aligned index is read from its bytes. -/
theorem Aligned.returns_fromBytes {ix : FlatVectorIndex} (h : Aligned ix) {s : Slice}
    (hs : ix.encoded = s.bytes) : Returns (fromBytes s) ix := by
  have hfits := s.fits
  have hlen : s.len = s.bytes.length := rfl
  have hbytes := congrArg List.length hs
  simp only [encoded, List.length_append, LittleEndian.length_bytes,
    length_flatMap_toLeBytes, h.data_length] at hbytes
  have hids : ix.chunkIds.length ≤ ix.chunkIds.length * ix.dims.toNat := by
    apply Nat.le_mul_of_pos_right
    apply Nat.pos_of_ne_zero
    intro hzero
    exact h.dims_ne (UInt64.toNat_inj.mp hzero)
  have hcount : ix.chunkIds.length < 2 ^ 64 := by omega
  have hdrop0 : s.bytes.drop 0 = _ := hs.symm
  have hdims := leU64At_of_drop ix.dims.toNat_lt (Nat.zero_le _) hdrop0
  obtain ⟨-, hd0⟩ := leU64At_eq_some hdims
  have hdrop8 := hd0.symm.trans hs.symm
  rw [UInt64.ofNat_toNat, encoded] at hdrop8
  have h8 := List.append_cancel_left hdrop8
  have hnat : (UInt64.ofNat ix.chunkIds.length).toNat = ix.chunkIds.length := by
    rw [UInt64.toNat_ofNat']
    exact Nat.mod_eq_of_lt hcount
  have hcounted := leU64At_of_drop hcount (by omega) h8
  obtain ⟨h16, hd8⟩ := leU64At_eq_some hcounted
  rw [hnat, Nat.zero_add] at hd8
  rw [Nat.zero_add] at h8 hcounted
  have hdrop16 := (List.append_cancel_left (h8.symm.trans hd8)).symm
  obtain ⟨stop, hread, hstop, hbody⟩ := returns_readIds ix.chunkIds 0 h.ids_short h16 hdrop16
  have hleft : s.len - stop = 4 * (ix.chunkIds.length * ix.dims.toNat) := by
    have hl := congrArg List.length hbody
    rw [List.length_drop, length_flatMap_toLeBytes, h.data_length] at hl
    omega
  have hmul : ((checkedMul ix.chunkIds.length ix.dims.toNat).bind fun n => checkedMul n 4) =
      some (s.len - stop) := by
    have hprod : ix.chunkIds.length * ix.dims.toNat * 4 = s.len - stop := by omega
    rw [checkedMul_of_lt (by omega), Option.bind_some, checkedMul_of_lt (by omega), hprod]
  unfold fromBytes
  rw [hdims, UInt64.ofNat_toNat, hcounted]
  simp only [usizeTryFrom_eq, if_neg h.dims_ne, hnat]
  apply hread.bind
  apply (returns_okOr hmul _).bind
  apply (Slice.returns_left hstop).bind
  rw [if_neg (not_not.mpr rfl)]
  apply (Slice.returns_tail hstop).bind
  rw [hbody, readFloats_flatMap]
  exact returns_pure _

/-- Reading never faults; it inverts the writing of a built index whose bytes fit in memory; and
what is read is written as the bytes it was read from. -/
theorem bytes_round_trip [DebugText] :
    (∀ s, ∃ r, (fromBytes s).run = some r) ∧
      (∀ ix, Built ix → ix.toBytes.run = none ∧ 2 ^ 63 ≤ ix.encoded.length ∨
        ∃ s, Returns ix.toBytes s ∧ Returns (fromBytes s) ix) ∧
      ∀ s ix, Returns (fromBytes s) ix → Returns ix.toBytes s := by
  refine ⟨?_, ?_, ?_⟩
  · intro s
    obtain ⟨r, hr, -⟩ := safe_fromBytes s
    exact ⟨r, hr⟩
  · intro ix hix
    by_cases hfits : ix.encoded.length < 2 ^ 63
    · have hs : ix.encoded = (⟨ix.encoded, hfits⟩ : Slice).bytes := rfl
      exact .inr ⟨_, toBytes_of_encoded hs, hix.aligned.returns_fromBytes hs⟩
    · left
      rw [toBytes, dif_neg hfits]
      exact ⟨rfl, not_lt.mp hfits⟩
  · intro s ix hread
    exact toBytes_of_encoded ((safe_fromBytes s).post hread)

/-- One dimension, and one entry named `a` at `1.0`. -/
def single : FlatVectorIndex := ⟨1, ["a"], [0x3f800000]⟩

def singleBytes : Slice :=
  ⟨[1, 0, 0, 0, 0, 0, 0, 0, 1, 0, 0, 0, 0, 0, 0, 0, 1, 0, 0, 0, 97, 0, 0, 128, 63], by decide⟩

theorem bytes_round_trip_single :
    (∃ r, (fromBytes singleBytes).run = some r) ∧
      (∃ s, Returns single.toBytes s ∧ Returns (fromBytes s) single) ∧
        Returns single.toBytes singleBytes := by
  let _ : DebugText := ⟨id⟩
  have hnew : Built (FlatVectorIndex.new 1) := .new (by decide)
  have hid : (utf8 "a").length < 2 ^ 32 := by decide +kernel
  have hpush : (FlatVectorIndex.new 1).push "a" [0x3f800000] = .ok single := rfl
  have hbuilt : Built single := hnew.push hid hpush
  refine ⟨bytes_round_trip.1 _, ?_, bytes_round_trip.2.2 _ _ ?_⟩
  · apply (bytes_round_trip.2.1 single hbuilt).resolve_left
    rintro ⟨-, hlong⟩
    exact absurd hlong (by decide +kernel)
  · rfl

end FlatVectorIndex
end Munarium

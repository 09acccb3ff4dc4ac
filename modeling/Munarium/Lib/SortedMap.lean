import Mathlib.Data.List.Nodup
import Mathlib.Order.Basic
import Mathlib.Order.Lattice

/-! Finite maps as association lists in strictly ascending key order. The order is a
field, so a map never holds a key twice and has one representation. -/
namespace SortedMap

variable {κ ν : Type*} [LinearOrder κ]

/-- One pass, replacing the entry of an equal key. Lookups need no order hypothesis. -/
def insertEntry (k : κ) (v : ν) : List (κ × ν) → List (κ × ν)
  | [] => [(k, v)]
  | (k', v') :: rest =>
      if k = k' then (k, v) :: rest
      else if k < k' then (k, v) :: (k', v') :: rest
      else (k', v') :: insertEntry k v rest

def Ascending (entries : List (κ × ν)) : Prop := entries.Pairwise fun a b => a.1 < b.1

@[simp] theorem lookup_insertEntry_self (k : κ) (v : ν) (entries : List (κ × ν)) :
    (insertEntry k v entries).lookup k = some v := by
  induction entries with
  | nil => simp [insertEntry]
  | cons e rest ih =>
    obtain ⟨k', v'⟩ := e
    unfold insertEntry
    split_ifs with he hl
    · simp
    · simp
    · simpa [List.lookup_cons, beq_eq_false_iff_ne.mpr he] using ih

theorem lookup_insertEntry_of_ne {j k : κ} (h : j ≠ k) (v : ν) (entries : List (κ × ν)) :
    (insertEntry k v entries).lookup j = entries.lookup j := by
  have hjk : (j == k) = false := beq_eq_false_iff_ne.mpr h
  induction entries with
  | nil => simp [insertEntry, List.lookup_cons, hjk]
  | cons e rest ih =>
    obtain ⟨k', v'⟩ := e
    unfold insertEntry
    split_ifs with he hl
    · subst he
      simp [List.lookup_cons, hjk]
    · simp [List.lookup_cons, hjk]
    · simp only [List.lookup_cons, ih]

theorem mem_insertEntry {k : κ} {v : ν} {e : κ × ν} {entries : List (κ × ν)}
    (h : e ∈ insertEntry k v entries) : e = (k, v) ∨ e ∈ entries := by
  induction entries with
  | nil => exact .inl (by simpa [insertEntry] using h)
  | cons e' rest ih =>
    obtain ⟨k', v'⟩ := e'
    unfold insertEntry at h
    split_ifs at h with he hl
    · rcases List.mem_cons.mp h with rfl | h
      · exact .inl rfl
      · exact .inr (List.mem_cons_of_mem _ h)
    · rcases List.mem_cons.mp h with rfl | h
      · exact .inl rfl
      · exact .inr h
    · rcases List.mem_cons.mp h with rfl | h
      · exact .inr List.mem_cons_self
      · exact (ih h).imp_right (List.mem_cons_of_mem _)

theorem Ascending.insertEntry {entries : List (κ × ν)} (h : Ascending entries) (k : κ)
    (v : ν) : Ascending (insertEntry k v entries) := by
  induction entries with
  | nil => simp [SortedMap.insertEntry, Ascending]
  | cons e rest ih =>
    obtain ⟨k', v'⟩ := e
    obtain ⟨hhead, htail⟩ := List.pairwise_cons.mp h
    unfold SortedMap.insertEntry
    split_ifs with he hl
    · subst he
      exact List.pairwise_cons.mpr ⟨hhead, htail⟩
    · refine List.pairwise_cons.mpr ⟨fun b hb => ?_, h⟩
      rcases List.mem_cons.mp hb with rfl | hb
      · exact hl
      · exact hl.trans (hhead b hb)
    · have hgt : k' < k := lt_of_le_of_ne (not_lt.mp hl) (Ne.symm he)
      refine List.pairwise_cons.mpr ⟨fun b hb => ?_, ih htail⟩
      rcases mem_insertEntry hb with rfl | hb
      · exact hgt
      · exact hhead b hb

theorem lookup_eq_some_of_mem {entries : List (κ × ν)} (h : Ascending entries) {k : κ}
    {v : ν} (hm : (k, v) ∈ entries) : entries.lookup k = some v := by
  induction entries with
  | nil => simp at hm
  | cons e rest ih =>
    obtain ⟨k', v'⟩ := e
    obtain ⟨hhead, htail⟩ := List.pairwise_cons.mp h
    rcases List.mem_cons.mp hm with he | hm
    · cases he
      simp
    · have hne : (k == k') = false := beq_eq_false_iff_ne.mpr (hhead _ hm).ne'
      simpa [List.lookup_cons, hne] using ih htail hm

theorem mem_of_lookup_eq_some {entries : List (κ × ν)} {k : κ} {v : ν}
    (h : entries.lookup k = some v) : (k, v) ∈ entries := by
  induction entries with
  | nil => simp at h
  | cons e rest ih =>
    obtain ⟨k', v'⟩ := e
    rw [List.lookup_cons] at h
    by_cases hk : k = k'
    · subst hk
      simp only [BEq.rfl, Option.some.injEq] at h
      simp [h]
    · rw [beq_eq_false_iff_ne.mpr hk] at h
      exact List.mem_cons_of_mem _ (ih h)

end SortedMap

/-- A map that only its own operations can build. -/
structure SortedMap (κ ν : Type*) [LinearOrder κ] where
  entries : List (κ × ν)
  ascending : SortedMap.Ascending entries

namespace SortedMap

variable {κ ν : Type*} [LinearOrder κ]

theorem entries_injective : Function.Injective (entries : SortedMap κ ν → List (κ × ν)) := by
  rintro ⟨a, _⟩ ⟨b, _⟩ h
  cases h
  rfl

instance [DecidableEq ν] : DecidableEq (SortedMap κ ν) := fun a b =>
  decidable_of_iff (a.entries = b.entries) entries_injective.eq_iff

def empty : SortedMap κ ν := ⟨[], List.Pairwise.nil⟩

def get? (m : SortedMap κ ν) (k : κ) : Option ν := m.entries.lookup k

def insert (k : κ) (v : ν) (m : SortedMap κ ν) : SortedMap κ ν :=
  ⟨insertEntry k v m.entries, m.ascending.insertEntry k v⟩

def erase (k : κ) (m : SortedMap κ ν) : SortedMap κ ν :=
  ⟨m.entries.filter fun e => e.1 != k, m.ascending.filter _⟩

def values (m : SortedMap κ ν) : List ν := m.entries.map Prod.snd

@[simp] theorem get?_empty (k : κ) : (empty : SortedMap κ ν).get? k = none := rfl

@[simp] theorem get?_insert_self (m : SortedMap κ ν) (k : κ) (v : ν) :
    (m.insert k v).get? k = some v := lookup_insertEntry_self k v m.entries

theorem get?_insert_of_ne {j k : κ} (h : j ≠ k) (m : SortedMap κ ν) (v : ν) :
    (m.insert k v).get? j = m.get? j := lookup_insertEntry_of_ne h v m.entries

theorem get?_insert (m : SortedMap κ ν) (j k : κ) (v : ν) :
    (m.insert k v).get? j = if j = k then some v else m.get? j := by
  split_ifs with h
  · rw [h, get?_insert_self]
  · exact get?_insert_of_ne h m v

theorem mem_entries_iff {m : SortedMap κ ν} {k : κ} {v : ν} :
    (k, v) ∈ m.entries ↔ m.get? k = some v :=
  ⟨lookup_eq_some_of_mem m.ascending, mem_of_lookup_eq_some⟩

theorem mem_values_iff {m : SortedMap κ ν} {v : ν} :
    v ∈ m.values ↔ ∃ k, m.get? k = some v := by
  simp only [values, List.mem_map, Prod.exists, exists_eq_right, mem_entries_iff]

theorem get?_erase (m : SortedMap κ ν) (j k : κ) :
    (m.erase k).get? j = if j = k then none else m.get? j := by
  have h (v : ν) : (m.erase k).get? j = some v ↔ (if j = k then none else m.get? j) = some v := by
    rw [← mem_entries_iff]
    simp only [erase, List.mem_filter, bne_iff_ne, mem_entries_iff]
    split_ifs with hj <;> simp [hj]
  cases he : (if j = k then none else m.get? j) with
  | none =>
    cases hg : (m.erase k).get? j with
    | none => rfl
    | some v => simp [he] at h; simp [h] at hg
  | some v => exact (h v).mpr he

/-- After a fold of writes a key holds what the last write that hits it left. -/
theorem get?_foldl_last {α : Type*} {step : SortedMap κ ν → α → SortedMap κ ν}
    {hits : κ → α → Bool} {left : α → Option ν}
    (h : ∀ m a k, (step m a).get? k = if hits k a then left a else m.get? k)
    (writes : List α) (m : SortedMap κ ν) (k : κ) : (writes.foldl step m).get? k =
      match writes.reverse.find? (hits k) with
      | some a => left a
      | none => m.get? k := by
  induction writes generalizing m with
  | nil => rfl
  | cons a rest ih =>
    rw [List.foldl_cons, ih, List.reverse_cons, List.find?_append]
    cases rest.reverse.find? (hits k) with
    | some b => rfl
    | none =>
      rw [h]
      by_cases ha : hits k a = true
      · simp [ha]
      · simp [ha]

theorem insertEntry_perm {k : κ} (v : ν) {entries : List (κ × ν)}
    (h : k ∉ entries.map Prod.fst) : (insertEntry k v entries).Perm ((k, v) :: entries) := by
  induction entries with
  | nil => exact .refl _
  | cons e rest ih =>
    obtain ⟨k', v'⟩ := e
    rw [List.map_cons, List.mem_cons, not_or] at h
    unfold insertEntry
    split_ifs with he hl
    · exact absurd he h.1
    · exact .refl _
    · exact ((ih h.2).cons (k', v')).trans (.swap ..)

/-- A new key's value joins the values. -/
theorem values_insert_perm {m : SortedMap κ ν} {k : κ} (v : ν) (h : m.get? k = none) :
    (m.insert k v).values.Perm (v :: m.values) := by
  have hk : k ∉ m.entries.map Prod.fst := by
    intro hmem
    obtain ⟨⟨k', w⟩, he, rfl⟩ := List.mem_map.mp hmem
    rw [mem_entries_iff, h] at he
    cases he
  exact (insertEntry_perm v hk).map Prod.snd

theorem foldl_insertEntry_perm (fields m : List (κ × ν))
    (h : ((fields ++ m).map Prod.fst).Nodup) :
    (fields.foldl (fun m f => insertEntry f.1 f.2 m) m).Perm (fields ++ m) := by
  induction fields generalizing m with
  | nil => exact .refl _
  | cons f rest ih =>
    rw [List.cons_append, List.map_cons, List.nodup_cons, List.map_append, List.mem_append,
      not_or] at h
    obtain ⟨⟨hrest, hm⟩, hnodup⟩ := h
    have hinsert := insertEntry_perm f.2 hm
    have hmove : (rest ++ insertEntry f.1 f.2 m).Perm (f :: (rest ++ m)) :=
      (hinsert.append_left rest).trans List.perm_middle
    apply (ih _ _).trans hmove
    rw [(hmove.map Prod.fst).nodup_iff, List.map_cons, List.nodup_cons, List.map_append,
      List.mem_append, not_or]
    exact ⟨⟨hrest, hm⟩, hnodup⟩

theorem foldl_insertEntry_ascending {fields m : List (κ × ν)} (h : Ascending m) :
    Ascending (fields.foldl (fun m f => insertEntry f.1 f.2 m) m) := by
  induction fields generalizing m with
  | nil => exact h
  | cons f rest ih => exact ih (h.insertEntry f.1 f.2)

/-- A map's entries, inserted in any order, are the map. -/
theorem foldl_insertEntry_of_perm {fields entries : List (κ × ν)} (h : Ascending entries)
    (hperm : fields.Perm entries) :
    fields.foldl (fun m f => insertEntry f.1 f.2 m) [] = entries := by
  have hnodup : (entries.map Prod.fst).Nodup := by
    rw [List.Nodup, List.pairwise_map]
    exact h.imp fun hlt => hlt.ne
  have hfold := foldl_insertEntry_perm fields [] (by
    rw [List.append_nil]
    exact (hperm.map Prod.fst).nodup_iff.mpr hnodup)
  rw [List.append_nil] at hfold
  apply (hfold.trans hperm).eq_of_pairwise
    (fun a b _ _ hab hba => absurd hba (lt_asymm hab)) _ h
  exact foldl_insertEntry_ascending List.Pairwise.nil

theorem keys_nodup (m : SortedMap κ ν) : (m.entries.map Prod.fst).Nodup := by
  rw [List.Nodup, List.pairwise_map]
  exact m.ascending.imp fun h => h.ne

end SortedMap

import Mathlib.Algebra.BigOperators.Group.List.Basic
import Mathlib.Algebra.GroupWithZero.Nat
import Mathlib.Data.List.Forall2
import Mathlib.Data.List.Nodup

/-! Checked sums of 64-bit words, and updates of the first entry that meets a test. -/

namespace UInt64

/-- `u64::checked_add`. -/
def checkedAdd (a b : UInt64) : Option UInt64 :=
  if a.toNat + b.toNat < 2 ^ 64 then some (a + b) else none

theorem checkedAdd_eq_some_iff {a b c : UInt64} :
    a.checkedAdd b = some c ↔ a.toNat + b.toNat = c.toNat := by
  have hc := c.toNat_lt
  unfold checkedAdd
  split_ifs with h
  · have hsum : (a + b).toNat = a.toNat + b.toNat := by
      rw [UInt64.toNat_add, Nat.mod_eq_of_lt h]
    rw [Option.some.injEq, ← UInt64.toNat_inj, hsum]
  · simp only [false_iff]
    omega

theorem checkedAdd_eq_none_iff {a b : UInt64} :
    a.checkedAdd b = none ↔ 2 ^ 64 ≤ a.toNat + b.toNat := by
  unfold checkedAdd
  split_ifs with h
  · simp only [false_iff]
    omega
  · simp only [true_iff]
    omega

/-- `try_fold` of checked additions from zero. -/
def checkedSum (words : List UInt64) : Option UInt64 := words.foldlM checkedAdd 0

theorem foldlM_checkedAdd_eq_some_iff {words : List UInt64} {a c : UInt64} :
    words.foldlM checkedAdd a = some c ↔ a.toNat + (words.map UInt64.toNat).sum = c.toNat := by
  induction words generalizing a with
  | nil => simp [UInt64.toNat_inj]
  | cons w rest ih =>
    rw [List.foldlM_cons, Option.bind_eq_bind, Option.bind_eq_some_iff, List.map_cons,
      List.sum_cons]
    constructor
    · rintro ⟨b, hb, hrest⟩
      have hadd := checkedAdd_eq_some_iff.mp hb
      have hfold := ih.mp hrest
      omega
    · intro h
      have hc := c.toNat_lt
      cases hb : a.checkedAdd w with
      | none =>
        have := checkedAdd_eq_none_iff.mp hb
        omega
      | some b =>
        have hadd := checkedAdd_eq_some_iff.mp hb
        exact ⟨b, rfl, ih.mpr (by omega)⟩

theorem checkedSum_eq_some_iff {words : List UInt64} {c : UInt64} :
    checkedSum words = some c ↔ (words.map UInt64.toNat).sum = c.toNat := by
  rw [checkedSum, foldlM_checkedAdd_eq_some_iff]
  simp

end UInt64

namespace List

variable {α : Type*} {p : α → Bool} {f : α → α}

/-- The list with its first entry that meets the test replaced. -/
def updateFirst (p : α → Bool) (f : α → α) : List α → List α
  | [] => []
  | a :: rest => if p a then f a :: rest else a :: updateFirst p f rest

/-- Only the entry that the test finds changes. -/
theorem forall₂_updateFirst {R : α → α → Prop} (hrefl : ∀ a, R a a) {l : List α}
    (hstep : ∀ a, l.find? p = some a → R a (f a)) : Forall₂ R l (l.updateFirst p f) := by
  induction l with
  | nil => exact .nil
  | cons a rest ih =>
    unfold updateFirst
    split_ifs with ha
    · apply Forall₂.cons
      · exact hstep a (by simp [ha])
      · exact forall₂_same.mpr fun b _ => hrefl b
    · apply Forall₂.cons (hrefl a)
      apply ih
      intro b hb
      exact hstep b (by simp [ha, hb])

theorem forall₂_map {R : α → α → Prop} (hstep : ∀ a, R a (f a)) (l : List α) :
    Forall₂ R l (l.map f) := by
  induction l with
  | nil => exact .nil
  | cons a rest ih => exact .cons (hstep a) ih

/-- What the test finds is what is replaced. -/
theorem find?_updateFirst (hkeep : ∀ a, p a = true → p (f a) = true) (l : List α) :
    (l.updateFirst p f).find? p = (l.find? p).map f := by
  induction l with
  | nil => rfl
  | cons a rest ih =>
    unfold updateFirst
    split_ifs with ha
    · simp [ha, hkeep a ha]
    · simp [ha, ih]

/-- What replaces the entry found is in the list. -/
theorem mem_updateFirst {l : List α} {a : α} (h : l.find? p = some a) :
    f a ∈ l.updateFirst p f := by
  induction l with
  | nil => cases h
  | cons b rest ih =>
    unfold updateFirst
    rw [List.find?_cons] at h
    split_ifs with hb
    · rw [hb] at h
      cases h
      exact List.mem_cons_self
    · rw [Bool.not_eq_true _ |>.mp hb] at h
      exact List.mem_cons_of_mem _ (ih h)

/-- Replacing the first entry by itself is nothing. -/
theorem updateFirst_const {l : List α} {a : α} (h : l.find? p = some a) :
    l.updateFirst p (fun _ => a) = l := by
  induction l with
  | nil => rfl
  | cons b rest ih =>
    unfold updateFirst
    split_ifs with hb
    · simp only [List.find?_cons, hb, Option.some.injEq] at h
      rw [h]
    · simp only [List.find?_cons, Bool.not_eq_true _ |>.mp hb] at h
      rw [ih h]

/-- A test that related entries agree on finds related entries. -/
theorem Forall₂.find? {R : α → α → Prop} {l m : List α} (h : Forall₂ R l m)
    (hp : ∀ a b, R a b → p b = p a) {a : α} (ha : l.find? p = some a) :
    ∃ b, m.find? p = some b ∧ R a b := by
  induction h with
  | nil => cases ha
  | @cons c d rest rest' hcd _ ih =>
    rw [List.find?_cons] at ha ⊢
    rw [hp c d hcd]
    cases hc : p c with
    | true =>
      rw [hc] at ha
      cases ha
      exact ⟨d, rfl, hcd⟩
    | false =>
      rw [hc] at ha
      exact ih ha

/-- Where keys are unique, a search by the key of an entry finds the entry. -/
theorem find?_of_nodup {κ : Type*} [BEq κ] [LawfulBEq κ] {key : α → κ} {l : List α}
    (h : (l.map key).Nodup) {a : α} (ha : a ∈ l) : l.find? (key · == key a) = some a := by
  have hfound : (l.find? (key · == key a)).isSome := find?_isSome.mpr ⟨a, ha, beq_self_eq_true _⟩
  obtain ⟨b, hb⟩ := Option.isSome_iff_exists.mp hfound
  have hkey : key b = key a := by simpa using List.find?_some hb
  rw [hb, inj_on_of_nodup_map h (mem_of_find?_eq_some hb) ha hkey]

/-- Where keys are unique, an entry is the only one with its key. -/
theorem filter_of_nodup {κ : Type*} [BEq κ] [LawfulBEq κ] {key : α → κ} {l : List α}
    (h : (l.map key).Nodup) {a : α} (ha : a ∈ l) : l.filter (key · == key a) = [a] := by
  obtain ⟨before, after, rfl⟩ := append_of_mem ha
  rw [map_append, map_cons, nodup_append] at h
  obtain ⟨-, hafter, hapart⟩ := h
  have hbefore : before.filter (key · == key a) = [] := by
    rw [filter_eq_nil_iff]
    intro b hb hkey
    exact hapart (key b) (mem_map_of_mem hb) (key a) mem_cons_self (eq_of_beq hkey)
  have hrest : after.filter (key · == key a) = [] := by
    rw [filter_eq_nil_iff]
    intro b hb hkey
    exact (nodup_cons.mp hafter).1 (eq_of_beq hkey ▸ mem_map_of_mem hb)
  rw [filter_append, filter_cons, hbefore, hrest]
  simp

end List

import Munarium.Std.Text
import Mathlib.Data.List.TakeWhile

/-! Texts joined by one separator character, and the pieces they fall back into. -/
namespace Munarium

/-- `str::split` on one character, each piece a text again. -/
def pieces (c : Char) (s : String) : List String := (splitChar c s).map String.ofList

theorem join_cons_cons (sep p q : String) (rest : List String) :
    join sep (p :: q :: rest) = p ++ sep ++ join sep (q :: rest) := by
  simp [join]

theorem toList_join (c : Char) (ps : List String) :
    (join (String.singleton c) ps).toList = [c].intercalate (ps.map String.toList) := by
  induction ps with
  | nil => simp [join, List.intercalate]
  | cons p rest ih =>
    cases rest with
    | nil => simp [join, List.intercalate]
    | cons q rest => simp [join, String.toList_append, ih, List.intercalate]

theorem map_toList_pieces (c : Char) (s : String) :
    (pieces c s).map String.toList = s.toList.splitOn c := by
  simp [pieces, splitChar, List.splitOn_eq_splitOnP, Function.comp_def]

theorem pieces_eq_iff {c : Char} {s : String} {ps : List String} :
    pieces c s = ps ↔ s.toList.splitOn c = ps.map String.toList := by
  rw [← map_toList_pieces]
  constructor
  · intro h
    rw [h]
  · intro h
    exact List.map_injective_iff.mpr (fun _ _ => String.toList_injective) h

theorem join_pieces (c : Char) (s : String) : join (String.singleton c) (pieces c s) = s := by
  apply String.toList_injective
  rw [toList_join, map_toList_pieces, List.intercalate_splitOn]

theorem pieces_injective (c : Char) : Function.Injective (pieces c) := by
  intro s t h
  rw [← join_pieces c s, h, join_pieces]

theorem pieces_ne_nil (c : Char) (s : String) : pieces c s ≠ [] := by
  intro h
  have := map_toList_pieces c s
  rw [h] at this
  exact List.splitOn_ne_nil _ _ this.symm

theorem pieces_join {c : Char} {ps : List String} (hps : ps ≠ [])
    (h : ∀ p ∈ ps, c ∉ p.toList) : pieces c (join (String.singleton c) ps) = ps := by
  rw [pieces_eq_iff, toList_join]
  apply List.splitOn_intercalate
  · intro l hl
    obtain ⟨p, hp, rfl⟩ := List.mem_map.mp hl
    exact h p hp
  · simpa using hps

theorem pieces_append (c : Char) (s t : String) :
    pieces c (s ++ String.singleton c ++ t) = pieces c s ++ pieces c t := by
  rw [pieces_eq_iff, List.map_append, map_toList_pieces, map_toList_pieces]
  simp [String.toList_append, List.splitOn_append_cons_self]

theorem pieces_eq_singleton {c : Char} {s : String} (h : c ∉ s.toList) : pieces c s = [s] := by
  rw [pieces_eq_iff]
  simpa using List.splitOn_eq_singleton h

theorem notMem_of_mem_splitOn {α : Type*} [DecidableEq α] (c : α) (l : List α) :
    ∀ p ∈ l.splitOn c, c ∉ p := by
  induction l with
  | nil => simp
  | cons a rest ih =>
    rw [List.splitOn_cons_eq_if_modifyHead]
    split_ifs with ha
    · intro p hp
      rcases List.mem_cons.mp hp with rfl | hp
      · simp
      · exact ih p hp
    · intro p hp
      have hne : c ≠ a := by
        rintro rfl
        simp at ha
      cases hs : rest.splitOn c with
      | nil => exact absurd hs (List.splitOn_ne_nil _ _)
      | cons q qs =>
        rw [hs] at hp ih
        rcases List.mem_cons.mp hp with rfl | hp
        · have hq := ih q List.mem_cons_self
          simp [hne, hq]
        · exact ih p (List.mem_cons_of_mem _ hp)

theorem notMem_of_mem_pieces {c : Char} {s p : String} (h : p ∈ pieces c s) :
    c ∉ p.toList := by
  apply notMem_of_mem_splitOn c s.toList
  rw [← map_toList_pieces]
  exact List.mem_map_of_mem h

theorem join_append (c : Char) {ps qs : List String} (hps : ps ≠ []) (hqs : qs ≠ []) :
    join (String.singleton c) (ps ++ qs) =
      join (String.singleton c) ps ++ String.singleton c ++ join (String.singleton c) qs := by
  induction ps with
  | nil => exact absurd rfl hps
  | cons p rest ih =>
    cases rest with
    | nil =>
      cases qs with
      | nil => exact absurd rfl hqs
      | cons q qs => exact join_cons_cons _ _ _ _
    | cons r rest =>
      have hrest := ih (by simp)
      rw [List.cons_append] at hrest
      rw [List.cons_append, List.cons_append, join_cons_cons, hrest, join_cons_cons]
      simp only [String.append_assoc]

theorem trim_eq_empty_iff {s : String} : trim s = "" ↔ ∀ c ∈ s.toList, isWhitespace c := by
  have h : trim s = "" ↔ trimChars s.toList = [] := by
    rw [trim, ← String.toList_inj]
    simp
  rw [h, trimChars, List.reverse_eq_nil_iff, List.dropWhile_eq_nil_iff]
  constructor
  · intro hall c hc
    rw [← List.takeWhile_append_dropWhile (p := isWhitespace) (l := s.toList)] at hc
    rcases List.mem_append.mp hc with hc | hc
    · exact List.mem_takeWhile_imp hc
    · exact hall c (List.mem_reverse.mpr hc)
  · intro hall c hc
    exact hall c ((List.dropWhile_sublist _).subset (List.mem_reverse.mp hc))

end Munarium

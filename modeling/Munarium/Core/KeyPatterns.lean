import Munarium.Core.ChronoGate
import Munarium.Lib.Wildcard

/-! Which keys a key pattern matches. The scan takes the earliest place of each literal part, and
nothing it could take later leaves more for the parts that follow. -/
namespace Munarium
open Wildcard

theorem afterFirst_gap {p s rest : List Char} (h : afterFirst p s = some rest) :
    ∃ gap, s = gap ++ (p ++ rest) := by
  induction s with
  | nil =>
    unfold afterFirst at h
    split_ifs at h with hp
    cases h
    exact ⟨[], by simpa using hp⟩
  | cons c s ih =>
    unfold afterFirst at h
    split_ifs at h with hp
    · cases h
      obtain ⟨rest, hrest⟩ := List.isPrefixOf_iff_prefix.mp hp
      exact ⟨[], by rw [← hrest, List.drop_left, List.nil_append]⟩
    · obtain ⟨gap, hgap⟩ := ih h
      exact ⟨c :: gap, by rw [hgap, List.cons_append]⟩

/-- The first place leaves at least what any place leaves. -/
theorem afterFirst_earliest (p gap rest : List Char) :
    ∃ rest', afterFirst p (gap ++ (p ++ rest)) = some rest' ∧ rest <:+ rest' := by
  induction gap with
  | nil =>
    rw [List.nil_append]
    cases hs : p ++ rest with
    | nil =>
      obtain ⟨rfl, rfl⟩ := List.append_eq_nil_iff.mp hs
      exact ⟨[], rfl, List.suffix_refl []⟩
    | cons c s =>
      have hp : p.isPrefixOf (c :: s) = true := by
        rw [List.isPrefixOf_iff_prefix, ← hs]
        exact List.prefix_append p rest
      refine ⟨rest, ?_, List.suffix_refl rest⟩
      rw [afterFirst, if_pos hp, ← hs, List.drop_left]
  | cons c gap ih =>
    rw [List.cons_append]
    by_cases hp : p.isPrefixOf (c :: (gap ++ (p ++ rest))) = true
    · refine ⟨_, by rw [afterFirst, if_pos hp], ?_⟩
      obtain ⟨tail, htail⟩ := List.isPrefixOf_iff_prefix.mp hp
      rw [← htail, List.drop_left]
      have hlong : rest.length ≤ tail.length := by
        have hlen := congrArg List.length htail
        simp only [List.length_append, List.length_cons] at hlen
        omega
      have hends : rest <:+ p ++ tail := by
        rw [htail, ← List.append_assoc, ← List.cons_append]
        exact List.suffix_append _ rest
      exact List.suffix_of_suffix_length_le hends (List.suffix_append p tail) hlong
    · obtain ⟨rest', hrest, hsuffix⟩ := ih
      exact ⟨rest', by rw [afterFirst, if_neg hp, hrest], hsuffix⟩

theorem afterFirst_nil (s : List Char) : afterFirst [] s = some s := by
  cases s with
  | nil => rfl
  | cons c s => rfl

/-- An empty part is found at once. -/
theorem findParts_cons (part s : List Char) (parts : List (List Char)) :
    findParts (part :: parts) s = true ↔ ∃ rest, afterFirst part s = some rest ∧
      findParts parts rest = true := by
  rw [findParts]
  by_cases hpart : part = []
  · simp [hpart, afterFirst_nil]
  · rw [if_neg (by simpa using hpart)]
    cases afterFirst part s with
    | none => simp
    | some rest => simp

/-- What is found in a text is found in any text that ends with it. -/
theorem findParts_of_suffix {parts : List (List Char)} {s t : List Char}
    (h : findParts parts s = true) (hst : s <:+ t) : findParts parts t = true := by
  induction parts generalizing s t with
  | nil => rfl
  | cons part parts ih =>
    obtain ⟨rest, hfound, hrest⟩ := (findParts_cons part s parts).mp h
    obtain ⟨gap, rfl⟩ := afterFirst_gap hfound
    obtain ⟨before, rfl⟩ := hst
    obtain ⟨rest', hfound', hsuffix⟩ := afterFirst_earliest part (before ++ gap) rest
    rw [List.append_assoc] at hfound'
    exact (findParts_cons part _ parts).mpr ⟨rest', hfound', ih hrest hsuffix⟩

theorem findParts_of_spread {parts : List (List Char)} {s : List Char} (h : Spread parts s) :
    findParts parts s = true := by
  induction parts generalizing s with
  | nil => rfl
  | cons part parts ih =>
    obtain ⟨gap, rest, rfl, hrest⟩ := h
    obtain ⟨rest', hfound, hsuffix⟩ := afterFirst_earliest part gap rest
    exact (findParts_cons part _ parts).mpr ⟨rest', hfound, findParts_of_suffix (ih hrest) hsuffix⟩

/-- The last part is no longer than the text it is found in. -/
theorem length_le_of_findParts {parts : List (List Char)} {last s : List Char}
    (h : findParts (parts ++ [last]) s = true) : last.length ≤ s.length := by
  induction parts generalizing s with
  | nil =>
    obtain ⟨rest, hfound, -⟩ := (findParts_cons last s []).mp h
    obtain ⟨gap, rfl⟩ := afterFirst_gap hfound
    simp only [List.length_append]
    omega
  | cons part parts ih =>
    obtain ⟨rest, hfound, hrest⟩ := (findParts_cons part s (parts ++ [last])).mp h
    obtain ⟨gap, rfl⟩ := afterFirst_gap hfound
    have hle := ih hrest
    simp only [List.length_append]
    omega

theorem suffix_of_spread {parts : List (List Char)} {last s : List Char}
    (h : Spread (parts ++ [last]) s) : last <:+ s := by
  induction parts generalizing s with
  | nil =>
    obtain ⟨gap, rest, rfl, hrest⟩ := h
    obtain rfl : rest = [] := hrest
    rw [List.append_nil]
    exact List.suffix_append gap last
  | cons part parts ih =>
    obtain ⟨gap, rest, rfl, hrest⟩ := h
    rw [← List.append_assoc]
    exact (ih hrest).trans (List.suffix_append _ rest)

/-- The scan finds the parts of a text that ends with the last of them exactly if they are spread
over it. -/
theorem findParts_iff_spread {parts : List (List Char)} {last s : List Char} :
    findParts (parts ++ [last]) s = true ∧ last <:+ s ↔ Spread (parts ++ [last]) s := by
  constructor
  · rintro ⟨hfound, hlast⟩
    induction parts generalizing s with
    | nil =>
      obtain ⟨gap, rfl⟩ := hlast
      exact ⟨gap, [], by rw [List.append_nil], rfl⟩
    | cons part parts ih =>
      obtain ⟨rest, hfirst, hrest⟩ := (findParts_cons part s (parts ++ [last])).mp hfound
      obtain ⟨gap, rfl⟩ := afterFirst_gap hfirst
      rw [← List.append_assoc] at hlast
      have hends : last <:+ rest := List.suffix_of_suffix_length_le hlast
        (List.suffix_append _ rest) (length_le_of_findParts hrest)
      exact ⟨gap, rest, rfl, ih hrest hends⟩
  · exact fun h => ⟨findParts_of_spread h, suffix_of_spread h⟩

section
variable [Unicode]

/-- The key is the pattern with every star replaced by some text, ignoring case. -/
def MatchesPattern (pattern key : String) : Prop :=
  Fills '*' (toLowercase pattern).toList (toLowercase key).toList

/-- A pattern of several parts is judged by where it finds them. -/
theorem keyPatternMatches_parts {pattern key : String} {first : List Char}
    {parts : List (List Char)} (hsplit : splitChar '*' (toLowercase pattern) = first :: parts)
    {init : List (List Char)} {last : List Char} (hparts : parts = init ++ [last]) :
    keyPatternMatches pattern key = true ↔ MatchesPattern pattern key := by
  have hlast : (first :: parts).getLastD [] = last := by
    rw [hparts, ← List.cons_append, List.getLastD_concat]
  have hsome : parts.isEmpty = false := by simp [hparts]
  have hjudged : keyPatternMatches pattern key = true ↔
      first <+: (toLowercase key).toList ∧
        findParts parts ((toLowercase key).toList.drop first.length) = true ∧
        (last = [] ∨ last <:+ (toLowercase key).toList) := by
    unfold keyPatternMatches
    simp only [hsplit, hlast, hsome]
    by_cases hfirst : first <+: (toLowercase key).toList
    · by_cases hfound : findParts parts ((toLowercase key).toList.drop first.length) = true
      · by_cases hempty : last = []
        · simp [hfirst, hfound, hempty]
        · by_cases hends : last <:+ (toLowercase key).toList
          · simp [hfirst, hfound, hempty, hends]
          · simp [hfirst, hfound, hempty, hends]
      · simp [hfirst, hfound]
    · simp [hfirst]
  rw [hjudged, MatchesPattern, fills_iff_spread hsplit, hparts]
  constructor
  · rintro ⟨⟨rest, hkey⟩, hfound, hends⟩
    rw [← hkey, List.drop_left] at hfound
    refine ⟨rest, hkey.symm, findParts_iff_spread.mp ⟨hfound, ?_⟩⟩
    rcases hends with rfl | hends
    · exact List.nil_suffix
    · rw [← hkey] at hends
      exact List.suffix_of_suffix_length_le hends (List.suffix_append first rest)
        (length_le_of_findParts hfound)
  · rintro ⟨rest, hkey, hspread⟩
    obtain ⟨hfound, hends⟩ := findParts_iff_spread.mpr hspread
    rw [hkey, List.drop_left]
    exact ⟨List.prefix_append first rest, hfound,
      .inr (hends.trans (List.suffix_append first rest))⟩

/-- A pattern without a star is compared with the key, unless it is empty. -/
theorem keyPatternMatches_plain {pattern key : String} {first : List Char}
    (hsplit : splitChar '*' (toLowercase pattern) = [first]) :
    keyPatternMatches pattern key = true ↔
      toLowercase pattern = "" ∨ toLowercase key = toLowercase pattern := by
  have hpattern : (toLowercase pattern).toList = first := eq_of_splitOnP hsplit
  have hempty : toLowercase pattern = "" ↔ first = [] := by
    rw [← hpattern, String.toList_eq_nil_iff]
  rw [hempty]
  unfold keyPatternMatches
  by_cases hfirst : first = []
  · simp [hsplit, hfirst, findParts]
  · by_cases hkey : toLowercase key = toLowercase pattern
    · simp [hsplit, hfirst, hkey, hpattern, findParts]
    · simp [hsplit, hfirst, hkey, findParts]

theorem matchesPattern_plain {pattern key : String} {first : List Char}
    (hsplit : splitChar '*' (toLowercase pattern) = [first]) :
    MatchesPattern pattern key ↔ toLowercase key = toLowercase pattern := by
  have hpattern : (toLowercase pattern).toList = first := eq_of_splitOnP hsplit
  rw [MatchesPattern, fills_iff_spread hsplit, ← String.toList_inj, hpattern]
  simp [Spread]

/-- A key pattern matches exactly the keys that it is with its stars replaced, unless it is empty:
an empty pattern matches every key, and only the empty one is a replacement of it. -/
theorem keyPatternMatches_exact_iff (pattern key : String) :
    (keyPatternMatches pattern key = true ↔ MatchesPattern pattern key) ↔
      toLowercase pattern ≠ "" ∨ toLowercase key = "" := by
  obtain ⟨first, parts, hsplit⟩ :=
    List.exists_cons_of_ne_nil (List.splitOnP_ne_nil (· == '*') (toLowercase pattern).toList)
  cases parts with
  | nil =>
    rw [keyPatternMatches_plain hsplit, matchesPattern_plain hsplit]
    by_cases hempty : toLowercase pattern = ""
    · simp [hempty]
    · simp [hempty]
  | cons part parts =>
    have hsome : toLowercase pattern ≠ "" := by
      intro hempty
      rw [hempty] at hsplit
      cases hsplit
    obtain ⟨init, last, hparts⟩ :=
      (List.eq_nil_or_concat (part :: parts)).resolve_left (List.cons_ne_nil part parts)
    rw [List.concat_eq_append] at hparts
    exact iff_of_true (keyPatternMatches_parts hsplit hparts) (.inl hsome)

end

section
attribute [local instance] asciiUnicode

/-- The empty pattern matches a key that is not empty. -/
theorem empty_pattern_matches :
    keyPatternMatches "" "eyes" = true ∧ ¬ MatchesPattern "" "eyes" ∧
      ({ temporalKeys := [""] } : ChronologyRules).isTemporalKey "eyes" = true := by
  refine ⟨by decide +kernel, ?_, by decide +kernel⟩
  intro h
  cases h

end
end Munarium

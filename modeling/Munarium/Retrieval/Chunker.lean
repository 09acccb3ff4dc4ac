import Mathlib.Algebra.GroupWithZero.Nat
import Munarium.Std.Text

/-! `para@2`: paragraphs are packed up to a byte limit, and what is longer is cut at character
boundaries. -/
namespace Munarium

/-- `str::len`, in bytes. -/
def byteLen (cs : List Char) : ℕ := (cs.map Char.utf8Size).sum

theorem byteLen_append (a b : List Char) : byteLen (a ++ b) = byteLen a + byteLen b := by
  simp [byteLen]

/-- `str::split` on a blank line. -/
def splitBlankLines : List Char → List (List Char)
  | [] => [[]]
  | '\n' :: '\n' :: rest => [] :: splitBlankLines rest
  | c :: rest =>
      match splitBlankLines rest with
      | [] => [[c]]
      | p :: ps => (c :: p) :: ps

/-- The offsets of `str::char_indices`. -/
def charIndices (offset : ℕ) : List Char → List ℕ
  | [] => []
  | c :: cs => offset :: charIndices (offset + c.utf8Size) cs

/-- The last character boundary within the limit, or the end of the first character. -/
def splitPoint (maxChars : ℕ) (current : List Char) : ℕ :=
  let splitAt :=
    ((charIndices 0 current).takeWhile fun i => decide (i ≤ maxChars)).getLast?.getD
      (byteLen current)
  if splitAt = 0 then (current.head?.map Char.utf8Size).getD (byteLen current) else splitAt

/-- `String::split_off` at a character boundary. -/
def splitOff (offset : ℕ) : List Char → List Char × List Char
  | [] => ([], [])
  | c :: cs =>
      if offset = 0 then ([], c :: cs)
      else ((c :: (splitOff (offset - c.utf8Size) cs).1), (splitOff (offset - c.utf8Size) cs).2)

theorem splitOff_append (offset : ℕ) (cs : List Char) :
    (splitOff offset cs).1 ++ (splitOff offset cs).2 = cs := by
  induction cs generalizing offset with
  | nil => rfl
  | cons c cs ih =>
    rw [splitOff]
    split_ifs
    · rfl
    · rw [List.cons_append, ih]

theorem splitPoint_pos {maxChars : ℕ} {current : List Char} (h : current ≠ []) :
    0 < splitPoint maxChars current := by
  obtain ⟨c, cs, rfl⟩ := List.exists_cons_of_ne_nil h
  have hc : 0 < c.utf8Size := c.utf8Size_pos
  rw [splitPoint]
  split_ifs with hzero
  · exact hc
  · exact Nat.pos_of_ne_zero hzero

/-- Cutting makes progress, also under a limit below the first character. -/
theorem splitOff_splitPoint_length {maxChars : ℕ} {current : List Char} (h : current ≠ []) :
    (splitOff (splitPoint maxChars current) current).2.length < current.length := by
  have hpos : 0 < splitPoint maxChars current := splitPoint_pos h
  obtain ⟨c, cs, rfl⟩ := List.exists_cons_of_ne_nil h
  have happend := splitOff_append (splitPoint maxChars (c :: cs) - c.utf8Size) cs
  have hlength := congrArg List.length happend
  rw [List.length_append] at hlength
  rw [splitOff, if_neg hpos.ne', List.length_cons]
  show (splitOff (splitPoint maxChars (c :: cs) - c.utf8Size) cs).2.length < cs.length + 1
  omega

def cutOversized (maxChars : ℕ) (chunks : List (List Char)) (current : List Char) :
    List (List Char) × List Char :=
  if byteLen current > maxChars then
    cutOversized maxChars (chunks ++ [(splitOff (splitPoint maxChars current) current).1])
      (splitOff (splitPoint maxChars current) current).2
  else (chunks, current)
termination_by current.length
decreasing_by
  apply splitOff_splitPoint_length
  rintro rfl
  simp [byteLen] at *

def packParagraph (maxChars : ℕ) (state : List (List Char) × List Char) (para : List Char) :
    List (List Char) × List Char :=
  let (chunks, current) := state
  let (chunks, current) :=
    if current ≠ [] ∧ byteLen current + byteLen para + 2 > maxChars then
      (chunks ++ [current], [])
    else (chunks, current)
  let current := if current ≠ [] then current ++ ['\n', '\n'] else current
  cutOversized maxChars chunks (current ++ para)

def chunkText (text : List Char) (maxChars : ℕ) : List (List Char) :=
  let paras := ((splitBlankLines text).map trimChars).filter fun p => !p.isEmpty
  let (chunks, current) := paras.foldl (packParagraph maxChars) ([], [])
  if current ≠ [] then chunks ++ [current] else chunks

section Limits

theorem cutOversized_append (maxChars : ℕ) (chunks : List (List Char)) (current : List Char) :
    cutOversized maxChars chunks current =
      (chunks ++ (cutOversized maxChars [] current).1, (cutOversized maxChars [] current).2) := by
  induction h : current.length using Nat.strong_induction_on generalizing chunks current with
  | _ n ih =>
    rw [cutOversized]
    conv_rhs => rw [cutOversized]
    split_ifs with hlong
    · have hne : current ≠ [] := by
        rintro rfl
        simp [byteLen] at hlong
      have hlt : (splitOff (splitPoint maxChars current) current).2.length < n :=
        h ▸ splitOff_splitPoint_length hne
      rw [ih _ hlt _ _ rfl, List.nil_append, ih _ hlt [_] _ rfl]
      simp
    · simp

/-- Text of one letter repeated. -/
def letters (n : ℕ) : List Char := List.replicate n 'a'

theorem byteLen_letters (n : ℕ) : byteLen (letters n) = n := by
  simp [byteLen, letters, show Char.utf8Size 'a' = 1 from rfl]

theorem charIndices_letters (offset n : ℕ) :
    charIndices offset (letters n) = List.range' offset n := by
  induction n generalizing offset with
  | zero => rfl
  | succ n ih => exact congrArg (offset :: ·) (ih (offset + 1))

theorem splitPoint_letters {maxChars n : ℕ} (hpos : 0 < maxChars) (h : maxChars < n) :
    splitPoint maxChars (letters n) = maxChars := by
  have hbefore : (List.range' 0 n).takeWhile (fun i => decide (i ≤ maxChars)) =
      List.range' 0 (maxChars + 1) := by
    obtain ⟨k, rfl⟩ : ∃ k, n = maxChars + 1 + k := ⟨n - (maxChars + 1), by omega⟩
    rw [← List.range'_append_1, List.takeWhile_append_of_pos]
    · cases k with
      | zero => simp
      | succ k =>
        have hover : (List.range' (0 + (maxChars + 1)) (k + 1)).takeWhile
            (fun i => decide (i ≤ maxChars)) = [] := by
          rw [List.range'_succ]
          exact List.takeWhile_cons_of_neg (by simp)
        rw [hover, List.append_nil]
    · intro i hi
      have hlt := (List.mem_range'_1.mp hi).2
      simpa using by omega
  rw [splitPoint, charIndices_letters, hbefore, List.range'_concat]
  simp [hpos.ne']

theorem splitOff_letters {k n : ℕ} (h : k ≤ n) :
    splitOff k (letters n) = (letters k, letters (n - k)) := by
  induction n generalizing k with
  | zero =>
    obtain rfl : k = 0 := by omega
    rfl
  | succ n ih =>
    cases k with
    | zero => rfl
    | succ k =>
      have hrest := ih (k := k) (by omega)
      change (if k + 1 = 0 then _ else ('a' :: (splitOff (k + 1 - 1) (letters n)).1,
        (splitOff (k + 1 - 1) (letters n)).2)) = _
      rw [if_neg (by omega), Nat.add_sub_cancel, hrest, Nat.add_sub_add_right]
      rfl

theorem chunkText_letters {n maxChars : ℕ} (hn : 0 < n) :
    chunkText (letters n) maxChars =
      (cutOversized maxChars [] (letters n)).1 ++
        (if (cutOversized maxChars [] (letters n)).2 ≠ [] then
          [(cutOversized maxChars [] (letters n)).2] else []) := by
  have hsplit : splitBlankLines (letters n) = [letters n] := by
    clear hn
    induction n with
    | zero => rfl
    | succ n ih =>
      change (match splitBlankLines (letters n) with
        | [] => [['a']]
        | p :: ps => ('a' :: p) :: ps) = _
      rw [ih]
      rfl
  have htrim : trimChars (letters n) = letters n := by
    have hdrop : ∀ k, (letters k).dropWhile isWhitespace = letters k := by
      intro k
      cases k with
      | zero => rfl
      | succ k => rfl
    rw [trimChars, hdrop, letters, List.reverse_replicate, ← letters, hdrop, letters,
      List.reverse_replicate]
  have hne : (letters n).isEmpty = false := by
    cases n with
    | zero => omega
    | succ n => rfl
  rw [chunkText, hsplit]
  simp only [List.map_cons, List.map_nil, htrim, List.filter_cons, hne, Bool.not_false,
    List.filter_nil, if_true, List.foldl_cons, List.foldl_nil, packParagraph]
  split_ifs <;> simp_all

theorem letters_ne_nil {n : ℕ} (h : 0 < n) : letters n ≠ [] := by
  intro he
  have hlength := congrArg List.length he
  simp [letters] at hlength
  omega

theorem cutOversized_fits {n maxChars : ℕ} (h : n ≤ maxChars) :
    cutOversized maxChars [] (letters n) = ([], letters n) := by
  rw [cutOversized, if_neg (by rw [byteLen_letters]; omega)]

/-- A text within the limit is one chunk. -/
theorem chunkText_fits {n maxChars : ℕ} (hn : 0 < n) (h : n ≤ maxChars) :
    chunkText (letters n) maxChars = [letters n] := by
  rw [chunkText_letters hn, cutOversized_fits h, if_pos (letters_ne_nil hn)]
  rfl

/-- One letter more than the limit makes a second chunk. -/
theorem chunkText_over {m : ℕ} (hm : 0 < m) :
    chunkText (letters (m + 1)) m = [letters m, letters 1] := by
  have hcut : cutOversized m [] (letters (m + 1)) = ([letters m], letters 1) := by
    rw [cutOversized, if_pos (by rw [byteLen_letters]; omega),
      splitPoint_letters hm (Nat.lt_succ_self m), splitOff_letters (Nat.le_succ m),
      cutOversized_append, show m.succ - m = 1 by omega, cutOversized_fits hm]
    rfl
  rw [chunkText_letters (Nat.succ_pos m), hcut, if_pos (letters_ne_nil Nat.one_pos)]
  rfl

end Limits
end Munarium

import Munarium.Datastore.Tokenizer
import Munarium.Lib.SpanCover

/-! The tokens of a text cover every letter and number once, compounds apart. -/
namespace Munarium

/-- A token by itself, or a compound before its parts. -/
inductive Reading where
  | single (t : Token)
  | compound (t : Token) (parts : List Token)

namespace Reading

def tokens : Reading → List Token
  | single t => [t]
  | compound t parts => t :: parts

/-- The tokens that are not compound. -/
def plain : Reading → List Token
  | single t => [t]
  | compound _ parts => parts

end Reading

/-- The token is the text between its offsets. -/
def Delimits (text : List Char) (t : Token) : Prop :=
  t.text ≠ [] ∧ ∃ before after, text = before ++ (t.text ++ after) ∧
    t.offsetFrom = byteLen before ∧ t.offsetTo = byteLen before + byteLen t.text

/-- From its first part to its last one, with a hyphen between two of them. -/
structure CompoundOf (t : Token) (parts : List Token) : Prop where
  several : 2 ≤ parts.length
  starts : parts.head?.map Token.offsetFrom = some t.offsetFrom
  ends : parts.getLast?.map Token.offsetTo = some t.offsetTo
  joined : t.text = ['-'].intercalate (parts.map Token.text)

def Token.span (t : Token) : ℕ × ℕ := (t.offsetFrom, t.offsetTo)

section Slices
variable {chars : List Char} {i j k : ℕ}

def slice (chars : List Char) (s : ℕ × ℕ) : List Char := (chars.take s.2).drop s.1

def byteAt (chars : List Char) (i : ℕ) : ℕ := byteLen (chars.take i)

theorem slice_append (hij : i ≤ j) (hjk : j ≤ k) :
    slice chars (i, j) ++ slice chars (j, k) = slice chars (i, k) := by
  have htake : (chars.take k).take j = chars.take j := by
    rw [List.take_take, min_eq_left hjk]
  have hsplit : (chars.take k).drop i =
      ((chars.take k).take j).drop i ++ (chars.take k).drop j := by
    rcases Nat.le_total j (chars.take k).length with hle | hle
    · conv_lhs => rw [← List.take_append_drop j (chars.take k)]
      rw [List.drop_append_of_le_length (by rw [List.length_take]; omega)]
    · rw [List.take_of_length_le hle, List.drop_eq_nil_of_le hle, List.append_nil]
  rw [htake] at hsplit
  exact hsplit.symm

theorem slice_cons {c : Char} (h : chars[i]? = some c) (hij : i < j) :
    slice chars (i, j) = c :: slice chars (i + 1, j) := by
  obtain ⟨hi, hget⟩ := List.getElem?_eq_some_iff.mp h
  have hlen : i < (chars.take j).length := by
    rw [List.length_take]
    omega
  rw [slice, List.drop_eq_getElem_cons hlen, List.getElem_take, hget]
  rfl

theorem take_append_slice (hij : i ≤ j) : chars.take i ++ slice chars (i, j) = chars.take j :=
  slice_append (Nat.zero_le i) hij

theorem byteAt_lt (hij : i < j) (hj : j ≤ chars.length) : byteAt chars i < byteAt chars j := by
  have hi : i < chars.length := hij.trans_le hj
  have hget : chars[i]? = some chars[i] := List.getElem?_eq_getElem hi
  have hpos := chars[i].utf8Size_pos
  rw [byteAt, byteAt, ← take_append_slice hij.le, byteLen_append, slice_cons hget hij]
  simp only [byteLen, List.map_cons, List.sum_cons]
  omega

theorem byteAt_le (hij : i ≤ j) : byteAt chars i ≤ byteAt chars j := by
  rw [byteAt, byteAt, ← take_append_slice hij, byteLen_append]
  omega

theorem delimits_pushToken {s : ℕ × ℕ} {position : ℕ} (hlt : s.1 < s.2)
    (hle : s.2 ≤ chars.length) : Delimits chars (pushToken chars s position) := by
  refine ⟨?_, chars.take s.1, chars.drop s.2, ?_, rfl, ?_⟩
  · intro hnil
    have hlen := congrArg List.length hnil
    simp only [pushToken, List.length_drop, List.length_take, List.length_nil] at hlen
    omega
  · have htake : chars.take s.1 ++ (pushToken chars s position).text = chars.take s.2 :=
      take_append_slice hlt.le
    rw [← List.append_assoc, htake, List.take_append_drop]
  · have htake : chars.take s.1 ++ (pushToken chars s position).text = chars.take s.2 :=
      take_append_slice hlt.le
    rw [← byteLen_append, htake]
    rfl

end Slices

section Bounds
variable {chars : List Char} {i : ℕ}

theorem runWhile_le (p : Char → Bool) (hi : i ≤ chars.length) :
    runWhile chars p i ≤ chars.length := by
  have hle := (List.takeWhile_sublist (l := chars.drop i) p).length_le
  rw [List.length_drop] at hle
  unfold runWhile
  omega

theorem joinRuns_le (sep : Char) (starts inside : Char → Bool) (hi : i ≤ chars.length) :
    joinRuns chars sep starts inside i ≤ chars.length := by
  fun_induction joinRuns chars sep starts inside i with
  | case1 i h ih =>
    have hlt := lt_length_of_isAt chars (Bool.and_eq_true_iff.mp h).1
    exact ih (runWhile_le inside hlt)
  | case2 i _ => exact hi

theorem afterSign_le (hi : i ≤ chars.length) : afterSign chars i ≤ chars.length := by
  unfold afterSign
  split_ifs with h
  · rcases Bool.or_eq_true_iff.mp h with h | h
    · exact lt_length_of_isAt chars h
    · exact lt_length_of_isAt chars h
  · exact hi

variable [UnicodeAlphanumeric]

theorem consumeNumber_le (hi : i ≤ chars.length) : consumeNumber chars i ≤ chars.length := by
  have hdots : dottedDigits chars (digitsEnd chars i) ≤ chars.length :=
    joinRuns_le _ _ _ (runWhile_le _ hi)
  unfold consumeNumber
  dsimp only
  split_ifs with htail
  · have hexponent := (Bool.and_eq_true_iff.mp (Bool.and_eq_true_iff.mp htail).1).1
    have hlt : dottedDigits chars (digitsEnd chars i) < chars.length := by
      rcases Bool.or_eq_true_iff.mp hexponent with h | h
      · exact lt_length_of_isAt chars h
      · exact lt_length_of_isAt chars h
    exact runWhile_le _ (afterSign_le hlt)
  · exact hdots

theorem numberEnd_le (hi : i ≤ chars.length) : numberEnd chars i ≤ chars.length := by
  have hdigits : digitsEnd chars i ≤ chars.length := runWhile_le _ hi
  unfold numberEnd
  dsimp only
  split_ifs
  · exact max_le hdigits (runWhile_le _ hdigits)
  · exact joinRuns_le _ _ _ hdigits
  · exact consumeNumber_le hi

theorem wordEnd_le (hi : i ≤ chars.length) : wordEnd chars i ≤ chars.length := by
  have hrun : runEnd chars i ≤ chars.length := runWhile_le _ hi
  unfold wordEnd
  dsimp only
  split_ifs
  · exact joinRuns_le _ _ _ hrun
  · exact hrun

end Bounds

section Chains
variable [UnicodeAlphanumeric] {chars : List Char} {i j : ℕ}

/-- A letter or number is at this place. -/
def IsWordChar (chars : List Char) (i : ℕ) : Prop :=
  ∃ c, chars[i]? = some c ∧ isAlphanumeric c = true

/-- Where the last part of a hyphen chain ends. -/
def chainEnd (chars : List Char) (j : ℕ) : ℕ := ((chainParts chars j).getLast?.map Prod.snd).getD j

theorem chainParts_cons (h : (isAt chars '-' j && atLetter chars (j + 1)) = true)
    (hletters : runAllLetters chars (j + 1) (runEnd chars (j + 1)) = true) :
    chainParts chars j =
      (j + 1, runEnd chars (j + 1)) :: chainParts chars (runEnd chars (j + 1)) := by
  rw [chainParts, if_pos h, if_pos hletters]

theorem chainEnd_cons (h : (isAt chars '-' j && atLetter chars (j + 1)) = true)
    (hletters : runAllLetters chars (j + 1) (runEnd chars (j + 1)) = true) :
    chainEnd chars j = chainEnd chars (runEnd chars (j + 1)) := by
  rw [chainEnd, chainParts_cons h hletters, List.getLast?_cons, chainEnd]
  cases (chainParts chars (runEnd chars (j + 1))).getLast? <;> rfl

/-- A chain has no further part, or it goes on behind its next one. -/
theorem chain_induction {motive : ℕ → Prop}
    (done : ∀ j, chainParts chars j = [] → chainEnd chars j = j → motive j)
    (part : ∀ j, (isAt chars '-' j && atLetter chars (j + 1)) = true →
      runAllLetters chars (j + 1) (runEnd chars (j + 1)) = true →
      motive (runEnd chars (j + 1)) → motive j) (j : ℕ) : motive j := by
  have hend (j : ℕ) (h : chainParts chars j = []) : motive j := by
    apply done j h
    rw [chainEnd, h]
    rfl
  fun_induction chainParts chars j with
  | case1 j h hletters ih => exact part j h hletters ih
  | case2 j h hletters => exact hend j (by rw [chainParts, if_pos h, if_neg hletters])
  | case3 j h => exact hend j (by rw [chainParts, if_neg h])

theorem not_isWordChar_hyphen (h : isAt chars '-' j = true) : ¬ IsWordChar chars j := by
  rintro ⟨c, hc, hword⟩
  have hhyphen : chars[j]? = some '-' := by simpa [isAt] using h
  obtain rfl : '-' = c := Option.some.inj (hhyphen.symm.trans hc)
  have hplain : isAlphanumeric '-' = false := by rfl
  rw [hplain] at hword
  cases hword

/-- The parts of a hyphen chain cover it. -/
theorem chainParts_cover (chars : List Char) (j : ℕ) :
    SpanCover (IsWordChar chars) j (chainParts chars j) (chainEnd chars j) := by
  induction j using chain_induction with
  | done j hparts hend =>
    rw [hparts, hend]
    exact .done j
  | part j h hletters ih =>
    have hletter : ∃ c, chars[j + 1]? = some c ∧ isLetter c = true := by
      simpa [atLetter, Option.any_eq_true] using (Bool.and_eq_true_iff.mp h).2
    obtain ⟨c, hc, hletter⟩ := hletter
    have hrun : j + 1 < runEnd chars (j + 1) :=
      lt_runWhile hc (Bool.and_eq_true_iff.mp hletter).1
    rw [chainParts_cons h hletters, chainEnd_cons h hletters]
    exact .skip (not_isWordChar_hyphen (Bool.and_eq_true_iff.mp h).1) (.take hrun ih)

theorem chainEnd_le (hj : j ≤ chars.length) : chainEnd chars j ≤ chars.length := by
  induction j using chain_induction with
  | done j _ hend => rwa [hend]
  | part j h hletters ih =>
    have hlt := lt_length_of_isAt chars (Bool.and_eq_true_iff.mp h).1
    rw [chainEnd_cons h hletters]
    exact ih (runWhile_le _ hlt)

/-- A hyphen stands before every further part, and nothing else between two of them. -/
theorem slice_chain (chars : List Char) (j : ℕ) :
    slice chars (j, chainEnd chars j) =
      (chainParts chars j).flatMap fun s => '-' :: slice chars s := by
  induction j using chain_induction with
  | done j hparts hend =>
    rw [hparts, hend]
    simp [slice]
  | part j h hletters ih =>
    have hcover := chainParts_cover chars (runEnd chars (j + 1))
    have hrun : j + 1 ≤ runEnd chars (j + 1) := le_runWhile chars _ _
    have hhyphen : chars[j]? = some '-' := by
      simpa [isAt] using (Bool.and_eq_true_iff.mp h).1
    rw [chainParts_cons h hletters, chainEnd_cons h hletters, List.flatMap_cons, ← ih,
      slice_cons hhyphen (by have := hcover.le; omega), ← slice_append hrun hcover.le,
      List.cons_append]

end Chains

section Pushing
variable {chars : List Char} {position : ℕ}

theorem pushAll_append (chars : List Char) (position : ℕ) (spans more : List (ℕ × ℕ)) :
    pushAll chars position (spans ++ more) =
      pushAll chars position spans ++ pushAll chars (position + spans.length) more := by
  induction spans generalizing position with
  | nil => rfl
  | cons s spans ih =>
    rw [List.cons_append, pushAll, ih, List.length_cons, pushAll, List.cons_append,
      Nat.add_right_comm, Nat.add_assoc]

theorem pushAll_spans (chars : List Char) (position : ℕ) (spans : List (ℕ × ℕ)) :
    (pushAll chars position spans).map Token.span =
      spans.map fun s => (byteAt chars s.1, byteAt chars s.2) := by
  induction spans generalizing position with
  | nil => rfl
  | cons s spans ih => exact congrArg (_ :: ·) (ih (position + 1))

theorem pushAll_texts (chars : List Char) (position : ℕ) (spans : List (ℕ × ℕ)) :
    (pushAll chars position spans).map Token.text = spans.map (slice chars) := by
  induction spans generalizing position with
  | nil => rfl
  | cons s spans ih => exact congrArg (_ :: ·) (ih (position + 1))

theorem pushAll_positions (chars : List Char) (position : ℕ) (spans : List (ℕ × ℕ)) :
    (pushAll chars position spans).map Token.position = List.range' position spans.length := by
  induction spans generalizing position with
  | nil => rfl
  | cons s spans ih => exact congrArg (position :: ·) (ih (position + 1))

theorem mem_pushAll {t : Token} {spans : List (ℕ × ℕ)} (h : t ∈ pushAll chars position spans) :
    ∃ s ∈ spans, ∃ n, t = pushToken chars s n := by
  induction spans generalizing position with
  | nil => cases h
  | cons s spans ih =>
    rcases List.mem_cons.mp h with rfl | h
    · exact ⟨s, List.mem_cons_self, position, rfl⟩
    · obtain ⟨s', hs', n, rfl⟩ := ih h
      exact ⟨s', List.mem_cons_of_mem _ hs', n, rfl⟩

theorem intercalate_cons_flatMap (sep x : List Char) (xs : List (List Char)) :
    sep.intercalate (x :: xs) = x ++ xs.flatMap fun y => sep ++ y := by
  induction xs generalizing x with
  | nil => simp
  | cons y xs ih =>
    rw [List.intercalate_cons_cons, ih, List.flatMap_cons, List.append_assoc, List.append_assoc]

end Pushing

section Turns
variable [UnicodeAlphanumeric] {chars : List Char} {i j k position : ℕ} {c : Char}

/-- The tokens from one place of the text to another, read as single tokens and compounds. -/
structure ReadAs (chars : List Char) (i : ℕ) (tokens : List Token) (j : ℕ)
    (readings : List Reading) : Prop where
  flat : tokens = readings.flatMap Reading.tokens
  cover : ∃ spans, SpanCover (IsWordChar chars) i spans j ∧
    (readings.flatMap Reading.plain).map Token.span =
      spans.map fun s => (byteAt chars s.1, byteAt chars s.2)
  compound : ∀ t parts, Reading.compound t parts ∈ readings → CompoundOf t parts
  delimits : ∀ t ∈ tokens, Delimits chars t

theorem ReadAs.append {first second : List Token} {readings more : List Reading}
    (h : ReadAs chars i first j readings) (h' : ReadAs chars j second k more) :
    ReadAs chars i (first ++ second) k (readings ++ more) := by
  obtain ⟨spans, hcover, hspans⟩ := h.cover
  obtain ⟨spans', hcover', hspans'⟩ := h'.cover
  constructor
  · rw [h.flat, h'.flat, List.flatMap_append]
  · refine ⟨spans ++ spans', hcover.append hcover', ?_⟩
    rw [List.flatMap_append, List.map_append, List.map_append, hspans, hspans']
  · intro t parts hmem
    rcases List.mem_append.mp hmem with hmem | hmem
    · exact h.compound t parts hmem
    · exact h'.compound t parts hmem
  · intro t ht
    rcases List.mem_append.mp ht with ht | ht
    · exact h.delimits t ht
    · exact h'.delimits t ht

theorem ReadAs.empty (h : SpanCover (IsWordChar chars) i [] j) : ReadAs chars i [] j [] := by
  constructor
  · rfl
  · exact ⟨[], h, rfl⟩
  · intro t parts hmem
    cases hmem
  · intro t ht
    cases ht

theorem ReadAs.single (hlt : i < j) (hle : j ≤ chars.length) :
    ReadAs chars i (pushAll chars position [(i, j)]) j
      [.single (pushToken chars (i, j) position)] := by
  constructor
  · rfl
  · exact ⟨[(i, j)], .single hlt, rfl⟩
  · intro t parts hmem
    simp at hmem
  · intro t ht
    obtain rfl := List.mem_singleton.mp ht
    exact delimits_pushToken hlt hle

theorem chain_getLast (chars : List Char) (i j : ℕ) :
    ((i, j) :: chainParts chars j).getLast?.map Prod.snd = some (chainEnd chars j) := by
  rw [List.getLast?_cons, chainEnd]
  cases (chainParts chars j).getLast? <;> rfl

/-- A letter chain: the whole of it, then its parts. -/
theorem ReadAs.chain {s : ℕ × ℕ} {rest : List (ℕ × ℕ)} (hlt : i < j)
    (hparts : chainParts chars j = s :: rest) (hj : j ≤ chars.length) :
    ReadAs chars i (pushAll chars position ((i, chainEnd chars j) :: (i, j) :: chainParts chars j))
      (chainEnd chars j) [.compound (pushToken chars (i, chainEnd chars j) position)
        (pushAll chars (position + 1) ((i, j) :: chainParts chars j))] := by
  have hcover := chainParts_cover chars j
  have hall : SpanCover (IsWordChar chars) i ((i, j) :: chainParts chars j) (chainEnd chars j) :=
    .take hlt hcover
  have hend : chainEnd chars j ≤ chars.length := chainEnd_le hj
  constructor
  · rw [List.flatMap_singleton]
    rfl
  · refine ⟨_, hall, ?_⟩
    rw [List.flatMap_singleton]
    exact pushAll_spans chars (position + 1) _
  · intro t parts hmem
    obtain ⟨rfl, rfl⟩ := Reading.compound.inj (List.mem_singleton.mp hmem)
    constructor
    · rw [hparts]
      exact Nat.le_add_left _ _
    · rfl
    · have hspans := pushAll_spans chars (position + 1) ((i, j) :: chainParts chars j)
      have hlast := congrArg (fun l => l.getLast?.map Prod.snd) hspans
      simp only [List.getLast?_map, Option.map_map] at hlast
      refine hlast.trans ?_
      have hchain := congrArg (Option.map (byteAt chars)) (chain_getLast chars i j)
      rwa [Option.map_map] at hchain
    · rw [pushAll_texts, List.map_cons, intercalate_cons_flatMap, List.flatMap_map]
      show slice chars (i, chainEnd chars j) =
        slice chars (i, j) ++ (chainParts chars j).flatMap fun s => '-' :: slice chars s
      rw [← slice_chain, slice_append hlt.le hcover.le]
  · intro t ht
    rcases List.mem_cons.mp ht with rfl | ht
    · exact delimits_pushToken (hlt.trans_le hcover.le) hend
    · obtain ⟨s, hs, n, rfl⟩ := mem_pushAll ht
      obtain ⟨-, hs, hsle⟩ := hall.bounds s hs
      exact delimits_pushToken hs (hsle.trans hend)

/-- One turn of the loop reads a token, a letter chain, or a character that is no part of a
token. -/
theorem scanTurn_readAs (hc : chars[i]? = some c) :
    (scanTurn chars i c).2 ≤ chars.length ∧
      ∃ readings, ReadAs chars i (pushAll chars position (scanTurn chars i c).1)
        (scanTurn chars i c).2 readings := by
  have hi : i < chars.length := (List.getElem?_eq_some_iff.mp hc).1
  have hlt := lt_scanTurn hc
  unfold scanTurn at hlt ⊢
  dsimp only at hlt ⊢
  split_ifs at hlt ⊢ with hsign hdigit hword hchain
  · exact ⟨consumeNumber_le hi, _, .single hlt (consumeNumber_le hi)⟩
  · exact ⟨numberEnd_le hi.le, _, .single hlt (numberEnd_le hi.le)⟩
  · have hrun : runEnd chars i ≤ chars.length := runWhile_le _ hi.le
    rw [List.tail_cons] at hlt ⊢
    cases hparts : chainParts chars (runEnd chars i) with
    | nil =>
      simp only [hparts, List.getLast?_nil] at hlt ⊢
      exact ⟨wordEnd_le hi.le, _, .single hlt (wordEnd_le hi.le)⟩
    | cons s rest =>
      obtain ⟨last, hlast⟩ : ∃ last, (chainParts chars (runEnd chars i)).getLast? = some last :=
        ⟨_, by rw [hparts]; exact List.getLast?_eq_some_getLast (List.cons_ne_nil _ _)⟩
      have hend : last.2 = chainEnd chars (runEnd chars i) := by
        rw [chainEnd, hlast]
        rfl
      rw [← hparts, hlast]
      obtain ⟨a, b⟩ := last
      obtain rfl : b = chainEnd chars (runEnd chars i) := hend
      exact ⟨chainEnd_le hrun, _, .chain (lt_runWhile hc hword) hparts hrun⟩
  · exact ⟨wordEnd_le hi.le, _, .single hlt (wordEnd_le hi.le)⟩
  · refine ⟨hi, [], .empty (.skip ?_ (.done _))⟩
    rintro ⟨c', hc', hword'⟩
    obtain rfl := Option.some.inj (hc.symm.trans hc')
    exact hword hword'

/-- The whole run, turn by turn. -/
theorem scanFrom_readAs (hi : i ≤ chars.length) :
    ∃ readings, ReadAs chars i (scanFrom chars i position) chars.length readings := by
  fun_induction scanFrom chars i position with
  | case1 i position hnone =>
    obtain rfl : i = chars.length := le_antisymm hi (List.getElem?_eq_none_iff.mp hnone)
    exact ⟨[], .empty (.done _)⟩
  | case2 i position c hc ih =>
    obtain ⟨hle, readings, hturn⟩ := scanTurn_readAs hc
    obtain ⟨more, hrest⟩ := ih hle
    exact ⟨readings ++ more, hturn.append hrest⟩

theorem scanFrom_positions (chars : List Char) (i position : ℕ) :
    (scanFrom chars i position).map Token.position =
      List.range' position (scanFrom chars i position).length := by
  fun_induction scanFrom chars i position with
  | case1 => rfl
  | case2 i position c hc ih =>
    have hlen : (pushAll chars position (scanTurn chars i c).1).length =
        (scanTurn chars i c).1.length := by
      have := congrArg List.length (pushAll_spans chars position (scanTurn chars i c).1)
      simpa using this
    rw [List.map_append, ih, pushAll_positions, List.length_append, hlen, List.range'_append_1]

end Turns

section Bytes
variable [UnicodeAlphanumeric] {text : List Char}

/-- A letter or number starts at this byte. -/
def IsWordByte (text : List Char) (k : ℕ) : Prop :=
  ∃ before c after, text = before ++ c :: after ∧ byteLen before = k ∧ isAlphanumeric c = true

/-- Only the first byte of a character is marked. -/
theorem isWordChar_of_isWordByte {i k : ℕ} (hi : i < text.length) (hle : byteAt text i ≤ k)
    (hlt : k < byteAt text (i + 1)) (h : IsWordByte text k) : IsWordChar text i := by
  obtain ⟨before, c, after, htext, hk, hword⟩ := h
  have hat : byteAt text before.length = k := by
    rw [byteAt, htext, List.take_left' rfl, hk]
  have hlen : before.length < text.length := by
    have := congrArg List.length htext
    simp only [List.length_append, List.length_cons] at this
    omega
  obtain rfl : before.length = i := by
    rcases Nat.lt_trichotomy before.length i with hbefore | heq | hafter
    · have := byteAt_lt hbefore hi.le
      omega
    · exact heq
    · have hmono : byteAt text (i + 1) ≤ byteAt text before.length := byteAt_le hafter
      omega
  refine ⟨c, ?_, hword⟩
  rw [htext, List.getElem?_append_right (le_refl _), Nat.sub_self]
  rfl

/-- The scan ends, and its tokens, compounds apart, are in order and cover every letter and number
of the text once; every token is the text between its offsets, a compound is its parts, and the
positions count the tokens. -/
theorem scan_exact (text : List Char) :
    ∃ readings : List Reading, scan text = readings.flatMap Reading.tokens ∧
      (∀ t parts, Reading.compound t parts ∈ readings → CompoundOf t parts) ∧
      (∀ t ∈ scan text, Delimits text t) ∧
      ((readings.flatMap Reading.plain).Pairwise fun s t => s.offsetTo ≤ t.offsetFrom) ∧
      (∀ before c after, text = before ++ c :: after → isAlphanumeric c = true →
        ∃ t, (readings.flatMap Reading.plain).filter
          (fun t => decide (t.offsetFrom ≤ byteLen before ∧ byteLen before < t.offsetTo)) = [t]) ∧
      (scan text).map Token.position = List.range (scan text).length := by
  obtain ⟨readings, hread⟩ : ∃ readings, ReadAs text 0 (scan text) text.length readings :=
    scanFrom_readAs (Nat.zero_le _)
  obtain ⟨spans, hcover, hspans⟩ := hread.cover
  have hbytes : SpanCover (IsWordByte text) (byteAt text 0)
      (spans.map fun s => (byteAt text s.1, byteAt text s.2)) (byteAt text text.length) :=
    hcover.map (fun a b hab hb => byteAt_lt hab hb)
      fun a n ha hle hlt => isWordChar_of_isWordByte ha hle hlt
  rw [← hspans] at hbytes
  refine ⟨readings, hread.flat, hread.compound, hread.delimits,
    List.pairwise_map.mp hbytes.pairwise, ?_, ?_⟩
  · intro before c after htext hword
    have hlt : byteLen before < byteAt text text.length := by
      rw [byteAt, List.take_length, htext, byteLen_append]
      have := c.utf8Size_pos
      simp only [byteLen, List.map_cons, List.sum_cons]
      omega
    obtain ⟨s, hs⟩ := hbytes.exactly_once (Nat.zero_le _) hlt ⟨before, c, after, htext, rfl, hword⟩
    rw [List.filter_map] at hs
    obtain ⟨t, ht, -⟩ := List.map_eq_singleton_iff.mp hs
    exact ⟨t, ht⟩
  · rw [List.range_eq_range']
    exact scanFrom_positions text 0 0

end Bytes
end Munarium

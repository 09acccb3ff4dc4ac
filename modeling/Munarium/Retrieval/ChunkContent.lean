import Munarium.Retrieval.Chunker
import Mathlib.Data.List.Infix
import Mathlib.Data.List.TakeWhile

/-! The chunks of a text hold its paragraphs, cut at character boundaries and nowhere else. -/
namespace Munarium

/-- A text without its blank lines. -/
def unseparated (cs : List Char) : List Char := (splitBlankLines cs).flatten

/-- The trimmed paragraphs of a text. -/
def paragraphs (text : List Char) : List (List Char) := (splitBlankLines text).map trimChars

def isContent (c : Char) : Bool := !isWhitespace c

/-- Some text, of at most so many bytes or of one character. -/
def FitsChunk (maxChars : ℕ) (chunk : List Char) : Prop :=
  chunk ≠ [] ∧ (byteLen chunk ≤ maxChars ∨ chunk.length = 1)

def NoBlankLine (cs : List Char) : Prop := ¬ ['\n', '\n'] <:+: cs

section BlankLines
variable {cs a b : List Char}

theorem splitBlankLines_ne_nil (cs : List Char) : splitBlankLines cs ≠ [] := by
  fun_cases splitBlankLines cs <;> simp

theorem splitBlankLines_cons (c : Char) (cs : List Char) (h : ¬ (c = '\n' ∧ cs.head? = some '\n')) :
    ∃ p ps, splitBlankLines cs = p :: ps ∧ splitBlankLines (c :: cs) = (c :: p) :: ps := by
  obtain ⟨p, ps, hp⟩ := List.exists_cons_of_ne_nil (splitBlankLines_ne_nil cs)
  refine ⟨p, ps, hp, ?_⟩
  rw [splitBlankLines, hp]
  rintro rest rfl rfl
  exact h ⟨rfl, rfl⟩

/-- A separator after a text that does not end in a line feed splits there. -/
theorem splitBlankLines_append (h : a.getLast? ≠ some '\n') :
    splitBlankLines (a ++ '\n' :: '\n' :: b) = splitBlankLines a ++ splitBlankLines b := by
  fun_induction splitBlankLines a with
  | case1 => rfl
  | case2 rest ih =>
    have hrest : rest.getLast? ≠ some '\n' := by
      cases rest with
      | nil => simp at h
      | cons c rest => simpa using h
    simp only [List.cons_append, splitBlankLines, ih hrest]
  | case3 c rest hnot hnil => exact absurd hnil (splitBlankLines_ne_nil _)
  | case4 c rest hnot p ps hp ih =>
    have hrest : rest.getLast? ≠ some '\n' := by
      cases rest with
      | nil => simp
      | cons d rest => simpa using h
    have hplain : ¬ (c = '\n' ∧ (rest ++ '\n' :: '\n' :: b).head? = some '\n') := by
      rintro ⟨rfl, hhead⟩
      cases rest with
      | nil => exact h rfl
      | cons d rest =>
        obtain rfl : d = '\n' := by simpa using hhead
        exact hnot rest rfl rfl
    obtain ⟨p', ps', hp', hsplit⟩ := splitBlankLines_cons _ _ hplain
    rw [ih hrest, hp, List.cons_append] at hp'
    obtain ⟨rfl, rfl⟩ := List.cons.inj hp'
    rw [List.cons_append, hsplit, List.cons_append]

theorem noBlankLine_split (h : NoBlankLine cs) : splitBlankLines cs = [cs] := by
  induction cs with
  | nil => rfl
  | cons c cs ih =>
    have hcs : NoBlankLine cs := fun hin => h (hin.trans (List.suffix_cons _ _).isInfix)
    obtain ⟨p, ps, hp, hsplit⟩ := splitBlankLines_cons c cs (by
      rintro ⟨rfl, hhead⟩
      obtain ⟨rest, rfl⟩ := List.head?_eq_some_iff.mp hhead
      exact h ⟨[], rest, rfl⟩)
    rw [ih hcs] at hp
    obtain ⟨rfl, rfl⟩ := List.cons.inj hp
    rw [hsplit]

theorem unseparated_of_noBlankLine (h : NoBlankLine cs) : unseparated cs = cs := by
  rw [unseparated, noBlankLine_split h, List.flatten_singleton]

theorem unseparated_append (h : a.getLast? ≠ some '\n') :
    unseparated (a ++ '\n' :: '\n' :: b) = unseparated a ++ unseparated b := by
  rw [unseparated, splitBlankLines_append h, List.flatten_append]
  rfl

/-- Splitting drops white space only. -/
theorem filter_unseparated (cs : List Char) :
    (unseparated cs).filter isContent = cs.filter isContent := by
  have hfeed : isContent '\n' = false := by decide
  unfold unseparated
  fun_induction splitBlankLines cs with
  | case1 => rfl
  | case2 rest ih => simp [hfeed, ih]
  | case3 c rest hnot hnil => exact absurd hnil (splitBlankLines_ne_nil _)
  | case4 c rest hnot p ps hp ih =>
    rw [hp, List.flatten_cons] at ih
    rw [List.flatten_cons, List.cons_append, List.filter_cons, List.filter_cons, ih]

/-- The first piece starts as the text does. -/
theorem head_of_splitBlankLines {p : List Char} {ps : List (List Char)}
    (h : splitBlankLines cs = p :: ps) : p = [] ∨ p.head? = cs.head? := by
  fun_cases splitBlankLines cs with
  | case1 => exact .inl (List.cons.inj h).1.symm
  | case2 rest => exact .inl (List.cons.inj h).1.symm
  | case3 c rest hnot hnil => exact absurd hnil (splitBlankLines_ne_nil _)
  | case4 c rest hnot q qs hq =>
    rw [splitBlankLines, hq] at h
    · obtain ⟨rfl, -⟩ := List.cons.inj h
      exact .inr rfl
    · exact hnot

/-- No piece of a text holds a blank line. -/
theorem noBlankLine_of_mem {p : List Char} (h : p ∈ splitBlankLines cs) : NoBlankLine p := by
  fun_induction splitBlankLines cs generalizing p with
  | case1 =>
    obtain rfl := List.mem_singleton.mp h
    intro hin
    simp at hin
  | case2 rest ih =>
    rcases List.mem_cons.mp h with rfl | h
    · intro hin
      simp at hin
    · exact ih h
  | case3 c rest hnot hnil => exact absurd hnil (splitBlankLines_ne_nil _)
  | case4 c rest hnot q ps hq ih =>
    rcases List.mem_cons.mp h with rfl | h
    · intro hin
      rcases List.infix_cons_iff.mp hin with hpre | hin
      · obtain ⟨rfl, q', rfl⟩ := List.cons_prefix_cons.mp hpre
        rcases head_of_splitBlankLines hq with hnil | hhead
        · cases hnil
        · obtain ⟨rest', rfl⟩ := List.head?_eq_some_iff.mp hhead.symm
          exact hnot rest' rfl rfl
      · exact ih (hq ▸ List.mem_cons_self) hin
    · exact ih (hq ▸ List.mem_cons_of_mem _ h)

theorem dropWhile_filter (cs : List Char) :
    (cs.dropWhile isWhitespace).filter isContent = cs.filter isContent := by
  induction cs with
  | nil => rfl
  | cons c cs ih =>
    by_cases hc : isWhitespace c = true
    · rw [List.dropWhile_cons_of_pos hc, ih, List.filter_cons_of_neg (by simp [isContent, hc])]
    · rw [List.dropWhile_cons_of_neg hc]

/-- Trimming drops white space only. -/
theorem filter_trimChars (cs : List Char) :
    (trimChars cs).filter isContent = cs.filter isContent := by
  unfold trimChars
  rw [List.filter_reverse, dropWhile_filter, List.filter_reverse, List.reverse_reverse,
    dropWhile_filter]

theorem trimChars_within (cs : List Char) : trimChars cs <:+: cs := by
  unfold trimChars
  have hback : (cs.dropWhile isWhitespace).reverse.dropWhile isWhitespace <:+
      (cs.dropWhile isWhitespace).reverse := List.dropWhile_suffix _
  have hfront : cs.dropWhile isWhitespace <:+ cs := List.dropWhile_suffix _
  have hprefix := List.reverse_prefix.mpr hback
  rw [List.reverse_reverse] at hprefix
  exact hprefix.isInfix.trans hfront.isInfix

/-- A trimmed text does not end in white space. -/
theorem trimChars_getLast (cs : List Char) : ∀ c ∈ (trimChars cs).getLast?, isContent c = true := by
  intro c hc
  unfold trimChars at hc
  rw [List.getLast?_reverse] at hc
  have := List.head?_dropWhile_not isWhitespace (cs.dropWhile isWhitespace).reverse
  simp_all [isContent]

end BlankLines
section Cutting
variable {maxChars : ℕ} {current : List Char}

theorem mem_charIndices {offset i : ℕ} {cs : List Char} (h : i ∈ charIndices offset cs) :
    ∃ a b, cs = a ++ b ∧ offset + byteLen a = i := by
  induction cs generalizing offset with
  | nil => cases h
  | cons c cs ih =>
    rcases List.mem_cons.mp h with rfl | h
    · exact ⟨[], c :: cs, rfl, rfl⟩
    · obtain ⟨a, b, rfl, rfl⟩ := ih h
      refine ⟨c :: a, b, rfl, ?_⟩
      simp only [byteLen, List.map_cons, List.sum_cons]
      omega

theorem splitOff_byteLen (a b : List Char) : splitOff (byteLen a) (a ++ b) = (a, b) := by
  induction a with
  | nil =>
    cases b with
    | nil => rfl
    | cons c b => simp [splitOff, byteLen]
  | cons c a ih =>
    have hc := c.utf8Size_pos
    have hlen : byteLen (c :: a) = c.utf8Size + byteLen a := by simp [byteLen]
    rw [List.cons_append, splitOff, if_neg (by omega), hlen, Nat.add_sub_cancel_left, ih]

/-- A text is cut at a boundary of its characters, within the limit or behind the first one. -/
theorem splitPoint_boundary (maxChars : ℕ) (h : current ≠ []) :
    ∃ a b, current = a ++ b ∧ byteLen a = splitPoint maxChars current ∧
      splitOff (splitPoint maxChars current) current = (a, b) ∧ FitsChunk maxChars a := by
  obtain ⟨c, cs, rfl⟩ := List.exists_cons_of_ne_nil h
  suffices hcut : ∃ a b, c :: cs = a ++ b ∧ byteLen a = splitPoint maxChars (c :: cs) ∧
      FitsChunk maxChars a by
    obtain ⟨a, b, heq, hlen, hfits⟩ := hcut
    exact ⟨a, b, heq, hlen, by rw [← hlen, heq, splitOff_byteLen], hfits⟩
  have hindices : charIndices 0 (c :: cs) = 0 :: charIndices (0 + c.utf8Size) cs := rfl
  obtain ⟨i, hi⟩ : ∃ i, ((charIndices 0 (c :: cs)).takeWhile
      fun i => decide (i ≤ maxChars)).getLast? = some i := by
    rw [hindices, List.takeWhile_cons_of_pos (by simp)]
    exact ⟨_, List.getLast?_eq_some_getLast (List.cons_ne_nil _ _)⟩
  have hmem := List.mem_of_getLast? hi
  unfold splitPoint
  dsimp only
  rw [hi, Option.getD_some]
  split_ifs with hzero
  · exact ⟨[c], cs, rfl, by simp [byteLen], by simp, .inr rfl⟩
  · obtain ⟨a, b, heq, hlen⟩ := mem_charIndices ((List.takeWhile_sublist _).mem hmem)
    rw [Nat.zero_add] at hlen
    refine ⟨a, b, heq, hlen, ?_, .inl ?_⟩
    · rintro rfl
      exact hzero hlen.symm
    · rw [hlen]
      simpa using List.mem_takeWhile_imp hmem

/-- Cutting keeps the text, and what is left fits. -/
theorem cutOversized_spec (maxChars : ℕ) (current : List Char) :
    (cutOversized maxChars [] current).1.flatten ++ (cutOversized maxChars [] current).2 = current ∧
      (∀ chunk ∈ (cutOversized maxChars [] current).1, FitsChunk maxChars chunk) ∧
      byteLen (cutOversized maxChars [] current).2 ≤ maxChars := by
  induction h : current.length using Nat.strong_induction_on generalizing current with
  | _ n ih =>
    rw [cutOversized]
    split_ifs with hlong
    · have hne : current ≠ [] := by
        rintro rfl
        simp [byteLen] at hlong
      obtain ⟨a, b, heq, -, hcut, hfits⟩ := splitPoint_boundary maxChars hne
      have hshort : (splitOff (splitPoint maxChars current) current).2.length < current.length :=
        splitOff_splitPoint_length hne
      rw [hcut] at hshort
      obtain ⟨hflat, hchunks, hleft⟩ := ih _ (h ▸ hshort) b rfl
      rw [hcut, cutOversized_append]
      refine ⟨?_, ?_, hleft⟩
      · simp [hflat, heq]
      · intro chunk hchunk
        rcases List.mem_append.mp hchunk with hchunk | hchunk
        · rw [List.mem_singleton.mp hchunk]
          exact hfits
        · exact hchunks chunk hchunk
    · exact ⟨rfl, by simp, not_lt.mp hlong⟩

end Cutting

/-- The chunks so far and the text that is being packed hold the paragraphs so far. -/
structure Packed (maxChars : ℕ) (paras : List (List Char))
    (state : List (List Char) × List Char) : Prop where
  fits : ∀ chunk ∈ state.1, FitsChunk maxChars chunk
  within : byteLen state.2 ≤ maxChars
  ends : ∀ c ∈ state.2.getLast?, isContent c = true
  content : (state.1.map unseparated).flatten ++ unseparated state.2 = paras.flatten

section Packing
variable {maxChars : ℕ} {paras : List (List Char)} {chunks : List (List Char)}
  {current para : List Char}

theorem NoBlankLine.within {a b : List Char} (h : NoBlankLine b) (hab : a <:+: b) :
    NoBlankLine a := fun hin => h (hin.trans hab)

theorem isContent_newline : isContent '\n' = false := by decide

/-- Nothing is lost where a paragraph is cut. -/
theorem unseparated_cut (hpara : NoBlankLine para) :
    ((cutOversized maxChars [] para).1.map unseparated).flatten ++
      unseparated (cutOversized maxChars [] para).2 = para := by
  obtain ⟨hflat, -, -⟩ := cutOversized_spec maxChars para
  have hleft : NoBlankLine (cutOversized maxChars [] para).2 :=
    hpara.within ⟨(cutOversized maxChars [] para).1.flatten, [], by simpa using hflat⟩
  have hcuts : (cutOversized maxChars [] para).1.map unseparated =
      (cutOversized maxChars [] para).1 := by
    conv_rhs => rw [← List.map_id (cutOversized maxChars [] para).1]
    refine List.map_congr_left fun cut hcut => unseparated_of_noBlankLine (hpara.within ?_)
    have hin : cut <:+: (cutOversized maxChars [] para).1.flatten :=
      List.infix_of_mem_flatten hcut
    exact hin.trans ⟨[], _, by simpa using hflat⟩
  rw [hcuts, unseparated_of_noBlankLine hleft, hflat]

/-- A paragraph that starts a chunk. -/
theorem Packed.cut (h : Packed maxChars paras (chunks, [])) (hpara : NoBlankLine para)
    (hends : ∀ c ∈ para.getLast?, isContent c = true) :
    Packed maxChars (paras ++ [para]) (cutOversized maxChars chunks para) := by
  obtain ⟨hflat, hchunks, hleft⟩ := cutOversized_spec maxChars para
  have hkept : (chunks.map unseparated).flatten = paras.flatten := by
    simpa [unseparated, splitBlankLines] using h.content
  rw [cutOversized_append]
  constructor
  · intro chunk hchunk
    rcases List.mem_append.mp hchunk with hold | hnew
    · exact h.fits chunk hold
    · exact hchunks chunk hnew
  · exact hleft
  · intro c hc
    refine hends c ?_
    rw [← hflat, List.getLast?_append, Option.mem_def.mp hc]
    rfl
  · simp only [List.map_append, List.flatten_append, List.append_assoc, List.flatten_singleton]
    rw [unseparated_cut hpara, hkept]

/-- A full chunk is put out as it is. -/
theorem Packed.flush (h : Packed maxChars paras (chunks, current)) (hne : current ≠ []) :
    Packed maxChars paras (chunks ++ [current], []) := by
  constructor
  · intro chunk hchunk
    rcases List.mem_append.mp hchunk with hold | hnew
    · exact h.fits chunk hold
    · rw [List.mem_singleton.mp hnew]
      exact ⟨hne, .inl h.within⟩
  · exact Nat.zero_le _
  · intro c hc
    cases hc
  · have hcontent := h.content
    simp only [List.map_append, List.flatten_append, List.map_cons, List.map_nil,
      List.flatten_singleton, List.append_assoc]
    simpa [unseparated, splitBlankLines] using hcontent

/-- A paragraph that still fits is joined on. -/
theorem Packed.join (h : Packed maxChars paras (chunks, current))
    (hfits : byteLen current + byteLen para + 2 ≤ maxChars) (hpara : NoBlankLine para)
    (hends : ∀ c ∈ para.getLast?, isContent c = true) (hpne : para ≠ []) :
    Packed maxChars (paras ++ [para])
      (cutOversized maxChars chunks (current ++ ['\n', '\n'] ++ para)) := by
  have hlen : byteLen (current ++ ['\n', '\n'] ++ para) = byteLen current + byteLen para + 2 := by
    have hfeeds : byteLen ['\n', '\n'] = 2 := by decide
    rw [byteLen_append, byteLen_append, hfeeds]
    omega
  have hlast : current.getLast? ≠ some '\n' := by
    intro hfeed
    have := h.ends '\n' hfeed
    rw [isContent_newline] at this
    cases this
  rw [cutOversized, if_neg (by omega)]
  constructor
  · exact h.fits
  · show byteLen (current ++ ['\n', '\n'] ++ para) ≤ maxChars
    omega
  · intro c hc
    refine hends c ?_
    have hsome := List.getLast?_eq_some_getLast hpne
    rw [List.getLast?_append, hsome] at hc
    rw [hsome]
    exact hc
  · show (chunks.map unseparated).flatten ++ unseparated (current ++ ['\n', '\n'] ++ para) = _
    rw [List.append_assoc, List.cons_append, List.cons_append, List.nil_append,
      unseparated_append hlast, unseparated_of_noBlankLine hpara, ← List.append_assoc, h.content,
      List.flatten_append, List.flatten_singleton]

theorem Packed.step {state : List (List Char) × List Char} (h : Packed maxChars paras state)
    (hpara : NoBlankLine para) (hends : ∀ c ∈ para.getLast?, isContent c = true)
    (hpne : para ≠ []) : Packed maxChars (paras ++ [para]) (packParagraph maxChars state para) := by
  obtain ⟨chunks, current⟩ := state
  by_cases hne : current = []
  · subst hne
    simpa [packParagraph] using h.cut hpara hends
  · by_cases hfits : byteLen current + byteLen para + 2 ≤ maxChars
    · simpa [packParagraph, hne, not_lt.mpr hfits] using h.join hfits hpara hends hpne
    · simpa [packParagraph, hne, not_le.mp hfits] using (h.flush hne).cut hpara hends

/-- Packing takes paragraph after paragraph. -/
theorem Packed.run {rest : List (List Char)} {state : List (List Char) × List Char}
    (h : Packed maxChars paras state)
    (hrest : ∀ para ∈ rest, NoBlankLine para ∧ (∀ c ∈ para.getLast?, isContent c = true) ∧
      para ≠ []) :
    Packed maxChars (paras ++ rest) (rest.foldl (packParagraph maxChars) state) := by
  induction rest generalizing paras state with
  | nil => simpa using h
  | cons para rest ih =>
    obtain ⟨hpara, hends, hpne⟩ := hrest para List.mem_cons_self
    have hstep := ih (h.step hpara hends hpne) fun p hp => hrest p (List.mem_cons_of_mem _ hp)
    rw [List.append_assoc] at hstep
    exact hstep

end Packing

theorem paragraph_of_mem {text para : List Char}
    (h : para ∈ (paragraphs text).filter fun p => !p.isEmpty) :
    NoBlankLine para ∧ (∀ c ∈ para.getLast?, isContent c = true) ∧ para ≠ [] := by
  obtain ⟨hmem, hne⟩ := List.mem_filter.mp h
  obtain ⟨piece, hpiece, rfl⟩ := List.mem_map.mp hmem
  exact ⟨(noBlankLine_of_mem hpiece).within (trimChars_within piece), trimChars_getLast piece,
    by simpa using hne⟩

theorem flatten_filter_nonempty (l : List (List Char)) :
    (l.filter fun p => !p.isEmpty).flatten = l.flatten := by
  induction l with
  | nil => rfl
  | cons p l ih => cases p <;> simp [ih]

/-- The chunks and the text in hand after the last paragraph. -/
def packed (text : List Char) (maxChars : ℕ) : List (List Char) × List Char :=
  ((paragraphs text).filter fun p => !p.isEmpty).foldl (packParagraph maxChars) ([], [])

theorem chunkText_eq_packed (text : List Char) (maxChars : ℕ) :
    chunkText text maxChars = if (packed text maxChars).2 ≠ [] then
      (packed text maxChars).1 ++ [(packed text maxChars).2] else (packed text maxChars).1 := rfl

/-- The chunks of a text, once the last one is put out. -/
theorem chunkText_packed (text : List Char) (maxChars : ℕ) :
    Packed maxChars (paragraphs text) (chunkText text maxChars, []) := by
  have hstart : Packed maxChars [] ([], []) := by
    refine ⟨fun _ h => absurd h (List.not_mem_nil), Nat.zero_le _, fun c hc => ?_, rfl⟩
    simp at hc
  have hrun : Packed maxChars ([] ++ (paragraphs text).filter fun p => !p.isEmpty)
      (packed text maxChars) := hstart.run fun para hpara => paragraph_of_mem hpara
  have hall : Packed maxChars (paragraphs text) (packed text maxChars) :=
    ⟨hrun.fits, hrun.within, hrun.ends, by
      rw [hrun.content, List.nil_append, flatten_filter_nonempty]⟩
  rw [chunkText_eq_packed]
  generalize packed text maxChars = state at hall ⊢
  obtain ⟨chunks, current⟩ := state
  by_cases hne : current = []
  · subst hne
    exact hall
  · simpa [hne] using hall.flush hne

/-- What the paragraphs hold is what the text holds, white space apart. -/
theorem filter_paragraphs (text : List Char) :
    (paragraphs text).flatten.filter isContent = text.filter isContent := by
  rw [← filter_unseparated text, paragraphs, unseparated]
  induction splitBlankLines text with
  | nil => rfl
  | cons p l ih =>
    rw [List.map_cons, List.flatten_cons, List.flatten_cons, List.filter_append,
      List.filter_append, filter_trimChars, ih]

theorem filter_unseparated_flatten (chunks : List (List Char)) :
    (chunks.map unseparated).flatten.filter isContent = chunks.flatten.filter isContent := by
  induction chunks with
  | nil => rfl
  | cons chunk chunks ih =>
    rw [List.map_cons, List.flatten_cons, List.flatten_cons, List.filter_append,
      List.filter_append, filter_unseparated, ih]

/-- Every chunk is some text within the limit or one character, every cut falls between two
characters, and the chunks hold what the text holds, once and in order. -/
theorem chunkText_exact (text : List Char) (maxChars : ℕ) :
    (∀ chunk ∈ chunkText text maxChars, FitsChunk maxChars chunk) ∧
      (∀ current, current ≠ [] → ∃ a b, current = a ++ b ∧
        byteLen a = splitPoint maxChars current ∧
        splitOff (splitPoint maxChars current) current = (a, b)) ∧
      ((chunkText text maxChars).map unseparated).flatten = (paragraphs text).flatten ∧
      (chunkText text maxChars).flatten.filter isContent = text.filter isContent := by
  have hpacked := chunkText_packed text maxChars
  have hcontent : ((chunkText text maxChars).map unseparated).flatten =
      (paragraphs text).flatten := by
    simpa [unseparated, splitBlankLines] using hpacked.content
  refine ⟨hpacked.fits, fun current hne => ?_, hcontent, ?_⟩
  · obtain ⟨a, b, heq, hlen, hcut, -⟩ := splitPoint_boundary maxChars hne
    exact ⟨a, b, heq, hlen, hcut⟩
  · rw [← filter_unseparated_flatten, hcontent, filter_paragraphs]

end Munarium

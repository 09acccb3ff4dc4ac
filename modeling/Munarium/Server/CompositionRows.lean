import Mathlib.Data.Finset.Lattice.Fold
import Mathlib.Order.Interval.Finset.Nat
import Mathlib.Order.Lattice.Nat
import Munarium.Server.CitationChecks
import Munarium.Server.CompositionParts

/-! When the checks and the verdict of completeness speak of what was shown. They are made of the
blocks as they were served; what is shown of a block is as much as the layers before it leave room
for. -/
namespace Munarium

section
variable [FloatText] {name role : String}

/-- How much of a block may be shown: all of it or, where its layer allows that, its first
items. -/
def Part (plan : EvidencePlan) (b : String × EvidenceBlock) (part : EvidenceBlock) : Prop :=
  part = b.2 ∨ (preserved (plan.layer b.1) = false ∧
    ∃ keep, 1 ≤ keep ∧ keep < b.2.itemCount ∧ part = b.2.cutTo keep)

/-- The size of a part's text. -/
def textSize (plan : EvidencePlan) (docs : DocumentEvidence) (name : String)
    (part : EvidenceBlock) : ℕ :=
  ((renderBlock name (plan.layer name) part docs).getD "").utf8ByteSize

/-- What a block takes of a room: the size of the largest of its parts that fits. -/
def taken (plan : EvidencePlan) (docs : DocumentEvidence) (room : ℕ) (b : String × EvidenceBlock) :
    ℕ :=
  if textSize plan docs b.1 b.2 ≤ room then textSize plan docs b.1 b.2
  else if preserved (plan.layer b.1) then 0
  else ((Finset.Ico 1 b.2.itemCount).filter fun k =>
    textSize plan docs b.1 (b.2.cutTo k) ≤ room).sup fun k => textSize plan docs b.1 (b.2.cutTo k)

/-- What is taken of a budget once a block is reached. -/
def spend (plan : EvidencePlan) (docs : DocumentEvidence) (budget used : ℕ)
    (b : String × EvidenceBlock) : ℕ :=
  used + taken plan docs (roomAfter (plan.layer b.1) budget used) b

/-- A part with a property fits in the room that the blocks before it leave. -/
def PartFits (plan : EvidencePlan) (docs : DocumentEvidence) (budget used : ℕ)
    (blocks : List (String × EvidenceBlock)) (P : EvidenceBlock → Prop) : Prop :=
  ∃ before b after, blocks = before ++ b :: after ∧ ∃ part, Part plan b part ∧
    textSize plan docs b.1 part ≤
      roomAfter (plan.layer b.1) budget (before.foldl (spend plan docs budget) used) ∧ P part

/-- What a larger part has where a smaller one does. -/
structure Cuttable (P : EvidenceBlock → Prop) : Prop where
  cut : ∀ (b : EvidenceBlock) (j k : ℕ), j ≤ k → P (b.cutTo j) → P (b.cutTo k)
  whole : ∀ (b : EvidenceBlock) (k : ℕ), P (b.cutTo k) → P b
  items : ¬ P (.documentHits [])

variable {plan : EvidencePlan} {docs : DocumentEvidence} {budget : ℕ} {c c' : Composed}
  {b : String × EvidenceBlock}

theorem textSize_eq {name text : String} {part : EvidenceBlock}
    (h : renderBlock name (plan.layer name) part docs = some text) :
    textSize plan docs name part = text.utf8ByteSize := by
  rw [textSize, h, Option.getD_some]

/-- The largest part of a block that fits in a room. -/
structure Largest (plan : EvidencePlan) (docs : DocumentEvidence) (room : ℕ)
    (b : String × EvidenceBlock) (r : Rendered) : Prop where
  part : Part plan b r.block
  text : renderBlock b.1 (plan.layer b.1) r.block docs = some r.text
  size : r.text.utf8ByteSize = taken plan docs room b
  fits : r.text.utf8ByteSize ≤ room
  most : ∀ P, Cuttable P → ∀ part, Part plan b part → textSize plan docs b.1 part ≤ room →
    P part → P r.block

theorem largest_whole {room : ℕ} {whole : String}
    (h : renderBlock b.1 (plan.layer b.1) b.2 docs = some whole)
    (hfits : whole.utf8ByteSize ≤ room) : Largest plan docs room b ⟨b.2, whole⟩ where
  part := Or.inl rfl
  text := h
  size := by
    rw [taken, textSize_eq h, if_pos hfits]
  fits := hfits
  most P hP part hpart _ hp := by
    rcases hpart with rfl | ⟨-, keep, -, -, rfl⟩
    · exact hp
    · exact hP.whole _ keep hp

section
variable {room : ℕ} {whole : String} {text : ℕ → String}
  (h : renderBlock b.1 (plan.layer b.1) b.2 docs = some whole)
  (hwhole : room < whole.utf8ByteSize)
  (htext : CutTexts (fun part => renderBlock b.1 (plan.layer b.1) part docs) b.2 text)
include h hwhole htext

theorem largest_cut {k : ℕ} (hfree : preserved (plan.layer b.1) = false) (hk : 1 ≤ k)
    (hcount : k < b.2.itemCount) (hfits : (text k).utf8ByteSize ≤ room)
    (hmax : ∀ j, k < j → j < b.2.itemCount → room < (text j).utf8ByteSize) :
    Largest plan docs room b ⟨b.2.cutTo k, text k⟩ where
  part := Or.inr ⟨hfree, k, hk, hcount, rfl⟩
  text := htext.eq k
  size := by
    have hcut : ∀ j, textSize plan docs b.1 (b.2.cutTo j) = (text j).utf8ByteSize :=
      fun j => textSize_eq (htext.eq j)
    rw [taken, textSize_eq h, if_neg (by omega), hfree, if_neg Bool.false_ne_true]
    apply le_antisymm
    · rw [← hcut k]
      apply Finset.le_sup (f := fun j => textSize plan docs b.1 (b.2.cutTo j))
      rw [Finset.mem_filter, Finset.mem_Ico, hcut k]
      exact ⟨⟨hk, hcount⟩, hfits⟩
    · apply Finset.sup_le
      intro j hj
      rw [Finset.mem_filter, Finset.mem_Ico, hcut j] at hj
      rw [hcut j]
      by_cases hle : j ≤ k
      · exact htext.mono j k hle
      · have := hmax j (by omega) hj.1.2
        omega
  fits := hfits
  most P hP part hpart hsize hp := by
    rcases hpart with rfl | ⟨-, j, hj, hjcount, rfl⟩
    · rw [textSize_eq h] at hsize
      omega
    · by_cases hle : j ≤ k
      · exact hP.cut _ j k hle hp
      · have := hmax j (by omega) hjcount
        rw [textSize_eq (htext.eq j)] at hsize
        omega

/-- Where neither the whole nor a cut fits, nothing of a block is taken. -/
theorem taken_eq_zero (hnone : preserved (plan.layer b.1) = false →
      ∀ k, 1 ≤ k → k < b.2.itemCount → room < (text k).utf8ByteSize) :
    taken plan docs room b = 0 ∧
      ∀ part, Part plan b part → ¬ textSize plan docs b.1 part ≤ room := by
  constructor
  · rw [taken, textSize_eq h, if_neg (by omega)]
    split_ifs with hpreserved
    · rfl
    · rw [← Nat.le_zero]
      apply Finset.sup_le
      intro j hj
      rw [Finset.mem_filter, Finset.mem_Ico, textSize_eq (htext.eq j)] at hj
      have := hnone (Bool.not_eq_true _ ▸ hpreserved) j hj.1.1 hj.1.2
      omega
  · intro part hpart hsize
    rcases hpart with rfl | ⟨hfree, j, hj, hcount, rfl⟩
    · rw [textSize_eq h] at hsize
      omega
    · rw [textSize_eq (htext.eq j)] at hsize
      have := hnone hfree j hj hcount
      omega

end

/-- A block is nothing, the largest of its parts that fits is shown, or none fits. -/
theorem composeBlock_cases (h : composeBlock plan budget docs c b = some c') :
    (renderBlock b.1 (plan.layer b.1) b.2 docs = some "" ∧ c' = c) ∨
      (∃ r, Largest plan docs (roomAfter (plan.layer b.1) budget c.context.utf8ByteSize) b r ∧
        c' = c.push b.1 r) ∨
      (taken plan docs (roomAfter (plan.layer b.1) budget c.context.utf8ByteSize) b = 0 ∧
        (∀ part, Part plan b part → ¬ textSize plan docs b.1 part ≤
          roomAfter (plan.layer b.1) budget c.context.utf8ByteSize) ∧ c' = c.drop b.1) := by
  cases hwhole : renderBlock b.1 (plan.layer b.1) b.2 docs with
  | none =>
    simp only [composeBlock, hwhole] at h
    cases h
  | some whole =>
    obtain ⟨text, htext⟩ := cutTexts hwhole
    have hcut (k : ℕ) : renderBlock b.1 (plan.layer b.1) (b.2.cutTo k) docs = some (text k) :=
      htext.eq k
    rcases composeBlock_part budget c hwhole with ⟨rfl, hnext⟩ | ⟨-, part, hpart, hnext⟩
    · rw [hnext] at h
      exact Or.inl ⟨rfl, (Option.some.inj h).symm⟩
    · rw [hnext] at h
      cases h
      right
      cases hpart with
      | whole hwhole hfits => exact Or.inl ⟨_, largest_whole hwhole hfits, rfl⟩
      | @cut whole shown k hwhole hlong hfree hlongest =>
        have hshown : text k = shown := Option.some.inj ((hcut k).symm.trans hlongest.renders)
        have hlargest := largest_cut hwhole hlong htext hfree hlongest.kept hlongest.proper
          (hshown ▸ hlongest.fits) fun j hj hcount => hlongest.longest j _ hj hcount (hcut j)
        rw [hshown] at hlargest
        exact Or.inl ⟨_, hlargest, rfl⟩
      | dropped hwhole hlong hnone =>
        obtain ⟨hzero, hno⟩ := taken_eq_zero hwhole hlong htext fun hfree k hk hcount =>
          hnone.elim (fun hkept => absurd (hkept.symm.trans hfree) (by decide))
            fun hcuts => hcuts k _ hk hcount (hcut k)
        exact Or.inr ⟨hzero, hno, rfl⟩

/-- A context is the texts of what is shown. -/
def Texts (plan : EvidencePlan) (docs : DocumentEvidence) (c : Composed) : Prop :=
  ∃ texts, c.shown.mapM (fun s => renderBlock s.1 (plan.layer s.1) s.2 docs) = some texts ∧
    c.context = String.join texts

omit [FloatText] in
theorem mapM_concat {α β : Type*} {f : α → Option β} {l : List α} {r : List β} {a : α} {b : β}
    (h : l.mapM f = some r) (ha : f a = some b) : (l ++ [a]).mapM f = some (r ++ [b]) := by
  simp [List.mapM_append, h, ha]

/-- What composing one block does. -/
structure Composes (plan : EvidencePlan) (docs : DocumentEvidence) (budget : ℕ) (c : Composed)
    (b : String × EvidenceBlock) (c' : Composed) : Prop where
  size : c'.context.utf8ByteSize = spend plan docs budget c.context.utf8ByteSize b
  texts : Texts plan docs c → Texts plan docs c'
  parts : ∀ s ∈ c'.shown, s ∈ c.shown ∨ s.1 = b.1 ∧ Part plan b s.2
  shows : ∀ P, Cuttable P → ((∃ s ∈ c'.shown, P s.2) ↔ (∃ s ∈ c.shown, P s.2) ∨
    ∃ part, Part plan b part ∧ textSize plan docs b.1 part ≤
      roomAfter (plan.layer b.1) budget c.context.utf8ByteSize ∧ P part)

theorem composes_of_nothing {d : Composed} (hcontext : d.context = c.context)
    (hshown : d.shown = c.shown)
    (hzero : taken plan docs (roomAfter (plan.layer b.1) budget c.context.utf8ByteSize) b = 0)
    (hno : ∀ P, Cuttable P → ∀ part, Part plan b part → textSize plan docs b.1 part ≤
      roomAfter (plan.layer b.1) budget c.context.utf8ByteSize → ¬ P part) :
    Composes plan docs budget c b d where
  size := by
    rw [hcontext, spend, hzero, Nat.add_zero]
  texts h := by
    rw [Texts, hcontext, hshown]
    exact h
  parts s hs := Or.inl (hshown ▸ hs)
  shows P hP := by
    rw [hshown]
    constructor
    · exact Or.inl
    · intro hcase
      rcases hcase with hold | ⟨part, hpart, hsize, hp⟩
      · exact hold
      · exact absurd hp (hno P hP part hpart hsize)

theorem composes_of_largest {r : Rendered}
    (h : Largest plan docs (roomAfter (plan.layer b.1) budget c.context.utf8ByteSize) b r) :
    Composes plan docs budget c b (c.push b.1 r) where
  size := by
    rw [Composed.push, String.utf8ByteSize_append, h.size]
    rfl
  texts := by
    rintro ⟨texts, htexts, hcontext⟩
    refine ⟨texts ++ [r.text], mapM_concat htexts h.text, ?_⟩
    rw [String.join_append, ← hcontext]
    simp [Composed.push]
  parts s hs := by
    rcases List.mem_append.mp hs with hs | hs
    · exact Or.inl hs
    · rw [List.mem_singleton.mp hs]
      exact Or.inr ⟨rfl, h.part⟩
  shows P hP := by
    have hshown : (∃ s ∈ (c.push b.1 r).shown, P s.2) ↔ (∃ s ∈ c.shown, P s.2) ∨ P r.block := by
      simp [Composed.push, or_and_right, exists_or]
    rw [hshown]
    apply or_congr Iff.rfl
    constructor
    · intro hp
      refine ⟨r.block, h.part, ?_, hp⟩
      rw [textSize_eq h.text]
      exact h.fits
    · rintro ⟨part, hpart, hsize, hp⟩
      exact h.most P hP part hpart hsize hp

theorem composeBlock_composes (h : composeBlock plan budget docs c b = some c') :
    Composes plan docs budget c b c' := by
  rcases composeBlock_cases h with ⟨hempty, rfl⟩ | ⟨r, hr, rfl⟩ | ⟨hzero, hno, rfl⟩
  · have hb := eq_of_renderBlock_empty hempty
    apply composes_of_nothing rfl rfl
    · rw [taken, textSize_eq hempty, if_pos (by simp)]
      simp
    · intro P hP part hpart _
      rcases hpart with rfl | ⟨-, keep, hkeep, hcount, -⟩
      · rw [hb]
        exact hP.items
      · rw [hb] at hcount
        exact absurd hcount (Nat.not_lt_zero keep)
  · exact composes_of_largest hr
  · have hnothing := fun P (_ : Cuttable P) part hpart hsize (_ : P part) =>
      hno part hpart hsize
    exact composes_of_nothing (d := c.drop b.1) rfl rfl hzero hnothing

theorem partFits_cons {used : ℕ} {rest : List (String × EvidenceBlock)}
    {P : EvidenceBlock → Prop} :
    PartFits plan docs budget used (b :: rest) P ↔
      (∃ part, Part plan b part ∧
        textSize plan docs b.1 part ≤ roomAfter (plan.layer b.1) budget used ∧ P part) ∨
      PartFits plan docs budget (spend plan docs budget used b) rest P := by
  constructor
  · rintro ⟨before, a, after, heq, hpart⟩
    cases before with
    | nil =>
      obtain ⟨rfl, rfl⟩ := List.cons.inj heq
      exact Or.inl hpart
    | cons x before =>
      obtain ⟨rfl, rfl⟩ := List.cons.inj heq
      exact Or.inr ⟨before, a, after, rfl, hpart⟩
  · rintro (hpart | ⟨before, a, after, rfl, hpart⟩)
    · exact ⟨[], b, rest, rfl, hpart⟩
    · exact ⟨b :: before, a, after, rfl, hpart⟩

/-- What composing a list of blocks does. -/
theorem foldlM_composes {blocks : List (String × EvidenceBlock)}
    (h : blocks.foldlM (composeBlock plan budget docs) c = some c') :
    (Texts plan docs c → Texts plan docs c') ∧
      (∀ s ∈ c'.shown, s ∈ c.shown ∨ ∃ b ∈ blocks, s.1 = b.1 ∧ Part plan b s.2) ∧
        ∀ P, Cuttable P → ((∃ s ∈ c'.shown, P s.2) ↔
          (∃ s ∈ c.shown, P s.2) ∨
            PartFits plan docs budget c.context.utf8ByteSize blocks P) := by
  induction blocks generalizing c with
  | nil =>
    obtain rfl : c = c' := Option.some.inj h
    refine ⟨id, fun _ => Or.inl, fun P _ => ?_⟩
    have hno : ¬ PartFits plan docs budget c.context.utf8ByteSize [] P := by
      rintro ⟨before, b, after, heq, -⟩
      simp at heq
    simp only [hno, or_false]
  | cons b rest ih =>
    rw [List.foldlM_cons] at h
    obtain ⟨d, hd, hrest⟩ := Option.bind_eq_some_iff.mp h
    have hstep := composeBlock_composes hd
    obtain ⟨htexts, hparts, hshows⟩ := ih hrest
    refine ⟨fun hc => htexts (hstep.texts hc), ?_, ?_⟩
    · intro s hs
      rcases hparts s hs with hold | ⟨b', hb', hpart⟩
      · rcases hstep.parts s hold with hold | hpart
        · exact Or.inl hold
        · exact Or.inr ⟨b, List.mem_cons_self, hpart⟩
      · exact Or.inr ⟨b', List.mem_cons_of_mem _ hb', hpart⟩
    · intro P hP
      rw [hshows P hP, hstep.shows P hP, hstep.size, partFits_cons, or_assoc]

/-- A table with a row. -/
def HasRow (id rowId : String) (cells : List String) (b : EvidenceBlock) : Prop :=
  ∃ t, b = .completeTable t ∧ t.evidenceId = some id ∧
    ∃ i row, t.rows[i]? = some row ∧ tableRowId t i = rowId ∧ cellTexts row = cells

omit [FloatText] in
theorem hasRow_cuttable (id rowId : String) (cells : List String) :
    Cuttable (HasRow id rowId cells) where
  cut b j k hjk h := by
    obtain ⟨t, heq, hid, i, row, hrow, hrowId, hcells⟩ := h
    cases b with
    | completeTable t₀ =>
      cases heq
      simp only [List.getElem?_take, tableRowId, List.getD_eq_getElem?_getD] at hrow hrowId
      split_ifs at hrow with hi
      refine ⟨_, rfl, hid, i, row, ?_, ?_, hcells⟩
      · simp only [List.getElem?_take, if_pos (show i < k by omega), hrow]
      · simp only [tableRowId, List.getD_eq_getElem?_getD, List.getElem?_take,
          if_pos (show i < k by omega)]
        rwa [if_pos hi] at hrowId
    | documentHits | count | factSlice | refusal => cases heq
  whole b k h := by
    obtain ⟨t, heq, hid, i, row, hrow, hrowId, hcells⟩ := h
    cases b with
    | completeTable t₀ =>
      cases heq
      simp only [List.getElem?_take, tableRowId, List.getD_eq_getElem?_getD] at hrow hrowId
      split_ifs at hrow with hi
      refine ⟨t₀, rfl, hid, i, row, hrow, ?_, hcells⟩
      rw [if_pos hi] at hrowId
      rwa [tableRowId, List.getD_eq_getElem?_getD]
    | documentHits | count | factSlice | refusal => cases heq
  items h := by
    obtain ⟨t, heq, -⟩ := h
    cases heq

omit [FloatText] in
theorem supports_cuttable : Cuttable fun b => b.supportsCompleteness = true where
  cut b j k _ h := by
    cases b with
    | count c => rfl
    | documentHits | completeTable | factSlice | refusal => cases h
  whole b k h := by
    cases b with
    | count c => rfl
    | documentHits | completeTable | factSlice | refusal => cases h
  items h := by cases h

/-- A row is among what is shown, and its text is in the context. -/
structure RowShown (c : Composed) (id rowId : String) (cells : List String) : Prop where
  row : ∃ s ∈ c.shown, HasRow id rowId cells s.2
  text : (rowJson (some id) rowId cells).chars <:+: c.context.toList

/-- A block is shown whole, and its text is in the context. -/
structure WholeShown (plan : EvidencePlan) (docs : DocumentEvidence) (c : Composed)
    (b : String × EvidenceBlock) : Prop where
  shown : b ∈ c.shown
  text : ∃ text, renderBlock b.1 (plan.layer b.1) b.2 docs = some text ∧
    text.toList <:+: c.context.toList

/-- A row that a reference names among what was served. -/
def NamesRow (served : List ServedEvidence) (id rowId : String) (cells : List String) : Prop :=
  ∃ e ∈ served, e.evidenceId = id ∧ e.row rowId = some cells

/-- The checks and the verdict refer to the context. -/
structure RefersToShown (plan : EvidencePlan) (s : Progress) (docs : DocumentEvidence)
    (c : Composed) : Prop where
  texts : Texts plan docs c
  citations : ∀ token id rowId cells, parseEvidenceRef token = some (id, rowId) →
    unservedRow (servedEvidence s.blocks) token = false →
      NamesRow (servedEvidence s.blocks) id rowId cells → RowShown c id rowId cells
  assertions : ∀ (a : TypedAssertion) ref id rowId cells,
    parseEvidenceRef ref = some (id, rowId) →
      refViolation a (servedEvidence s.blocks) ref = none →
        resolveRef (servedEvidence s.blocks) ref = some cells → RowShown c id rowId cells
  completeness : (decisionOf plan s).completenessAvailable = true →
    ∃ b ∈ s.blocks, b.2.supportsCompleteness = true ∧ WholeShown plan docs c b

/-- Each row that can be cited fits in the room that the layers before it leave, alone with the
rows above it or with its whole table, and so does a whole block that supports completeness where
there is one. -/
structure RoomForEvidence (plan : EvidencePlan) (blocks : List (String × EvidenceBlock))
    (budget : ℕ) (docs : DocumentEvidence) : Prop where
  rows : ∀ token id rowId cells, parseEvidenceRef token = some (id, rowId) →
    NamesRow (servedEvidence blocks) id rowId cells →
      PartFits plan docs budget 0 blocks (HasRow id rowId cells)
  supporting : (∃ b ∈ blocks, b.2.supportsCompleteness = true) →
    PartFits plan docs budget 0 blocks fun b => b.supportsCompleteness = true

omit [FloatText] in
theorem unservedRow_of_namesRow {served : List ServedEvidence} {token id rowId : String}
    {cells : List String} (hparse : parseEvidenceRef token = some (id, rowId))
    (h : NamesRow served id rowId cells) : unservedRow served token = false := by
  obtain ⟨e, he, hid, hrow⟩ := h
  have hany : (served.any fun e => e.evidenceId == id && (e.row rowId).isSome) = true := by
    rw [List.any_eq_true]
    exact ⟨e, he, by simp [hid, hrow]⟩
  simp only [unservedRow, hparse, hany, Bool.not_true]

omit [FloatText] in
theorem namesRow_of_resolveRef {served : List ServedEvidence} {ref id rowId : String}
    {cells : List String} (hparse : parseEvidenceRef ref = some (id, rowId))
    (h : resolveRef served ref = some cells) : NamesRow served id rowId cells := by
  simp only [resolveRef, hparse, Option.bind_some, Option.bind_eq_some_iff] at h
  obtain ⟨e, he, hrow⟩ := h
  exact ⟨e, List.mem_of_find?_eq_some he, by simpa using List.find?_some he, hrow⟩

omit [FloatText] in
/-- A part that supports completeness is its whole block. -/
theorem Part.eq_whole {part : EvidenceBlock} (h : Part plan b part)
    (hsupports : part.supportsCompleteness = true) : part = b.2 := by
  rcases h with rfl | ⟨-, keep, -, hcount, rfl⟩
  · rfl
  · cases hb : b.2 with
    | count c =>
      rw [hb] at hcount
      exact absurd hcount (Nat.not_lt_zero keep)
    | documentHits | completeTable | factSlice | refusal =>
      rw [hb] at hsupports
      cases hsupports

omit [FloatText] in
theorem exists_of_mapM {α β : Type*} {f : α → Option β} {l : List α} {r : List β} {a : α}
    (h : l.mapM f = some r) (ha : a ∈ l) : ∃ b ∈ r, f a = some b := by
  induction l generalizing r with
  | nil => cases ha
  | cons x l ih =>
    simp only [List.mapM_cons, Option.bind_eq_bind, Option.bind_eq_some_iff, Option.pure_def,
      Option.some.injEq] at h
    obtain ⟨b, hb, r, hr, rfl⟩ := h
    rcases List.mem_cons.mp ha with rfl | ha
    · exact ⟨b, List.mem_cons_self, hb⟩
    · obtain ⟨b', hb', hf⟩ := ih hr ha
      exact ⟨b', List.mem_cons_of_mem _ hb', hf⟩

omit [FloatText] in
theorem infix_join {text : String} {texts : List String} (h : text ∈ texts) :
    text.toList <:+: (String.join texts).toList := by
  obtain ⟨a, b, rfl⟩ := List.append_of_mem h
  rw [String.join_append, String.join_cons]
  exact ⟨(String.join a).toList, (String.join b).toList, by simp⟩

/-- What is shown is text of the context. -/
theorem Texts.shown (h : Texts plan docs c) (hb : b ∈ c.shown) :
    ∃ text, renderBlock b.1 (plan.layer b.1) b.2 docs = some text ∧
      text.toList <:+: c.context.toList := by
  obtain ⟨texts, htexts, hcontext⟩ := h
  obtain ⟨text, htext, hrender⟩ := exists_of_mapM htexts hb
  refine ⟨text, hrender, ?_⟩
  rw [hcontext]
  exact infix_join htext

/-- A table's text has the text of each of its rows. -/
theorem row_infix {name role text : String} {t : TableBlock} {i : ℕ} {row : List (Option String)}
    (h : renderLine name role (tableJson t) = some text) (hrow : t.rows[i]? = some row) :
    (rowJson t.evidenceId (tableRowId t i) (cellTexts row)).chars <:+: text.toList := by
  obtain ⟨hi, rfl⟩ := List.getElem?_eq_some_iff.mp hrow
  have hitem : rowJson t.evidenceId (tableRowId t i) (cellTexts t.rows[i]) ∈ rowsJson t :=
    List.mem_mapIdx.mpr ⟨i, hi, rfl⟩
  have hrows := Json.infix_chars_arr hitem
  have hcontent : ∃ fields, Json.object [("completeness", .str (if t.truncated then "TRUNCATED"
      else "COMPLETE")), ("columns", .arr (t.columns.map .str)), ("rows", .arr (rowsJson t))] =
        .obj fields ∧ fields.lookup "rows" = some (.arr (rowsJson t)) := by
    refine ⟨_, rfl, ?_⟩
    simp
  obtain ⟨content, hcontent, hlookup⟩ := hcontent
  have henvelope : ∃ fields, tableJson t = .obj fields ∧
      fields.lookup "content" = some (.obj content) := by
    refine ⟨_, rfl, ?_⟩
    rw [← hcontent]
    simp
  obtain ⟨fields, hfields, hmember⟩ := henvelope
  rw [hfields, renderLine_obj] at h
  cases h
  have hvalue : (SortedMap.insertEntry "answer_role" (Json.str role)
      (SortedMap.insertEntry "layer" (.str name) fields)).lookup "content" =
        some (.obj content) := by
    rw [SortedMap.lookup_insertEntry_of_ne (by decide),
      SortedMap.lookup_insertEntry_of_ne (by decide), hmember]
  rw [String.toList_append, Json.display, String.toList_ofList]
  exact (hrows.trans (Json.infix_chars_obj hlookup)).trans
    ((Json.infix_chars_obj hvalue).trans (List.prefix_append _ _).isInfix)

theorem rowShown_of (h : Texts plan docs c) {id rowId : String} {cells : List String}
    (hrow : ∃ s ∈ c.shown, HasRow id rowId cells s.2) : RowShown c id rowId cells := by
  refine ⟨hrow, ?_⟩
  obtain ⟨⟨name, shown⟩, hs, t, rfl, hid, i, row, hget, rfl, rfl⟩ := hrow
  obtain ⟨text, hrender, hinfix⟩ := h.shown hs
  have := row_infix hrender hget
  rw [hid] at this
  exact this.trans hinfix

/-- The checks and the verdict refer to what was shown where there is room for it, and only
there. -/
theorem compose_refers_iff {s : Progress}
    (h : compose plan s.blocks budget docs = some c) :
    RefersToShown plan s docs c ↔ RoomForEvidence plan s.blocks budget docs := by
  obtain ⟨htexts, hparts, hshows⟩ := foldlM_composes h
  replace htexts : Texts plan docs c := htexts ⟨[], rfl, rfl⟩
  have hshown : ∀ P, Cuttable P →
      ((∃ b ∈ c.shown, P b.2) ↔ PartFits plan docs budget 0 s.blocks P) := by
    intro P hP
    have := hshows P hP
    simpa using this
  have hrow : ∀ id rowId cells, RowShown c id rowId cells ↔
      PartFits plan docs budget 0 s.blocks (HasRow id rowId cells) := by
    intro id rowId cells
    rw [← hshown _ (hasRow_cuttable id rowId cells)]
    exact ⟨RowShown.row, rowShown_of htexts⟩
  constructor
  · intro hrefers
    constructor
    · intro token id rowId cells hparse hnames
      rw [← hrow]
      exact hrefers.citations token id rowId cells hparse
        (unservedRow_of_namesRow hparse hnames) hnames
    · intro hany
      obtain ⟨b, -, hsupports, hb⟩ := hrefers.completeness (List.any_eq_true.mpr hany)
      exact (hshown _ supports_cuttable).mp ⟨b, hb.shown, hsupports⟩
  · intro hroom
    refine ⟨htexts, ?_, ?_, ?_⟩
    · intro token id rowId cells hparse _ hnames
      exact (hrow id rowId cells).mpr (hroom.rows token id rowId cells hparse hnames)
    · intro a ref id rowId cells hparse _ hcells
      exact (hrow id rowId cells).mpr
        (hroom.rows ref id rowId cells hparse (namesRow_of_resolveRef hparse hcells))
    · intro havailable
      obtain ⟨b, hb, hsupports⟩ := (hshown _ supports_cuttable).mpr
        (hroom.supporting (List.any_eq_true.mp havailable))
      rcases hparts b hb with hnil | ⟨b', hb', hname, hpart⟩
      · cases hnil
      · have heq : b = b' := Prod.ext hname (hpart.eq_whole hsupports)
        exact ⟨b, heq ▸ hb', hsupports, hb, htexts.shown hb⟩

end

/-- What a turn gathers of the sales table. -/
def salesProgress : Progress :=
  (runLayers salesTurn salesPlan.intent salesPlan.layers.zipIdx (started salesPlan)).1

theorem sales_dropped :
    let _ : FloatText := ⟨fun _ => ""⟩
    ∃ c, compose salesPlan salesProgress.blocks 100 [] = some c ∧ c.context = "" ∧
      c.shown = [] := by
  intro _
  have hdropped : (compose salesPlan salesProgress.blocks 100 []).map
      (fun c => (c.context, c.shown.length)) = some ("", 0) := by
    decide +kernel
  obtain ⟨c, hc, hempty⟩ := Option.map_eq_some_iff.mp hdropped
  simp only [Prod.mk.injEq, List.length_eq_zero_iff] at hempty
  exact ⟨c, hc, hempty⟩

theorem sales_complete : (decisionOf salesPlan salesProgress).completenessAvailable = true := by
  decide +kernel

/-- The table's layer is dropped, the citation of its row is accepted, and completeness is
announced. -/
theorem unseen_row_accepted :
    let _ : FloatText := ⟨fun _ => ""⟩
    ∃ c, compose salesPlan salesProgress.blocks 100 [] = some c ∧ c.context = "" ∧
      unservedRow (servedEvidence salesProgress.blocks) "evidence/ev-1#r0001" = false ∧
        (decisionOf salesPlan salesProgress).completenessAvailable = true ∧
          ¬ RefersToShown salesPlan salesProgress [] c := by
  intro _
  obtain ⟨c, hc, hcontext, hshown⟩ := sales_dropped
  refine ⟨c, hc, hcontext, by decide +kernel, sales_complete, ?_⟩
  intro hrefers
  obtain ⟨b, -, -, hb⟩ := hrefers.completeness sales_complete
  have hmem := hb.shown
  rw [hshown] at hmem
  cases hmem

theorem compose_refers_iff_sales :
    let _ : FloatText := ⟨fun _ => ""⟩
    ¬ RoomForEvidence salesPlan salesProgress.blocks 100 [] := by
  intro _ hroom
  obtain ⟨c, hc, -, hshown⟩ := sales_dropped
  obtain ⟨b, -, -, hb⟩ := ((compose_refers_iff hc).mpr hroom).completeness sales_complete
  have hmem := hb.shown
  rw [hshown] at hmem
  cases hmem

end Munarium

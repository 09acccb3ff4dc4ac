import Munarium.Server.Composition

/-! What a context is made of: of each block all that fits, or the longest cut that does, in the
room that its layer and the blocks before it leave. -/
namespace Munarium

section
variable [FloatText] {name role : String}

theorem renderLine_obj (fields : List (String × Json)) :
    renderLine name role (.obj fields) = some ((Json.obj (SortedMap.insertEntry "answer_role"
      (.str role) (SortedMap.insertEntry "layer" (.str name) fields))).display ++ "\n") := rfl

theorem renderLine_ne_empty {v : Json} {text : String} (h : renderLine name role v = some text) :
    text ≠ "" := by
  unfold renderLine at h
  simp only [Option.bind_eq_some_iff, Option.map_eq_some_iff] at h
  obtain ⟨-, -, v, -, rfl⟩ := h
  intro hempty
  have := congrArg String.toList hempty
  simp at this

omit [FloatText] in
theorem utf8Len_le_of_sublist {s t : List Char} (h : s.Sublist t) :
    String.utf8Len s ≤ String.utf8Len t := by
  induction h with
  | slnil => exact Nat.le_refl _
  | cons c _ ih =>
    rw [String.utf8Len_cons]
    omega
  | cons_cons c _ ih =>
    rw [String.utf8Len_cons, String.utf8Len_cons]
    omega

omit [FloatText] in
theorem size_le_of_sublist {s t : String} (h : s.toList.Sublist t.toList) :
    s.utf8ByteSize ≤ t.utf8ByteSize := by
  rw [← String.ofList_toList (s := s), ← String.ofList_toList (s := t),
    String.utf8ByteSize_ofList, String.utf8ByteSize_ofList]
  exact utf8Len_le_of_sublist h

/-- A line is shorter where its value's members are. -/
theorem renderLine_size {fields fields' : List (String × Json)} {text text' : String}
    (h : Json.Shortens fields fields') (ht : renderLine name role (.obj fields) = some text)
    (ht' : renderLine name role (.obj fields') = some text') :
    text.utf8ByteSize ≤ text'.utf8ByteSize := by
  rw [renderLine_obj] at ht ht'
  cases ht
  cases ht'
  apply size_le_of_sublist
  simp only [String.toList_append, Json.display, String.toList_ofList]
  exact (Json.chars_obj_sublist ((h.insertEntry (List.Sublist.refl _)).insertEntry
    (List.Sublist.refl _))).append (List.Sublist.refl _)

/-- Evidence is longer where its content is, and nothing else about it changes. -/
theorem envelope_shortens {sourceRole : String} {pin content content' : Json}
    {citationId : Option String} (h : content.chars.Sublist content'.chars) :
    ∃ fields fields', envelope sourceRole pin citationId content = .obj fields ∧
      envelope sourceRole pin citationId content' = .obj fields' ∧
        Json.Shortens fields fields' := by
  refine ⟨_, _, rfl, rfl, Json.Shortens.foldl ?_ (Json.Shortens.refl [])⟩
  simp only [Json.Shortens, List.forall₂_cons, List.Sublist.refl, and_self, h,
    List.Forall₂.nil]

omit [FloatText] in
theorem rowsJson_cut (t : TableBlock) (k : ℕ) :
    rowsJson { t with rows := t.rows.take k, rowIds := t.rowIds.take k, truncated := true } =
      (rowsJson t).take k := by
  apply List.ext_getElem
  · simp [rowsJson]
  · intro i h _
    simp only [rowsJson, List.length_mapIdx, List.length_take, lt_inf_iff] at h
    simp [rowsJson, tableRowId, List.getD_eq_getElem?_getD, List.getElem?_take, h.1]

omit [FloatText] in
/-- A hit's line does not depend on how many hits are shown after it. -/
theorem hits_cut (docs : DocumentEvidence) (hits : List SearchHit) (k : ℕ) :
    (hits.take k).mapIdx (hitJson name docs) = (hits.mapIdx (hitJson name docs)).take k := by
  apply List.ext_getElem
  · simp
  · intro i _ _
    simp

omit [FloatText] in
theorem mapM_take {α β : Type*} {f : α → Option β} {l : List α} {r : List β}
    (h : l.mapM f = some r) (k : ℕ) : (l.take k).mapM f = some (r.take k) := by
  induction l generalizing r k with
  | nil =>
    cases h
    simp
  | cons a l ih =>
    simp only [List.mapM_cons, Option.bind_eq_bind, Option.bind_eq_some_iff, Option.pure_def,
      Option.some.injEq] at h
    obtain ⟨b, hb, r, hr, rfl⟩ := h
    cases k with
    | zero => simp
    | succ k => simp [hb, ih hr k]

omit [FloatText] in
theorem forall_mem_mapM {α β : Type*} {f : α → Option β} {l : List α} {r : List β}
    (h : l.mapM f = some r) : r.length = l.length ∧ ∀ b ∈ r, ∃ a, f a = some b := by
  induction l generalizing r with
  | nil =>
    cases h
    simp
  | cons a l ih =>
    simp only [List.mapM_cons, Option.bind_eq_bind, Option.bind_eq_some_iff, Option.pure_def,
      Option.some.injEq] at h
    obtain ⟨b, hb, r, hr, rfl⟩ := h
    obtain ⟨hlen, hmem⟩ := ih hr
    constructor
    · simp [hlen]
    · simp only [List.mem_cons, forall_eq_or_imp]
      exact ⟨⟨a, hb⟩, hmem⟩

omit [FloatText] in
theorem join_take_size (texts : List String) {j k : ℕ} (h : j ≤ k) :
    (String.join (texts.take j)).utf8ByteSize ≤ (String.join (texts.take k)).utf8ByteSize := by
  obtain ⟨rest, hrest⟩ := List.take_prefix_take_left (l := texts) h
  rw [← hrest, String.join_append, String.utf8ByteSize_append]
  omega

/-- The texts of a block's cuts. -/
structure CutTexts (render : EvidenceBlock → Option String) (b : EvidenceBlock)
    (text : ℕ → String) : Prop where
  eq : ∀ k, render (b.cutTo k) = some (text k)
  mono : ∀ j k, j ≤ k → (text j).utf8ByteSize ≤ (text k).utf8ByteSize
  ne_empty : ∀ k, 1 ≤ k → k < b.itemCount → text k ≠ ""

/-- Cuts that are one line each, and grow with what they keep. -/
theorem line_cutTexts {render : EvidenceBlock → Option String} {b : EvidenceBlock}
    (value : ℕ → Json) (hrender : ∀ k, render (b.cutTo k) = renderLine name role (value k))
    (hgrow : ∀ j k, j ≤ k → ∃ fields fields', value j = .obj fields ∧ value k = .obj fields' ∧
      Json.Shortens fields fields') : ∃ text, CutTexts render b text := by
  have hsome : ∀ k, ∃ text, renderLine name role (value k) = some text := by
    intro k
    obtain ⟨fields, -, hfields, -⟩ := hgrow k k (Nat.le_refl k)
    rw [hfields]
    exact ⟨_, renderLine_obj fields⟩
  choose text htext using hsome
  refine ⟨text, fun k => (hrender k).trans (htext k), ?_, ?_⟩
  · intro j k hjk
    obtain ⟨fields, fields', hj, hk, hshort⟩ := hgrow j k hjk
    exact renderLine_size hshort (hj ▸ htext j) (hk ▸ htext k)
  · intro k _ _
    exact renderLine_ne_empty (htext k)

theorem tableJson_grows (t : TableBlock) {j k : ℕ} (h : j ≤ k) :
    ∃ fields fields',
      tableJson { t with rows := t.rows.take j, rowIds := t.rowIds.take j, truncated := true } =
          .obj fields ∧
        tableJson { t with rows := t.rows.take k, rowIds := t.rowIds.take k, truncated := true } =
            .obj fields' ∧ Json.Shortens fields fields' := by
  unfold tableJson
  rw [rowsJson_cut, rowsJson_cut]
  apply envelope_shortens
  apply Json.chars_object_sublist
  simp only [Json.Shortens, List.forall₂_cons, List.Sublist.refl, and_self, List.Forall₂.nil,
    and_true, true_and]
  exact Json.chars_arr_sublist (List.take_prefix_take_left h)

theorem factsJson_grows (layer : Option EvidenceLayer) (claims : List Claim) {j k : ℕ}
    (h : j ≤ k) :
    ∃ fields fields', factsJson layer (claims.take j) = .obj fields ∧
      factsJson layer (claims.take k) = .obj fields' ∧ Json.Shortens fields fields' := by
  unfold factsJson modelEvidence
  apply envelope_shortens
  apply Json.chars_object_sublist
  simp only [Json.Shortens, List.forall₂_cons, List.Forall₂.nil, and_true, true_and]
  apply Json.chars_arr_sublist
  exact ((List.take_prefix_take_left h).map _).map _

theorem join_ne_empty {values : List Json} {texts : List String}
    (h : values.mapM (renderLine name role) = some texts) (hne : texts ≠ []) :
    String.join texts ≠ "" := by
  cases texts with
  | nil => exact absurd rfl hne
  | cons t texts =>
    obtain ⟨v, hv⟩ := (forall_mem_mapM h).2 t List.mem_cons_self
    rw [String.join_cons, Ne, String.append_eq_empty_iff]
    intro hempty
    exact renderLine_ne_empty hv hempty.1

/-- Every cut of a block that is rendered is rendered, the longer the more it keeps. -/
theorem cutTexts {layer : Option EvidenceLayer} {b : EvidenceBlock} {docs : DocumentEvidence}
    {whole : String} (h : renderBlock name layer b docs = some whole) :
    ∃ text, CutTexts (fun part => renderBlock name layer part docs) b text := by
  cases b with
  | documentHits hits =>
    unfold renderBlock renderLines at h
    obtain ⟨texts, htexts, -⟩ := Option.map_eq_some_iff.mp h
    have hlen := (forall_mem_mapM htexts).1
    refine ⟨fun k => String.join (texts.take k), ?_, ?_, ?_⟩
    · intro k
      simp only [EvidenceBlock.cutTo, renderBlock, renderLines, hits_cut, mapM_take htexts k,
        Option.map_some]
    · intro j k hjk
      exact join_take_size texts hjk
    · intro k hk hcount
      apply join_ne_empty (mapM_take htexts k)
      simp only [EvidenceBlock.itemCount] at hcount
      simp only [List.length_mapIdx] at hlen
      rw [Ne, List.take_eq_nil_iff, not_or, ← List.length_eq_zero_iff]
      omega
  | completeTable t => exact line_cutTexts _ (fun _ => rfl) fun _ _ => tableJson_grows t
  | factSlice claims => exact line_cutTexts _ (fun _ => rfl) fun _ _ => factsJson_grows layer claims
  | count c =>
    exact line_cutTexts (fun _ => countJson c) (fun _ => rfl) fun _ _ _ =>
      ⟨_, _, rfl, rfl, Json.Shortens.refl _⟩
  | refusal r =>
    exact line_cutTexts (fun _ => refusalJson r) (fun _ => rfl) fun _ _ _ =>
      ⟨_, _, rfl, rfl, Json.Shortens.refl _⟩

/-- The only block without a text is an empty list of documents. -/
theorem eq_of_renderBlock_empty {layer : Option EvidenceLayer} {b : EvidenceBlock}
    {docs : DocumentEvidence} (h : renderBlock name layer b docs = some "") :
    b = .documentHits [] := by
  cases b with
  | documentHits hits =>
    unfold renderBlock renderLines at h
    obtain ⟨texts, htexts, hjoin⟩ := Option.map_eq_some_iff.mp h
    by_cases hne : texts = []
    · have hlen := (forall_mem_mapM htexts).1
      rw [hne, List.length_nil, List.length_mapIdx] at hlen
      rw [List.length_eq_zero_iff.mp hlen.symm]
    · exact absurd hjoin (join_ne_empty htexts hne)
  | completeTable | count | factSlice | refusal => exact absurd rfl (renderLine_ne_empty h)

omit [FloatText] in
/-- The search ends with the longest cut of the interval that fits, or with what it began with. -/
theorem searchFit_spec {render : EvidenceBlock → Option String} {b : EvidenceBlock}
    {text : ℕ → String} (htext : CutTexts render b text) (room lo hi : ℕ) (fit : Rendered) :
    ∃ r, searchFit render b room lo hi fit = some r ∧
      ((r = fit ∧ ∀ k, lo ≤ k → k < hi → room < (text k).utf8ByteSize) ∨
        ∃ k, lo ≤ k ∧ k < hi ∧ r = ⟨b.cutTo k, text k⟩ ∧ (text k).utf8ByteSize ≤ room ∧
          ∀ j, k < j → j < hi → room < (text j).utf8ByteSize) := by
  fun_induction searchFit render b room lo hi fit with
  | case1 lo hi fit hlt keep hnone =>
    rw [htext.eq keep] at hnone
    cases hnone
  | case2 lo hi fit hlt keep candidate hcandidate hfits ih =>
    have hkeep : keep = lo + (hi - lo) / 2 := rfl
    rw [htext.eq keep] at hcandidate
    cases hcandidate
    obtain ⟨r, hr, hcase⟩ := ih
    refine ⟨r, hr, Or.inr ?_⟩
    rcases hcase with ⟨rfl, habove⟩ | ⟨k, hlo, hhi, rfl, hk, habove⟩
    · exact ⟨keep, by omega, by omega, rfl, hfits, fun j hj hhi => habove j hj hhi⟩
    · exact ⟨k, by omega, hhi, rfl, hk, habove⟩
  | case3 lo hi fit hlt keep candidate hcandidate hfits ih =>
    have hkeep : keep = lo + (hi - lo) / 2 := rfl
    rw [htext.eq keep] at hcandidate
    cases hcandidate
    have hlonger : ∀ j, keep ≤ j → room < (text j).utf8ByteSize := by
      intro j hj
      have := htext.mono keep j hj
      omega
    obtain ⟨r, hr, hcase⟩ := ih
    refine ⟨r, hr, ?_⟩
    rcases hcase with ⟨rfl, hbelow⟩ | ⟨k, hlo, hhi, rfl, hk, habove⟩
    · left
      refine ⟨rfl, fun k hk hhi => ?_⟩
      by_cases hlow : k < keep
      · exact hbelow k hk hlow
      · exact hlonger k (by omega)
    · right
      refine ⟨k, hlo, by omega, rfl, hk, fun j hj hhi => ?_⟩
      by_cases hlow : j < keep
      · exact habove j hj hlow
      · exact hlonger j (by omega)
  | case4 lo hi fit hge =>
    exact ⟨fit, rfl, Or.inl ⟨rfl, fun k hk hhi => by omega⟩⟩

/-- The longest proper part of a block's items whose text fits. -/
structure LongestCut (render : EvidenceBlock → Option String) (b : EvidenceBlock) (room k : ℕ)
    (text : String) : Prop where
  kept : 1 ≤ k
  proper : k < b.itemCount
  renders : render (b.cutTo k) = some text
  fits : text.utf8ByteSize ≤ room
  longest : ∀ j t, k < j → j < b.itemCount → render (b.cutTo j) = some t → room < t.utf8ByteSize

/-- What of a block goes into a room: all of it, the longest cut of a block that may be cut, or
nothing. -/
inductive PartOf (render : EvidenceBlock → Option String) (preserve : Bool) (room : ℕ)
    (b : EvidenceBlock) : Option Rendered → Prop
  | whole {text : String} (hwhole : render b = some text) (hfits : text.utf8ByteSize ≤ room) :
      PartOf render preserve room b (some ⟨b, text⟩)
  | cut {whole text : String} {k : ℕ} (hwhole : render b = some whole)
      (hlong : room < whole.utf8ByteSize) (hfree : preserve = false)
      (hcut : LongestCut render b room k text) :
      PartOf render preserve room b (some ⟨b.cutTo k, text⟩)
  | dropped {whole : String} (hwhole : render b = some whole)
      (hlong : room < whole.utf8ByteSize)
      (hnone : preserve = true ∨ ∀ k t, 1 ≤ k → k < b.itemCount → render (b.cutTo k) = some t →
        room < t.utf8ByteSize) :
      PartOf render preserve room b none

omit [FloatText] in
/-- A part is shown with its own text, which fits. -/
theorem PartOf.shown {render : EvidenceBlock → Option String} {preserve : Bool} {room : ℕ}
    {b : EvidenceBlock} {r : Rendered} (h : PartOf render preserve room b (some r)) :
    render r.block = some r.text ∧ r.text.utf8ByteSize ≤ room := by
  cases h with
  | whole hwhole hfits => exact ⟨hwhole, hfits⟩
  | cut _ _ _ hcut => exact ⟨hcut.renders, hcut.fits⟩

/-- A context after a part of a block, or after a block that is dropped. -/
def Composed.extend (c : Composed) (name : String) : Option Rendered → Composed
  | some r => c.push name r
  | none => c.drop name

/-- A block adds nothing where it has no text, and else the part of it that goes into its room. -/
theorem composeBlock_part {plan : EvidencePlan} {docs : DocumentEvidence} (budget : ℕ)
    (c : Composed) {b : String × EvidenceBlock} {whole : String}
    (hwhole : renderBlock b.1 (plan.layer b.1) b.2 docs = some whole) :
    whole = "" ∧ composeBlock plan budget docs c b = some c ∨
    whole ≠ "" ∧ ∃ part, PartOf (fun block => renderBlock b.1 (plan.layer b.1) block docs)
        (preserved (plan.layer b.1)) (roomAfter (plan.layer b.1) budget c.context.utf8ByteSize)
        b.2 part ∧
      composeBlock plan budget docs c b = some (c.extend b.1 part) := by
  obtain ⟨text, htext⟩ := cutTexts hwhole
  have hunique {j : ℕ} {t : String}
      (ht : renderBlock b.1 (plan.layer b.1) (b.2.cutTo j) docs = some t) : text j = t :=
    Option.some.inj ((htext.eq j).symm.trans ht)
  unfold composeBlock
  simp only [hwhole]
  split_ifs with hempty hfits hpreserved hroom
  · exact Or.inl ⟨String.isEmpty_iff.mp hempty, rfl⟩
  · exact Or.inr ⟨fun h => hempty (String.isEmpty_iff.mpr h), _, .whole hwhole hfits, rfl⟩
  · exact Or.inr ⟨fun h => hempty (String.isEmpty_iff.mpr h), none,
      .dropped hwhole (Nat.lt_of_not_le hfits) (Or.inl hpreserved), rfl⟩
  · refine Or.inr ⟨fun h => hempty (String.isEmpty_iff.mpr h), none,
      .dropped hwhole (Nat.lt_of_not_le hfits) (Or.inr ?_), rfl⟩
    intro k t hk hcount ht
    have hpos : t.utf8ByteSize ≠ 0 := by
      rw [Ne, String.utf8ByteSize_eq_zero_iff, ← hunique ht]
      exact htext.ne_empty k hk hcount
    omega
  · have hfree : preserved (plan.layer b.1) = false := Bool.not_eq_true _ ▸ hpreserved
    refine Or.inr ⟨fun h => hempty (String.isEmpty_iff.mpr h), ?_⟩
    obtain ⟨fit, hfit, hcase⟩ := searchFit_spec htext
      (roomAfter (plan.layer b.1) budget c.context.utf8ByteSize) 1 b.2.itemCount ⟨b.2, ""⟩
    simp only [hfit]
    rcases hcase with ⟨rfl, hnone⟩ | ⟨k, hk, hcount, rfl, hkfits, hmax⟩
    · refine ⟨none, .dropped hwhole (Nat.lt_of_not_le hfits) (Or.inr ?_), by
        rw [if_pos (by rfl)]
        rfl⟩
      intro k t hk hcount ht
      rw [← hunique ht]
      exact hnone k hk hcount
    · refine ⟨some ⟨b.2.cutTo k, text k⟩, .cut hwhole (Nat.lt_of_not_le hfits) hfree
        ⟨hk, hcount, htext.eq k, hkfits, ?_⟩, ?_⟩
      · intro j t hj hjcount ht
        rw [← hunique ht]
        exact hmax j hj hjcount
      · have hne : (text k).isEmpty = false :=
          String.isEmpty_eq_false_iff.mpr (htext.ne_empty k hk hcount)
        rw [hne, if_neg Bool.false_ne_true]
        rfl

/-- The texts of the parts that are shown. -/
def contextOf (parts : List (String × Option Rendered)) : String :=
  String.join (parts.filterMap fun p => p.2.map Rendered.text)

/-- The parts of the blocks that have a text, in their order, each in the room that its layer and
the parts before it leave. -/
inductive ComposedOf (plan : EvidencePlan) (docs : DocumentEvidence) (budget : ℕ) :
    List (String × EvidenceBlock) → List (String × Option Rendered) → Prop
  | nil : ComposedOf plan docs budget [] []
  | silent {blocks : List (String × EvidenceBlock)} {parts : List (String × Option Rendered)}
      {b : String × EvidenceBlock} (h : ComposedOf plan docs budget blocks parts)
      (hsilent : renderBlock b.1 (plan.layer b.1) b.2 docs = some "") :
      ComposedOf plan docs budget (blocks ++ [b]) parts
  | part {blocks : List (String × EvidenceBlock)} {parts : List (String × Option Rendered)}
      {b : String × EvidenceBlock} {whole : String} {part : Option Rendered}
      (h : ComposedOf plan docs budget blocks parts)
      (hwhole : renderBlock b.1 (plan.layer b.1) b.2 docs = some whole) (hne : whole ≠ "")
      (hpart : PartOf (fun block => renderBlock b.1 (plan.layer b.1) block docs)
        (preserved (plan.layer b.1))
        (roomAfter (plan.layer b.1) budget (contextOf parts).utf8ByteSize) b.2 part) :
      ComposedOf plan docs budget (blocks ++ [b]) (parts ++ [(b.1, part)])

/-- A complete envelope of a layer: an object that says its layer and the layer's role. -/
def IsEnvelope (name role : String) (v : Json) : Prop :=
  ∃ fields, v = .obj fields ∧ fields.lookup "layer" = some (.str name) ∧
    fields.lookup "answer_role" = some (.str role)

def roleOf (layer : Option EvidenceLayer) : String :=
  (layer.map fun l => l.role.asStr).getD "supporting"

/-- A text of lines, each of them one complete envelope. -/
def EnvelopeLines (plan : EvidencePlan) (text : String) : Prop :=
  ∃ lines : List String, text = String.join (lines.map (· ++ "\n")) ∧
    ∀ line ∈ lines, '\n' ∉ line.toList ∧
      ∃ name v, IsEnvelope name (roleOf (plan.layer name)) v ∧ line = v.display

/-- A context is what the blocks' parts make, within both budgets. -/
structure Composition (plan : EvidencePlan) (docs : DocumentEvidence) (budget : ℕ)
    (blocks : List (String × EvidenceBlock)) (c : Composed)
    (parts : List (String × Option Rendered)) : Prop where
  composed : ComposedOf plan docs budget blocks parts
  context : c.context = contextOf parts
  used : c.layersUsed = parts.countP fun p => p.2.isSome
  dropped : c.layersDropped = (parts.filter fun p => p.2.isNone).map Prod.fst
  bounded : c.context.utf8ByteSize ≤ budget
  caps : ∀ p ∈ parts, ∀ r, p.2 = some r → ∀ cap,
    (plan.layer p.1).bind EvidenceLayer.contextCharBudget = some cap → r.text.utf8ByteSize ≤ cap
  count : c.layersUsed + c.layersDropped.length =
    blocks.countP fun b => renderBlock b.1 (plan.layer b.1) b.2 docs ≠ some ""
  lines : EnvelopeLines plan c.context

omit [FloatText] in
theorem contextOf_append (parts : List (String × Option Rendered)) (name : String)
    (part : Option Rendered) :
    contextOf (parts ++ [(name, part)]) = contextOf parts ++ (part.map Rendered.text).getD "" := by
  cases part with
  | none => simp [contextOf]
  | some r => simp [contextOf, String.join_append]

omit [FloatText] in
theorem lookup_layer (fields : List (String × Json)) (name role : String) :
    IsEnvelope name role (.obj (SortedMap.insertEntry "answer_role" (.str role)
      (SortedMap.insertEntry "layer" (.str name) fields))) := by
  refine ⟨_, rfl, ?_, SortedMap.lookup_insertEntry_self _ _ _⟩
  rw [SortedMap.lookup_insertEntry_of_ne (by decide), SortedMap.lookup_insertEntry_self]

theorem renderLine_envelope {v : Json} {text : String} (h : renderLine name role v = some text) :
    ∃ w, IsEnvelope name role w ∧ text = w.display ++ "\n" := by
  unfold renderLine at h
  cases v with
  | obj fields =>
    cases h
    exact ⟨_, lookup_layer fields name role, rfl⟩
  | null =>
    cases h
    exact ⟨_, lookup_layer [] name role, rfl⟩
  | bool | int | float | str | arr => cases h

/-- A block's text is one envelope in each line. -/
theorem renderBlock_lines (hfloat : ∀ q, '\n' ∉ (FloatText.text q).toList) {plan : EvidencePlan}
    {block : EvidenceBlock} {docs : DocumentEvidence} {text : String}
    (h : renderBlock name (plan.layer name) block docs = some text) : EnvelopeLines plan text := by
  have hline {v : Json} {t : String}
      (ht : renderLine name (roleOf (plan.layer name)) v = some t) :
      ∃ line : String, t = line ++ "\n" ∧ '\n' ∉ line.toList ∧
        ∃ name v, IsEnvelope name (roleOf (plan.layer name)) v ∧ line = v.display := by
    obtain ⟨w, hw, rfl⟩ := renderLine_envelope ht
    refine ⟨w.display, rfl, ?_, name, w, hw, rfl⟩
    rw [Json.display, String.toList_ofList]
    exact Json.newline_not_mem_chars hfloat w
  have hone {v : Json} (ht : renderLine name (roleOf (plan.layer name)) v = some text) :
      EnvelopeLines plan text := by
    obtain ⟨line, rfl, hplain⟩ := hline ht
    refine ⟨[line], by simp [String.join_cons], ?_⟩
    simpa using hplain
  cases block with
  | documentHits hits =>
    obtain ⟨texts, htexts, rfl⟩ := Option.map_eq_some_iff.mp h
    have hall : ∀ t ∈ texts, ∃ line : String, t = line ++ "\n" ∧ '\n' ∉ line.toList ∧
        ∃ name v, IsEnvelope name (roleOf (plan.layer name)) v ∧ line = v.display := by
      intro t ht
      obtain ⟨v, hv⟩ := (forall_mem_mapM htexts).2 t ht
      exact hline hv
    clear htexts h hone
    induction texts with
    | nil => exact ⟨[], rfl, fun line hl => absurd hl List.not_mem_nil⟩
    | cons t texts ih =>
      obtain ⟨line, rfl, hplain⟩ := hall t List.mem_cons_self
      obtain ⟨lines, hlines, hrest⟩ := ih fun u hu => hall u (List.mem_cons_of_mem _ hu)
      refine ⟨line :: lines, by rw [String.join_cons, hlines, List.map_cons, String.join_cons], ?_⟩
      intro l hl
      rcases List.mem_cons.mp hl with rfl | hl
      · exact hplain
      · exact hrest l hl
  | completeTable | count | factSlice | refusal => exact hone h

/-- A document's evidence is an object, as the retrieval writes it. -/
def DocumentObjects (docs : DocumentEvidence) : Prop :=
  ∀ d ∈ docs, ∀ v ∈ d.2, ∃ fields, v = .obj fields

omit [FloatText] in
theorem hitJson_object {docs : DocumentEvidence} (hdocs : DocumentObjects docs) (i : ℕ)
    (hit : SearchHit) : ∃ fields, hitJson name docs i hit = .obj fields := by
  unfold hitJson
  cases hfind : docs.find? fun d => d.1 == name with
  | none => exact ⟨_, rfl⟩
  | some d =>
    cases hget : d.2[i]? with
    | none =>
      rw [Option.bind_some, hget]
      exact ⟨_, rfl⟩
    | some v =>
      rw [Option.bind_some, hget, Option.getD_some]
      exact hdocs d (List.mem_of_find?_eq_some hfind) v (List.mem_of_getElem? hget)

theorem renderLines_some {values : List Json} (h : ∀ v ∈ values, ∃ fields, v = .obj fields) :
    ∃ text, renderLines name role values = some text := by
  have hall : ∃ texts, values.mapM (renderLine name role) = some texts := by
    induction values with
    | nil => exact ⟨[], rfl⟩
    | cons v values ih =>
      obtain ⟨fields, rfl⟩ := h v List.mem_cons_self
      obtain ⟨texts, htexts⟩ := ih fun w hw => h w (List.mem_cons_of_mem _ hw)
      exact ⟨_, by rw [List.mapM_cons, renderLine_obj, htexts]; rfl⟩
  obtain ⟨texts, htexts⟩ := hall
  exact ⟨String.join texts, by rw [renderLines, htexts, Option.map_some]⟩

theorem renderBlock_some {layer : Option EvidenceLayer} {block : EvidenceBlock}
    {docs : DocumentEvidence} (hdocs : DocumentObjects docs) :
    ∃ text, renderBlock name layer block docs = some text := by
  cases block with
  | documentHits hits =>
    apply renderLines_some
    intro v hv
    obtain ⟨i, hi, rfl⟩ := List.mem_mapIdx.mp hv
    exact hitJson_object hdocs i _
  | completeTable | count | factSlice | refusal => exact ⟨_, rfl⟩

variable {plan : EvidencePlan} {docs : DocumentEvidence} {budget : ℕ} {c : Composed}
  {blocks : List (String × EvidenceBlock)} {parts : List (String × Option Rendered)}

omit [FloatText] in
theorem roomAfter_le (layer : Option EvidenceLayer) (budget size : ℕ) :
    roomAfter layer budget size ≤ budget - size ∧
      ∀ cap, layer.bind EvidenceLayer.contextCharBudget = some cap →
        roomAfter layer budget size ≤ cap := by
  unfold roomAfter
  cases layer.bind EvidenceLayer.contextCharBudget with
  | none => exact ⟨Nat.le_refl _, fun cap h => by cases h⟩
  | some cap =>
    refine ⟨Nat.min_le_left _ _, ?_⟩
    intro cap' h
    cases h
    exact Nat.min_le_right _ _

theorem EnvelopeLines.append {text more : String} (h : EnvelopeLines plan text)
    (hmore : EnvelopeLines plan more) : EnvelopeLines plan (text ++ more) := by
  obtain ⟨lines, rfl, hlines⟩ := h
  obtain ⟨rest, rfl, hrest⟩ := hmore
  refine ⟨lines ++ rest, by rw [List.map_append, String.join_append], ?_⟩
  intro line hline
  rcases List.mem_append.mp hline with hline | hline
  · exact hlines line hline
  · exact hrest line hline

/-- One more block goes in as its part. -/
theorem Composition.step (hfloat : ∀ q, '\n' ∉ (FloatText.text q).toList)
    (hdocs : DocumentObjects docs) (b : String × EvidenceBlock)
    (h : Composition plan docs budget blocks c parts) :
    ∃ c' parts', composeBlock plan budget docs c b = some c' ∧
      Composition plan docs budget (blocks ++ [b]) c' parts' := by
  have hsome : ∃ whole, renderBlock b.1 (plan.layer b.1) b.2 docs = some whole :=
    renderBlock_some hdocs
  obtain ⟨whole, hwhole⟩ := hsome
  rcases composeBlock_part budget c hwhole with ⟨rfl, hnext⟩ | ⟨hne, part, hpart, hnext⟩
  · refine ⟨c, parts, hnext, .silent h.composed hwhole, h.context, h.used, h.dropped, h.bounded,
      h.caps, ?_, h.lines⟩
    rw [List.countP_append, ← h.count]
    simp [hwhole]
  · refine ⟨_, parts ++ [(b.1, part)], hnext, ?_⟩
    have hcount : (blocks ++ [b]).countP
        (fun b => renderBlock b.1 (plan.layer b.1) b.2 docs ≠ some "") =
          c.layersUsed + c.layersDropped.length + 1 := by
      rw [List.countP_append, ← h.count]
      simp [hwhole, hne]
    have hroom := roomAfter_le (plan.layer b.1) budget c.context.utf8ByteSize
    have hcomposed := h.composed.part hwhole hne (h.context ▸ hpart)
    cases part with
    | none =>
      refine ⟨hcomposed, ?_, ?_, ?_, h.bounded, ?_, ?_, h.lines⟩
      · rw [contextOf_append]
        simpa [Composed.extend, Composed.drop] using h.context
      · simpa [Composed.extend, Composed.drop] using h.used
      · simp [Composed.extend, Composed.drop, h.dropped]
      · intro p hp r hr
        rcases List.mem_append.mp hp with hp | hp
        · exact h.caps p hp r hr
        · rw [List.mem_singleton.mp hp] at hr
          cases hr
      · rw [hcount]
        simp [Composed.extend, Composed.drop, Nat.add_assoc]
    | some r =>
      obtain ⟨htext, hfits⟩ := hpart.shown
      refine ⟨hcomposed, ?_, ?_, ?_, ?_, ?_, ?_, ?_⟩
      · rw [contextOf_append, ← h.context]
        rfl
      · simp [Composed.extend, Composed.push, h.used]
      · simpa [Composed.extend, Composed.push] using h.dropped
      · have hbounded := h.bounded
        have hsize := hroom.1
        simp only [Composed.extend, Composed.push, String.utf8ByteSize_append]
        omega
      · intro p hp r' hr cap hcap
        rcases List.mem_append.mp hp with hp | hp
        · exact h.caps p hp r' hr cap hcap
        · rw [List.mem_singleton.mp hp] at hr hcap
          cases hr
          exact Nat.le_trans hfits (hroom.2 cap hcap)
      · rw [hcount]
        simp only [Composed.extend, Composed.push]
        omega
      · exact h.lines.append (renderBlock_lines hfloat htext)

theorem foldlM_composition (hfloat : ∀ q, '\n' ∉ (FloatText.text q).toList)
    (hdocs : DocumentObjects docs) (more : List (String × EvidenceBlock))
    (h : Composition plan docs budget blocks c parts) :
    ∃ c' parts', more.foldlM (composeBlock plan budget docs) c = some c' ∧
      Composition plan docs budget (blocks ++ more) c' parts' := by
  induction more generalizing blocks c parts with
  | nil => exact ⟨c, parts, rfl, by rwa [List.append_nil]⟩
  | cons b more ih =>
    obtain ⟨c₁, parts₁, hstep, h₁⟩ := h.step hfloat hdocs b
    obtain ⟨c', parts', hrest, h'⟩ := ih h₁
    refine ⟨c', parts', ?_, by rwa [List.append_assoc] at h'⟩
    rw [List.foldlM_cons, hstep]
    exact hrest

end

/-- Two layers in a room for one of them. -/
def factsPlan : EvidencePlan :=
  ⟨"p", ⟨"q", none, true, SortedMap.empty⟩,
    [⟨"facts", ["facts:v1"], .required, .primary, some 4000, false, none⟩,
      ⟨"notes", ["documents"], .optional, .supporting, none, true, none⟩], none,
    "preserve_and_disclose"⟩

end Munarium

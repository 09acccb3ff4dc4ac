import Mathlib.Data.Finset.Interval
import Mathlib.Order.Interval.Finset.Nat
import Munarium.Platform.CheckpointRows

/-! The pages of a checkpoint: each holds the next records while they fit, and the position of
its last record leads to the rest. -/
namespace Munarium

namespace PlatformAction
open PlatformRecord (MAX)

/-- The four letters of `null` or `true` in a member's place make an object's text at most as
much longer. -/
class SerdeMember [SerdeJson] : Prop where
  short : ∀ (before after : List (String × Json)) (k : String) (v w : Json),
    v = .null ∨ v = .bool true → k ∉ after.map Prod.fst →
    (SerdeJson.toVec (.object (before ++ (k, v) :: after))).length ≤
      (SerdeJson.toVec (.object (before ++ (k, w) :: after))).length + 4

/-- The entries stand at different positions from one up to the pin, in ascending order. -/
structure Export.Ordered (x : Export) (pin : ℕ) : Prop where
  bound : pin ≤ MAX
  strict : x.entries.Pairwise fun a b => positionKey a < positionKey b
  numbered : ∀ e ∈ x.entries, ∃ n : ℕ, e["position"] = .int n ∧ 0 < n ∧ n ≤ pin

section
variable [SerdeJson] {x : Export} {pin : ℕ}

theorem Export.Ordered.of_keys {records : List Claim} (hpin : pin ≤ MAX)
    (hkeys : x.entries.map entryKey = records.map rowKey)
    (hascending : records.Pairwise fun a b => a.seq < b.seq)
    (hbounds : ∀ c ∈ records, 0 < c.seq ∧ c.seq ≤ pin) : x.Ordered pin := by
  have hstrict := rowKeys_ascending hascending fun c hc => (hbounds c hc).2.trans hpin
  rw [← hkeys, List.pairwise_map] at hstrict
  refine ⟨hpin, hstrict, ?_⟩
  intro e he
  have hmem : entryKey e ∈ records.map rowKey := hkeys ▸ List.mem_map_of_mem he
  obtain ⟨c, hc, hsame⟩ := List.mem_map.mp hmem
  exact ⟨c.seq, (congrArg Prod.fst hsame).symm, hbounds c hc⟩

omit [SerdeJson] in
theorem positionKey_of {e : Json} {n : ℕ} (h : e["position"] = .int n) (hn : n ≤ MAX) :
    positionKey e = (n : WithBot ℕ) := by
  show e["position"].asU64 = _
  rw [h, asU64_int hn]
  rfl

omit [SerdeJson] in
/-- From the start everything remains. -/
theorem Export.Ordered.remaining_zero (h : x.Ordered pin) : x.remaining 0 = x.entries := by
  rw [Export.remaining, List.filter_eq_self]
  intro e he
  obtain ⟨n, hn, hpos, hle⟩ := h.numbered e he
  rw [hn, asU64_int (hle.trans h.bound)]
  exact decide_eq_true hpos

omit [SerdeJson] in
/-- Past the last record of a page the rest remains. -/
theorem Export.Ordered.remaining_past (h : x.Ordered pin) {before rest : List Json} {last : Json}
    (hentries : x.entries = before ++ rest) (hlast : before.getLast? = some last) {n : ℕ}
    (hn : last["position"] = .int n) (hle : n ≤ pin) : x.remaining n = rest := by
  have hmax := hle.trans h.bound
  have hstrict := h.strict
  rw [hentries] at hstrict
  rw [← Paging.filter_past hstrict hlast, Export.remaining, hentries]
  apply List.filter_congr
  intro e he
  obtain ⟨m, hm, -, hle'⟩ := h.numbered e (hentries ▸ he)
  have hmax' := hle'.trans h.bound
  rw [positionKey_of hn hmax, positionKey_of hm hmax', hm, asU64_int hmax', Option.any_some]
  simp

omit [SerdeJson] in
/-- There are no more entries than positions. -/
theorem Export.Ordered.length_le (h : x.Ordered pin) : x.entries.length ≤ pin := by
  have hsubset : (x.entries.map positionKey).toFinset ⊆
      (Finset.Icc 1 pin).image (fun n : ℕ => (n : WithBot ℕ)) := by
    intro key hkey
    obtain ⟨e, he, rfl⟩ := List.mem_map.mp (List.mem_toFinset.mp hkey)
    obtain ⟨n, hn, hpos, hle⟩ := h.numbered e he
    rw [positionKey_of hn (hle.trans h.bound)]
    exact Finset.mem_image_of_mem _ (Finset.mem_Icc.mpr ⟨hpos, hle⟩)
  have hnodup : (x.entries.map positionKey).Nodup :=
    List.pairwise_map.mpr (h.strict.imp ne_of_lt)
  have hcard := (Finset.card_le_card hsubset).trans Finset.card_image_le
  rwa [List.toFinset_card_of_nodup hnodup, List.length_map, Nat.card_Icc,
    Nat.add_sub_cancel] at hcard

/-- Every record fits on a page of its own, and a page without records fits. -/
structure Export.Fits (x : Export) : Prop where
  empty : x.entries = [] →
    (SerdeJson.toVec (x.page 0 [] true .null)).length ≤ PAGE_BYTES
  single : ∀ e ∈ x.entries, ∀ after, x.fits after [e] = true

/-- The last page is hardly longer than it was when it was filled. -/
theorem Export.page_complete [SerdeMember] {after : ℕ} {selected : List Json}
    (h : x.fits after selected = true) :
    (SerdeJson.toVec (x.page after selected true .null)).length ≤ PAGE_BYTES := by
  have hfits := of_decide_eq_true h
  have hnext := SerdeMember.short (x.descriptor ++ [("checkpoint_digest", .str x.digest),
    ("after", .int after), ("records", .arr selected), ("complete", .bool true)]) [] "next_after"
    .null (lastPosition selected) (.inl rfl) (by simp)
  have hcomplete := SerdeMember.short (x.descriptor ++ [("checkpoint_digest", .str x.digest),
    ("after", .int after), ("records", .arr selected)]) [("next_after", lastPosition selected)]
    "complete" (.bool true) (.bool false) (.inr rfl) (by simp)
  simp only [List.append_assoc, List.cons_append, List.nil_append] at hnext hcomplete
  unfold Export.page at hfits ⊢
  unfold PAGE_BYTES at hfits ⊢
  omega

/-- A page holds the first of the remaining records, at least one if there are any, and says
whether it holds all of them. -/
theorem Export.answer_ok [SerdeMember] (hfits : x.Fits) {before rest : List Json} {after limit : ℕ}
    (hentries : x.entries = before ++ rest) (hremaining : x.remaining after = rest)
    (hlimit : 1 ≤ limit) (hstart : rest = [] → after = 0 ∧ before = []) :
    ∃ selected rest', rest = selected ++ rest' ∧ (rest ≠ [] → selected ≠ []) ∧
      x.answer after limit = .ok (x.page after selected (decide (rest' = []))
        (if rest' = [] then .null else lastPosition selected)) := by
  obtain ⟨selected, hprefix, hfill⟩ :=
    Paging.fill_prefix (x.fits after) [] (rest.take limit)
  rw [List.nil_append] at hfill
  obtain ⟨rest', hrest⟩ := hprefix.trans (List.take_prefix limit rest)
  have hsome : rest ≠ [] → selected ≠ [] := by
    intro hne
    cases hcase : rest with
    | nil => exact absurd hcase hne
    | cons e more =>
      have he : e ∈ x.entries := by simp [hentries, hcase]
      rw [hcase, show limit = limit - 1 + 1 by omega, List.take_succ_cons] at hfill
      rw [← hfill]
      exact Paging.fill_ne_nil (hfits.single e he after)
  refine ⟨selected, rest', hrest.symm, hsome, ?_⟩
  have hcomplete : (selected.length == rest.length) = decide (rest' = []) := by
    rw [← hrest, List.length_append, Bool.eq_iff_iff, beq_iff_eq, decide_eq_true_eq,
      ← List.length_eq_zero_iff]
    omega
  have hrefused : (selected.isEmpty && !rest.isEmpty) = false := by
    by_cases hne : rest = []
    · simp [hne]
    · simp [hsome hne]
  have hif (b : Json) : (if decide (rest' = []) = true then Json.null else b) =
      if rest' = [] then .null else b := by simp only [decide_eq_true_eq]
  have hlength : (SerdeJson.toVec (x.page after selected (decide (rest' = []))
      (if rest' = [] then .null else lastPosition selected))).length ≤ PAGE_BYTES := by
    by_cases hselected : selected = []
    · have hnone : rest = [] := by
        by_contra hne
        exact hsome hne hselected
      obtain ⟨rfl, rfl⟩ := hstart hnone
      obtain rfl : rest' = [] := by simpa [hnone, hselected] using hrest
      rw [hselected]
      exact hfits.empty (by simp [hentries, hnone])
    have hpage : x.fits after selected = true := by
      rcases Paging.fill_fits (x.fits after) [] (rest.take limit) with hnil | hpage
      · exact absurd (hfill.symm.trans hnil) hselected
      · rwa [hfill] at hpage
    by_cases hdone : rest' = []
    · simp only [hdone, decide_true, if_true]
      exact Export.page_complete hpage
    · have hle := of_decide_eq_true hpage
      simp only [hdone, decide_false, if_false]
      omega
  unfold Export.answer
  simp only [hremaining, hfill, hrefused, hcomplete, hif, require, hlength, decide_true, if_true,
    bind, Except.bind, Bool.false_eq_true, if_false]

/-- A record that does not fit on a page of its own ends the checkpoint there. -/
theorem Export.answer_unfit {after limit : ℕ} {e : Json} {rest : List Json}
    (hremaining : x.remaining after = e :: rest) (hlimit : 1 ≤ limit)
    (hunfit : x.fits after [e] = false) : x.answer after limit = .error invalidAction := by
  have htake : (e :: rest).take limit = e :: rest.take (limit - 1) := by
    rw [← List.take_succ_cons, Nat.sub_add_cancel hlimit]
  have hfill : Paging.fill (x.fits after) [] ((e :: rest).take limit) = [] := by
    rw [htake, Paging.fill, List.nil_append, hunfit]
    exact if_neg Bool.false_ne_true
  unfold Export.answer
  simp [hremaining, hfill]

end

/-- What a reader takes from a page. -/
theorem page_index {l : ActionLedger} {pin total : ℕ} {heads : List Json} {x : Export}
    (h : x.descriptor = l.descriptorFields pin total heads) (after : ℕ) (records : List Json)
    (complete : Bool) (next : Json) :
    (x.page after records complete next)["ledger_position"] = .int pin ∧
      (x.page after records complete next)["total_records"] = .int total ∧
      (x.page after records complete next)["checkpoint_digest"] = .str x.digest ∧
      (x.page after records complete next)["records"] = .arr records ∧
      (x.page after records complete next)["complete"] = .bool complete ∧
      (x.page after records complete next)["next_after"] = next := by
  let fields := l.descriptorFields pin total heads ++ [("checkpoint_digest", .str x.digest),
    ("after", .int after), ("records", .arr records), ("complete", .bool complete),
    ("next_after", next)]
  have hnames : (fields.map Prod.fst).Nodup := by
    simp only [fields, ActionLedger.descriptorFields, List.map_cons, List.map_nil,
      List.cons_append, List.nil_append]
    decide
  have hindex {k : String} {v : Json} (hmem : (k, v) ∈ fields) :
      (x.page after records complete next)[k] = v := by
    rw [Export.page, h]
    exact Json.index_object hnames hmem
  refine ⟨hindex ?_, hindex ?_, hindex ?_, hindex ?_, hindex ?_, hindex ?_⟩
  all_goals simp [fields, ActionLedger.descriptorFields]

def recordsOf (page : Json) : List Json := page["records"].asArray.getD []

/-- Pages that together hold some records, of one checkpoint, the last of them marked. -/
structure Pages (x : Export) (pin : ℕ) (records pages : List Json) : Prop where
  records : pages.flatMap recordsOf = records
  digest : ∀ page ∈ pages, page["checkpoint_digest"] = .str x.digest
  position : ∀ page ∈ pages, page["ledger_position"] = .int pin
  last : ∃ init last, pages = init ++ [last] ∧ last["complete"] = .bool true ∧
    ∀ page ∈ init, page["complete"] = .bool false

/-- A page that is not the last one is followed by the rest. -/
theorem Pages.cons {x : Export} {l : ActionLedger} {pin : ℕ} {selected rest pages : List Json}
    {next : Json} {after : ℕ} {heads : List Json}
    (hdescriptor : x.descriptor = l.descriptorFields pin x.entries.length heads)
    (h : Pages x pin rest pages) :
    Pages x pin (selected ++ rest) (x.page after selected false next :: pages) := by
  obtain ⟨hposition, -, hdigest, hrecords, hcomplete, -⟩ :=
    page_index hdescriptor after selected false next
  obtain ⟨init, last, hpages, hlast, hinit⟩ := h.last
  refine ⟨?_, ?_, ?_, _ :: init, last, by rw [hpages, List.cons_append], hlast, ?_⟩
  · rw [List.flatMap_cons, h.records, recordsOf, hrecords]
    rfl
  · exact List.forall_mem_cons.mpr ⟨hdigest, h.digest⟩
  · exact List.forall_mem_cons.mpr ⟨hposition, h.position⟩
  · exact List.forall_mem_cons.mpr ⟨hcomplete, hinit⟩

theorem pages_last {x : Export} {l : ActionLedger} {pin : ℕ} {selected : List Json} {next : Json}
    {after : ℕ} {heads : List Json}
    (hdescriptor : x.descriptor = l.descriptorFields pin x.entries.length heads) :
    Pages x pin selected [x.page after selected true next] := by
  obtain ⟨hposition, -, hdigest, hrecords, hcomplete, -⟩ :=
    page_index hdescriptor after selected true next
  refine ⟨?_, by simpa using hdigest, by simpa using hposition, [], _, rfl, hcomplete, by simp⟩
  simp [recordsOf, hrecords, Json.asArray]

end PlatformAction
end Munarium

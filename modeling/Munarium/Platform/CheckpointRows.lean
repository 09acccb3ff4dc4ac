import Munarium.Platform.Checkpoint
import Munarium.Platform.LinkedRows

/-! What a checkpoint holds: the records up to its pin, each once, in the order of their
positions, whatever has joined past the pin. -/
namespace Munarium

/-- The rows a pin admits. -/
def upTo (pin : ℕ) (rows : List Claim) : List Claim := rows.filter fun c => decide (c.seq ≤ pin)

theorem records_ascending {rows : List Claim} (h : rows.Pairwise fun a b => a.seq < b.seq)
    (pin : ℕ) {p : Claim → Bool} :
    ((upTo pin rows).filter p).Pairwise fun a b => a.seq < b.seq :=
  h.sublist (List.filter_sublist.trans List.filter_sublist)

section
variable [Platform] [IdGenerator]

theorem RootVersion.slice_upTo {v : String} {s : State} (h : RootVersion v s) (pin : ℕ) :
    s.sliceFacts v { asOfSeq := some pin } = .ok (acceptedSlice (upTo pin (s.claims v))) := by
  have hadmits (c : Claim) : FactQuery.pinAdmits { asOfSeq := some pin } c.seq =
      decide (c.seq ≤ pin) := by simp [FactQuery.pinAdmits]
  have hsame : resolveSlice (s.claims v) { asOfSeq := some pin } =
      resolveSlice (upTo pin (s.claims v)) { asOfSeq := some pin } := by
    apply resolveSlice_congr
    simp only [upTo, List.filter_filter, hadmits, Bool.and_self]
  have hascending : (upTo pin (s.claims v)).Pairwise fun a b => a.seq ≤ b.seq :=
    ((h.rows.ascending v).imp Nat.le_of_lt).sublist List.filter_sublist
  have hslice : resolveSlice (upTo pin (s.claims v)) { asOfSeq := some pin } =
      acceptedSlice (upTo pin (s.claims v)) := resolveSlice_default rfl rfl rfl
    (fun c hc => (hadmits c).trans (List.mem_filter.mp hc).2) hascending
  simp only [State.sliceFacts, h.sound.root_claims h.root, bind, Except.bind, hsame, hslice]

omit [IdGenerator] in
/-- No row joins at or below a pin that the head has reached. -/
theorem Later.upTo_eq {v : String} {s t : State} (h : Later v s t) {pin head : ℕ}
    (hh : s.headOf v = .ok head) (hle : pin ≤ head) :
    upTo pin (t.claims v) = upTo pin (s.claims v) := by
  obtain ⟨more, hmore, hpast⟩ := h.rows
  rw [upTo, hmore, List.filter_append, upTo, List.append_right_eq_self, List.filter_eq_nil_iff]
  intro c hc
  have hlt := hpast head hh c hc
  rw [decide_eq_true_eq]
  omega

end

namespace PlatformAction
open PlatformRecord (MAX canonicalRecord canonicalRecord_ok)

theorem forall₂_of_mapM {α β : Type} {f : α → Result β} {xs : List α} {ys : List β}
    (h : xs.mapM f = .ok ys) : List.Forall₂ (fun x y => f x = .ok y) xs ys := by
  induction xs generalizing ys with
  | nil =>
    cases h
    exact .nil
  | cons x xs ih =>
    rw [List.mapM_cons] at h
    obtain ⟨y, hy, h⟩ := bind_eq_ok.mp h
    obtain ⟨ys', hys, h⟩ := bind_eq_ok.mp h
    cases h
    exact .cons hy (ih hys)

section
variable [SerdeJson]

/-- Where a record stands and what it says. -/
def rowKey (c : Claim) : Json × Option Json := (.int c.seq, SerdeJson.fromSlice (utf8 c.value))

def storedKey (stored : Stored) : Json × Option Json := (.int stored.seq, some stored.value)

def entryKey (entry : Json) : Json × Option Json := (entry["position"], some entry["record"])

omit [SerdeJson] in
theorem entryKey_entryOfRecord (kind : String) (stored : Stored) (receipt : Json) :
    entryKey (entryOfRecord kind stored receipt) = storedKey stored := by
  have hposition : (entryOfRecord kind stored receipt)["position"] = .int stored.seq :=
    Json.index_object (by simp) (by simp)
  have hrecord : (entryOfRecord kind stored receipt)["record"] = stored.value :=
    Json.index_object (by simp) (by simp)
  rw [entryKey, hposition, hrecord, storedKey]

theorem readRows_keys {l : ActionLedger} {records : List Claim} {rows : List (String × Stored)}
    (h : (records.mapM fun c => (l.readStored c).map fun stored => (c.subject, stored)) =
      .ok rows) : rows.map (fun r => storedKey r.2) = records.map rowKey := by
  have hforall := forall₂_of_mapM h
  clear h
  induction hforall with
  | nil => rfl
  | @cons c r records rows hrow _ ih =>
    rw [List.map_cons, List.map_cons, ih]
    congr 1
    cases hr : l.readStored c with
    | error e => simp [hr, Except.map] at hrow
    | ok stored =>
      rw [hr] at hrow
      cases hrow
      obtain ⟨hread, hseq, -⟩ := readAs_ok hr
      rw [storedKey, rowKey, hread, hseq]

/-- A snapshot holds each record once. -/
theorem snapshot_keys {l : ActionLedger} {pin : ℕ} {facts : List Claim}
    {artifacts events : List Stored} (h : l.snapshot pin facts = .ok (artifacts, events)) :
    ((artifacts ++ events).map storedKey).Perm ((facts.filter isRecord).map rowKey) := by
  obtain ⟨⟨⟩, -, h⟩ := bind_eq_ok.mp h
  obtain ⟨rows, hrows, h⟩ := bind_eq_ok.mp h
  cases h
  have hkeys : rows.map (fun r => storedKey r.2) = (facts.filter isRecord).map rowKey :=
    readRows_keys hrows
  rw [← hkeys, ← List.map_append, List.map_map]
  exact (List.filter_append_perm (fun r : String × Stored => r.1 == ARTIFACTS) rows).map
    (storedKey ∘ Prod.snd)

/-- The place of a key in the order of positions. -/
def keyPosition (key : Json × Option Json) : WithBot ℕ := key.1.asU64

omit [SerdeJson] in
theorem zip_tail_of_pairwise {α : Type} {R : α → α → Prop} {xs : List α} (h : xs.Pairwise R) :
    ∀ pair ∈ xs.zip xs.tail, R pair.1 pair.2 := by
  induction xs with
  | nil => simp
  | cons x xs ih =>
    obtain ⟨hx, hxs⟩ := List.pairwise_cons.mp h
    cases xs with
    | nil => simp
    | cons y ys =>
      intro pair hpair
      rcases List.mem_cons.mp hpair with rfl | hpair
      · exact hx y List.mem_cons_self
      · exact ih hxs pair hpair

omit [SerdeJson] in
theorem asU64_int {n : ℕ} (h : n ≤ MAX) : (Json.int n).asU64 = some n :=
  (number_ok (number_int h)).1

theorem rowKey_position {c : Claim} (h : c.seq ≤ MAX) :
    keyPosition (rowKey c) = (c.seq : WithBot ℕ) := by
  show (Json.int c.seq).asU64 = _
  rw [asU64_int h]
  rfl

/-- Records in the order of their positions are their keys in order. -/
theorem rowKeys_ascending {records : List Claim}
    (hascending : records.Pairwise fun a b => a.seq < b.seq) (hmax : ∀ c ∈ records, c.seq ≤ MAX) :
    (records.map rowKey).Pairwise fun a b => keyPosition a < keyPosition b := by
  rw [List.pairwise_map]
  refine hascending.imp_of_mem fun {a b} ha hb hlt => ?_
  rw [rowKey_position (hmax a ha), rowKey_position (hmax b hb)]
  exact_mod_cast hlt

/-- Sorted by position, the entries of the records stand as the records do. -/
theorem sorted_keys {unsorted : List Json} {records : List Claim}
    (hascending : records.Pairwise fun a b => a.seq < b.seq) (hmax : ∀ c ∈ records, c.seq ≤ MAX)
    (hkeys : (unsorted.map entryKey).Perm (records.map rowKey)) :
    (StableSort.sortByKey positionKey unsorted).map entryKey = records.map rowKey := by
  have hstrict := rowKeys_ascending hascending hmax
  have hnodup : ((unsorted.map entryKey).map keyPosition).Nodup := by
    rw [(hkeys.map keyPosition).nodup_iff]
    exact List.pairwise_map.mpr (hstrict.imp ne_of_lt)
  have hsorted := StableSort.map_sortBy (fun a b => compare (keyPosition a) (keyPosition b))
    entryKey unsorted
  have hperm := (StableSort.keyedBy_compare keyPosition).sortBy_eq_of_perm hkeys hnodup
  have hdone : StableSort.sortBy (fun a b => compare (keyPosition a) (keyPosition b))
      (records.map rowKey) = records.map rowKey := by
    apply List.Pairwise.insertionSort_eq
    refine hstrict.imp fun {a b} hlt => ?_
    exact (StableSort.keyedBy_compare keyPosition a b).mpr hlt.le
  exact hsorted.trans (hperm.trans hdone)

section Entries
variable [Sha256] [ActionSchema]

theorem digest_of_valid {v : Json} (h : validateActionRecord v = .ok ()) (domain : String) :
    ∃ digest, actionDigest domain v = .ok digest := by
  obtain ⟨value, hcanonical, -⟩ := bind_eq_ok.mp h
  unfold actionDigest PlatformRecord.recordDigest
  simp only [hcanonical, bind, Except.bind]
  exact ⟨_, rfl⟩

theorem exists_artifactEntry {stored : Stored} (h : validateActionRecord stored.value = .ok ()) :
    ∃ entry, artifactEntry stored = .ok entry := by
  have hvalid := h
  obtain ⟨value, -, h⟩ := bind_eq_ok.mp h
  obtain ⟨⟨⟩, -, h⟩ := bind_eq_ok.mp h
  obtain ⟨kind, hkind, -⟩ := bind_eq_ok.mp h
  obtain ⟨digest, hdigest⟩ := digest_of_valid hvalid kind
  unfold artifactEntry
  simp only [hvalid, hkind, hdigest, bind, Except.bind]
  exact ⟨_, rfl⟩

theorem artifactEntry_key {stored : Stored} {entry : Json} (h : artifactEntry stored = .ok entry) :
    entryKey entry = storedKey stored := by
  obtain ⟨⟨⟩, -, h⟩ := bind_eq_ok.mp h
  obtain ⟨kind, -, h⟩ := bind_eq_ok.mp h
  obtain ⟨digest, -, h⟩ := bind_eq_ok.mp h
  cases h
  exact entryKey_entryOfRecord _ _ _

theorem artifactEntries_keys {artifacts : List Stored} {archived : List Json}
    (h : artifacts.mapM artifactEntry = .ok archived) :
    archived.map entryKey = artifacts.map storedKey := by
  have hforall := forall₂_of_mapM h
  clear h
  induction hforall with
  | nil => rfl
  | cons hentry _ ih => rw [List.map_cons, List.map_cons, ih, artifactEntry_key hentry]

/-- What an event's place among the source heads is read from. -/
structure Headed (event : Json) : Prop where
  valid : validateActionRecord event = .ok ()
  id : ∃ id, text event["stream"]["id"] = .ok id
  generation : ∃ n, number event["source_generation"] = .ok n
  sequence : ∃ n, number event["sequence"] = .ok n

theorem exists_exportEvent {l : ActionLedger} {stored : Stored} (h : Headed stored.value)
    (acc : SourceHeads × List Json) : ∃ acc', l.exportEvent acc stored = .ok acc' := by
  obtain ⟨id, hid⟩ := h.id
  obtain ⟨generation, hgeneration⟩ := h.generation
  obtain ⟨sequence, hsequence⟩ := h.sequence
  obtain ⟨digest, hdigest⟩ := digest_of_valid h.valid "accountability-event"
  have hheads : ∃ heads, addHead acc.1 stored.value = .ok heads := by
    unfold addHead sourceHead eventDigest
    simp only [hid, hgeneration, hsequence, hdigest, bind, Except.bind]
    split
    · exact ⟨_, rfl⟩
    · exact ⟨_, rfl⟩
  obtain ⟨heads, hheads⟩ := hheads
  unfold ActionLedger.exportEvent ActionLedger.acknowledgement eventDigest
  simp only [h.valid, hheads, hdigest, bind, Except.bind]
  exact ⟨_, rfl⟩

theorem exportEvent_entry {l : ActionLedger} {stored : Stored} {acc acc' : SourceHeads × List Json}
    (h : l.exportEvent acc stored = .ok acc') :
    acc'.2.map entryKey = acc.2.map entryKey ++ [storedKey stored] := by
  obtain ⟨⟨⟩, -, h⟩ := bind_eq_ok.mp h
  obtain ⟨heads, -, h⟩ := bind_eq_ok.mp h
  obtain ⟨receipt, -, h⟩ := bind_eq_ok.mp h
  cases h
  rw [List.map_append, List.map_singleton, entryKey_entryOfRecord]

theorem exists_exportEvents {l : ActionLedger} {events : List Stored}
    (h : ∀ e ∈ events, Headed e.value) (acc : SourceHeads × List Json) :
    ∃ acc', events.foldlM l.exportEvent acc = .ok acc' := by
  induction events generalizing acc with
  | nil => exact ⟨acc, rfl⟩
  | cons e rest ih =>
    obtain ⟨acc', hacc⟩ := exists_exportEvent (l := l) (h e List.mem_cons_self) acc
    obtain ⟨acc'', hrest⟩ := ih (fun e' he' => h e' (List.mem_cons_of_mem _ he')) acc'
    refine ⟨acc'', ?_⟩
    rw [List.foldlM_cons, hacc]
    exact hrest

theorem exportEvents_entries {l : ActionLedger} {events : List Stored}
    {acc acc' : SourceHeads × List Json} (h : events.foldlM l.exportEvent acc = .ok acc') :
    acc'.2.map entryKey = acc.2.map entryKey ++ events.map storedKey := by
  induction events generalizing acc with
  | nil =>
    cases h
    simp
  | cons e rest ih =>
    rw [List.foldlM_cons] at h
    obtain ⟨next, hnext, h⟩ := bind_eq_ok.mp h
    rw [ih h, exportEvent_entry hnext, List.map_cons, List.append_assoc, List.singleton_append]

/-- The entries of a checkpoint are the records of its facts, in the order of positions. -/
theorem exportOf_entries {l : ActionLedger} {pin : ℕ} {artifacts events : List Stored}
    {x : Export} {records : List Claim} (h : l.exportOf pin artifacts events = .ok x)
    (hkeys : ((artifacts ++ events).map storedKey).Perm (records.map rowKey))
    (hascending : records.Pairwise fun a b => a.seq < b.seq)
    (hmax : ∀ c ∈ records, c.seq ≤ MAX) : x.entries.map entryKey = records.map rowKey := by
  obtain ⟨archived, harchived, h⟩ := bind_eq_ok.mp h
  obtain ⟨⟨heads, recorded⟩, hrecorded, h⟩ := bind_eq_ok.mp h
  obtain ⟨⟨⟩, -, h⟩ := bind_eq_ok.mp h
  cases h
  apply sorted_keys hascending hmax
  rw [List.map_append, exportEvents_entries hrecorded, artifactEntries_keys harchived,
    List.map_nil, List.nil_append, ← List.map_append]
  exact hkeys

/-- A checkpoint of valid records is put together. -/
theorem exists_exportOf {l : ActionLedger} {pin : ℕ} {artifacts events : List Stored}
    {records : List Claim} (hartifacts : ∀ a ∈ artifacts, validateActionRecord a.value = .ok ())
    (hevents : ∀ e ∈ events, Headed e.value)
    (hkeys : ((artifacts ++ events).map storedKey).Perm (records.map rowKey))
    (hascending : records.Pairwise fun a b => a.seq < b.seq)
    (hmax : ∀ c ∈ records, c.seq ≤ MAX) : ∃ x, l.exportOf pin artifacts events = .ok x := by
  obtain ⟨archived, harchived⟩ :=
    exists_mapM_ok (f := artifactEntry) fun a ha => exists_artifactEntry (hartifacts a ha)
  obtain ⟨⟨heads, recorded⟩, hrecorded⟩ :=
    exists_exportEvents (l := l) hevents (SortedMap.empty, [])
  have hsorted : (StableSort.sortByKey positionKey (archived ++ recorded)).map entryKey =
      records.map rowKey := by
    apply sorted_keys hascending hmax
    rw [List.map_append, exportEvents_entries hrecorded, artifactEntries_keys harchived,
      List.map_nil, List.nil_append, ← List.map_append]
    exact hkeys
  have hstrict := rowKeys_ascending hascending hmax
  rw [← hsorted, List.pairwise_map] at hstrict
  have hdistinct : ((StableSort.sortByKey positionKey (archived ++ recorded)).zip
      (StableSort.sortByKey positionKey (archived ++ recorded)).tail).any
        (fun pair => pair.1["position"] == pair.2["position"]) = false := by
    rw [List.any_eq_false]
    intro pair hpair hsame
    have hlt := zip_tail_of_pairwise hstrict pair hpair
    rw [beq_iff_eq] at hsame
    have heq : keyPosition (entryKey pair.1) = keyPosition (entryKey pair.2) :=
      congrArg (fun v : Json => (v.asU64 : WithBot ℕ)) hsame
    exact absurd hlt (by simp [heq])
  unfold ActionLedger.exportOf
  simp only [harchived, hrecorded, hdistinct, require, Bool.not_false, if_true, bind, Except.bind]
  exact ⟨_, rfl⟩

omit [Sha256] [ActionSchema] in
theorem logOf_subset {rows rows' : List Claim} (h : rows' ⊆ rows) : logOf rows' ⊆ logOf rows := by
  intro e he
  obtain ⟨c, hc, hread⟩ := List.mem_filterMap.mp he
  exact List.mem_filterMap.mpr ⟨c, h hc, hread⟩

/-- A recorded event can be placed among the source heads. -/
theorem LinkedRows.headed [StreamSchema] [SerdeRoundTrip] {rows : List Claim}
    (h : LinkedRows rows) {v : Json} (hv : v ∈ eventsOf (logOf rows)) : Headed v := by
  obtain ⟨before, after, -, hok⟩ := h.orderly.ledgered.of_mem (mem_eventsOf.mp hv)
  obtain ⟨hschema, -⟩ := accountability_of_valid hok.valid hok.event
  obtain ⟨scope, id, hstream⟩ := StreamSchema.stream v hschema hok.event
  have hsequence : ∃ n, sequence v = some n := by
    have hnext := hok.next
    cases hlast : ((eventsOf before).filter fun old => streamOf old = streamOf v).getLast? with
    | none =>
      rw [hlast] at hnext
      exact ⟨1, hnext.1⟩
    | some last =>
      rw [hlast] at hnext
      obtain ⟨n, -, hn, -⟩ := hnext
      exact ⟨n + 1, hn⟩
  obtain ⟨n, hn⟩ := hsequence
  refine ⟨hok.valid, ⟨id, ?_⟩, h.generations v hv, n, number_of_valid hok.valid (asU64_eq hn)⟩
  rw [hstream, streamRef_index]
  exact text_str id

/-- At every pin that the scope reads up to, a checkpoint is put together, and it holds
exactly the records up to the pin. -/
theorem LinkedRows.exports [StreamSchema] [SerdeRoundTrip] {rows : List Claim}
    (h : LinkedRows rows) (hascending : rows.Pairwise fun a b => a.seq < b.seq)
    {l : ActionLedger} {pin : ℕ} (hlegible : Legible l.policy.scope.value (upTo pin rows))
    (hpin : pin ≤ MAX) : ∃ artifacts events x,
      l.snapshot pin (acceptedSlice (upTo pin rows)) = .ok (artifacts, events) ∧
      l.exportOf pin artifacts events = .ok x ∧
      x.entries.map entryKey = ((upTo pin rows).filter isRecord).map rowKey := by
  have hsubset : acceptedSlice (upTo pin rows) ⊆ rows := by
    intro c hc
    exact (List.mem_filter.mp (mem_acceptedSlice.mp hc).1).1
  obtain ⟨⟨artifacts, events⟩, hsnapshot⟩ := Legible.snapshot (l := l)
    (fun c hc hrecord => hlegible c (mem_acceptedSlice.mp hc).1 hrecord) hpin
  obtain ⟨hartifacts, hevents, -⟩ := snapshot_ok hsnapshot
  have hslice : (acceptedSlice (upTo pin rows)).filter isRecord =
      (upTo pin rows).filter isRecord :=
    h.orderly.slice (List.filter_subset_self rows) fun _ => reserved_of_isRecord
  have hkeys := snapshot_keys hsnapshot
  rw [hslice] at hkeys
  have hrecords : ((upTo pin rows).filter isRecord).Pairwise fun a b => a.seq < b.seq :=
    records_ascending hascending pin
  have hmax : ∀ c ∈ (upTo pin rows).filter isRecord, c.seq ≤ MAX := by
    intro c hc
    have hle := (List.mem_filter.mp (List.mem_filter.mp hc).1).2
    exact (of_decide_eq_true hle).trans hpin
  have hvalid : ∀ a ∈ artifacts, validateActionRecord a.value = .ok () := by
    intro a ha
    apply h.valid
    rw [mem_artifactsOf]
    apply logOf_subset hsubset
    rw [← mem_artifactsOf, ← hartifacts]
    exact List.mem_map_of_mem ha
  have hheaded : ∀ e ∈ events, Headed e.value := by
    intro e he
    apply h.headed
    rw [mem_eventsOf]
    apply logOf_subset hsubset
    rw [← mem_eventsOf, ← hevents]
    exact List.mem_map_of_mem he
  obtain ⟨x, hx⟩ : ∃ x, l.exportOf pin artifacts events = .ok x :=
    exists_exportOf hvalid hheaded hkeys hrecords hmax
  exact ⟨artifacts, events, x, hsnapshot, hx, exportOf_entries hx hkeys hrecords hmax⟩

end Entries

end

end PlatformAction
end Munarium

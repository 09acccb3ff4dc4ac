import Mathlib.Data.List.Sort
import Mathlib.Tactic.NormNum
import Munarium.Core.Governance

/-! What governance metadata guarantees: valid policies have a revision that ignores the
order of their bindings, and prepared metadata verifies and stays linked to its parent. -/
namespace Munarium

def ValuePolicy.WellFormed (v : ValuePolicy) : Prop :=
  goodPart v.subject = true ∧ goodPart v.key = true ∧
    ∃ c, ComparisonPolicy.fromId v.comparison = .ok c

namespace GovernancePolicy

/-- What validation establishes. -/
structure Valid (p : GovernancePolicy) : Prop where
  schema : p.schemaVersion = 1
  wellFormed : ∀ v ∈ p.values, v.WellFormed
  distinct : (p.values.map (·.bindingKey)).Nodup

/-- One binding: well formed, not seen before, and the rest valid after it. -/
theorem validateValues_cons {seen : List (String ×ₗ String)} {v : ValuePolicy}
    {rest : List ValuePolicy} : validateValues seen (v :: rest) = .ok () ↔
      v.WellFormed ∧ v.bindingKey ∉ seen ∧
        validateValues (v.bindingKey :: seen) rest = .ok () := by
  rw [validateValues, ValuePolicy.WellFormed]
  by_cases hgood : goodPart v.subject = true ∧ goodPart v.key = true
  · have hpass : (!(goodPart v.subject && goodPart v.key)) = false := by simp [hgood]
    rw [if_neg (by simp [hpass]), bind_eq_ok]
    by_cases hmem : v.bindingKey ∈ seen
    · simp [hmem, invalid]
    · simp only [List.contains_eq_mem, hmem, decide_false, Bool.false_eq_true, if_false, hgood,
        not_false_eq_true, true_and, exists_and_right]
  · have hfail : (!(goodPart v.subject && goodPart v.key)) = true := by
      rw [Bool.not_eq_true', Bool.and_eq_false_iff]
      grind
    rw [if_pos hfail]
    simp only [invalid, reduceCtorEq, false_iff]
    tauto

theorem validateValues_ok_iff (seen : List (String ×ₗ String)) (values : List ValuePolicy) :
    validateValues seen values = .ok () ↔ (∀ v ∈ values, v.WellFormed) ∧
      (values.map (·.bindingKey)).Nodup ∧ ∀ v ∈ values, v.bindingKey ∉ seen := by
  induction values generalizing seen with
  | nil => simp [validateValues]
  | cons v rest ih =>
    rw [validateValues_cons, ih, List.map_cons, List.nodup_cons, List.forall_mem_cons,
      List.forall_mem_cons]
    simp only [List.mem_map, List.mem_cons, not_or, not_exists, not_and]
    constructor
    · rintro ⟨hv, hs, hrest, hnodup, hnot⟩
      exact ⟨⟨hv, hrest⟩, ⟨fun x hx => (hnot x hx).1, hnodup⟩, hs, fun x hx => (hnot x hx).2⟩
    · rintro ⟨⟨hv, hrest⟩, ⟨hne, hnodup⟩, hs, hnot⟩
      exact ⟨hv, hs, hrest, hnodup, fun x hx => ⟨hne x hx, hnot x hx⟩⟩

theorem validate_ok_iff {p : GovernancePolicy} : p.validate = .ok () ↔ p.Valid := by
  unfold validate
  split_ifs with hs
  · simp only [invalid, reduceCtorEq, false_iff]
    exact fun h => hs h.schema
  · rw [validateValues_ok_iff]
    constructor
    · rintro ⟨hw, hd, -⟩
      exact ⟨by simpa using hs, hw, hd⟩
    · intro h
      exact ⟨h.wellFormed, h.distinct, by simp⟩

theorem valid_default : Valid {} := ⟨rfl, by simp, by simp⟩

/-- Sorting forgets the order of the bindings. -/
theorem canonical_eq_of_perm {p q : GovernancePolicy} (h : p.values.Perm q.values)
    (hs : p.schemaVersion = q.schemaVersion)
    (hd : (p.values.map (·.bindingKey)).Nodup) : p.canonical = q.canonical := by
  have hinj := List.inj_on_of_nodup_map hd
  have hperm := ((List.perm_insertionSort (fun a b : ValuePolicy => a.bindingKey ≤ b.bindingKey)
    p.values).trans h).trans (List.perm_insertionSort
      (fun a b : ValuePolicy => a.bindingKey ≤ b.bindingKey) q.values).symm
  have hsort : (p.values.insertionSort fun a b => a.bindingKey ≤ b.bindingKey) =
      q.values.insertionSort fun a b => a.bindingKey ≤ b.bindingKey := by
    have hle (l : List ValuePolicy) :=
      List.pairwise_insertionSort (fun a b : ValuePolicy => a.bindingKey ≤ b.bindingKey) l
    refine List.Perm.eq_of_pairwise (fun a b ha hb hab hba => ?_) (hle _) (hle _) hperm
    have ha' := (List.mem_insertionSort _).mp ha
    have hb' := h.mem_iff.mpr ((List.mem_insertionSort _).mp hb)
    exact hinj ha' hb' (le_antisymm hab hba)
  unfold canonical
  rw [hsort, hs]

theorem Valid.perm {p q : GovernancePolicy} (hp : p.Valid) (h : p.values.Perm q.values)
    (hs : p.schemaVersion = q.schemaVersion) : q.Valid where
  schema := hs ▸ hp.schema
  wellFormed v hv := hp.wellFormed v (h.mem_iff.mpr hv)
  distinct := ((h.map _).nodup_iff).mp hp.distinct

section
variable [Platform]

theorem revision_eq_ok {p : GovernancePolicy} {r : String} : p.revision = .ok r ↔
    p.Valid ∧ "governance-v1:" ++ Platform.sha256Hex p.canonical.toText = r := by
  unfold revision
  rw [bind_eq_ok]
  constructor
  · rintro ⟨⟨⟩, hv, hr⟩
    exact ⟨validate_ok_iff.mp hv, by simpa using hr⟩
  · rintro ⟨hv, hr⟩
    exact ⟨(), validate_ok_iff.mpr hv, by simpa using hr⟩

theorem Valid.revision {p : GovernancePolicy} (h : p.Valid) : ∃ r, p.revision = .ok r :=
  ⟨_, revision_eq_ok.mpr ⟨h, rfl⟩⟩

theorem revision_of_perm {p q : GovernancePolicy} (h : p.values.Perm q.values)
    (hs : p.schemaVersion = q.schemaVersion) {r : String} (hr : p.revision = .ok r) :
    q.revision = .ok r := by
  obtain ⟨hv, hr⟩ := revision_eq_ok.mp hr
  refine revision_eq_ok.mpr ⟨hv.perm h hs, ?_⟩
  rw [← canonical_eq_of_perm h hs hv.distinct]
  exact hr

end
end GovernancePolicy

/-! Decoding what was encoded. -/

theorem mapM_get_eq_some (j : Json) (fields : List (String × Json))
    (h : ∀ f ∈ fields, j.get f.1 = some f.2) :
    (fields.map Prod.fst).mapM (fun n => j.get n) = some (fields.map Prod.snd) := by
  induction fields with
  | nil => rfl
  | cons f rest ih =>
    have hrest := ih fun g hg => h g (List.mem_cons_of_mem _ hg)
    simp [h f List.mem_cons_self, hrest]

/-- A struct written field by field decodes to its field values. -/
theorem decodeStruct_object (fields : List (String × Json))
    (hd : (fields.map Prod.fst).Nodup) :
    decodeStruct (fields.map Prod.fst) (Json.object fields) = some (fields.map Prod.snd) := by
  have hnames : ((fields.foldl (fun m f => SortedMap.insertEntry f.1 f.2 m) []).all fun f =>
      (fields.map Prod.fst).contains f.1) = true := by
    rw [List.all_eq_true]
    intro e he
    rcases Json.name_of_mem_object fields [] he with hn | hn
    · simpa using hn
    · simp at hn
  have hget := mapM_get_eq_some (Json.object fields) fields
    fun f hf => Json.get_object_of_mem hd hf
  simp only [decodeStruct, Json.object, hnames, if_true]
  exact hget

theorem ValuePolicy.decode_toJson (v : ValuePolicy) : decode v.toJson = some v := by
  have hstruct := decodeStruct_object [("subject", .str v.subject),
    ("key", .str v.key), ("comparison", .str v.comparison)] (by simp)
  simp only [List.map_cons, List.map_nil] at hstruct
  simp only [decode, toJson, hstruct]

theorem mapM_decode_toJson (values : List ValuePolicy) :
    (values.map ValuePolicy.toJson).mapM ValuePolicy.decode = some values := by
  induction values with
  | nil => rfl
  | cons v rest ih => simp [ValuePolicy.decode_toJson, ih]

theorem GovernancePolicy.decode_toJson {p : GovernancePolicy} (h : p.schemaVersion = 1) :
    decode p.toJson = some p := by
  have hstruct := decodeStruct_object [("schema_version", .int p.schemaVersion),
    ("values", .arr (p.values.map ValuePolicy.toJson))] (by simp)
  simp only [List.map_cons, List.map_nil] at hstruct
  have hrange : (0 : ℤ) ≤ p.schemaVersion ∧ (p.schemaVersion : ℤ) < 2 ^ 32 := by
    rw [h]
    norm_num
  simp only [decode, toJson, hstruct, hrange, and_self, if_true, mapM_decode_toJson,
    Option.map_some, Int.toNat_natCast]

/-! Reading metadata back. -/

section
variable [Platform]
open GovernancePolicy

theorem fromMetadata_none {metadata : Option Json}
    (h : metadata.bind (·.get "governance_policy") = none) :
    fromMetadata metadata = .ok {} := by
  simp [fromMetadata, h]

theorem fromMetadata_some {metadata : Option Json} {value : Json} {p : GovernancePolicy}
    (h : metadata.bind (·.get "governance_policy") = some value) (hd : decode value = some p)
    (hv : p.Valid) : fromMetadata metadata = .ok p := by
  rw [fromMetadata, h]
  simp only [hd]
  exact bind_eq_ok.mpr ⟨(), validate_ok_iff.mpr hv, rfl⟩

theorem fromMetadata_valid {metadata : Option Json} {p : GovernancePolicy}
    (h : fromMetadata metadata = .ok p) : p.Valid := by
  unfold fromMetadata at h
  split at h
  · cases h
    exact valid_default
  · split at h
    · cases h
    · obtain ⟨⟨⟩, hv, hp⟩ := bind_eq_ok.mp h
      cases hp
      exact validate_ok_iff.mp hv

theorem fromStoredMetadata_none {metadata : Option Json}
    (h : metadata.bind (·.get "governance_policy") = none) :
    fromStoredMetadata metadata = .ok {} := by
  simp [fromStoredMetadata, fromMetadata_none h, h, bind, Except.bind]

theorem fromStoredMetadata_valid {metadata : Option Json} {p : GovernancePolicy}
    (h : fromStoredMetadata metadata = .ok p) : p.Valid := by
  obtain ⟨q, hq, h⟩ := bind_eq_ok.mp h
  have hv := fromMetadata_valid hq
  split_ifs at h
  · obtain ⟨r, -, h⟩ := bind_eq_ok.mp h
    split_ifs at h
    · cases h
      exact hv
    · cases h
  · cases h
    exact hv

/-- Metadata that carries a valid policy with its own revision verifies. -/
theorem fromStoredMetadata_governed {j : Json} {p : GovernancePolicy} {r : String}
    (hr : p.revision = .ok r) (hp : j.get "governance_policy" = some p.toJson)
    (hj : j.get "governance_revision" = some (.str r)) :
    fromStoredMetadata (some j) = .ok p := by
  have hv := (revision_eq_ok.mp hr).1
  have hfrom : fromMetadata (some j) = .ok p :=
    fromMetadata_some hp (decode_toJson hv.schema) hv
  refine bind_eq_ok.mpr ⟨p, hfrom, ?_⟩
  rw [Option.bind_some, Option.bind_some, hp, hj, if_pos (Option.isSome_some)]
  refine bind_eq_ok.mpr ⟨r, hr, ?_⟩
  exact if_pos rfl

theorem governedMetadata_spec {metadata : Option Json} {next : GovernancePolicy}
    {assessment : Option Json} {j : Json}
    (h : governedMetadata metadata next assessment = .ok j) :
    fromStoredMetadata (some j) = .ok next ∧
      j.get "governance_transition" = metadata.bind (·.get "governance_transition") := by
  unfold governedMetadata at h
  cases ho : (metadata.getD (.obj [])).asObject with
  | none => simp [ho, invalid] at h
  | some fields =>
    simp only [ho] at h
    obtain ⟨r, hr, h⟩ := bind_eq_ok.mp h
    have hlookup (k : String) : fields.lookup k = metadata.bind (·.get k) := by
      cases metadata with
      | none =>
        cases ho
        rfl
      | some m =>
        cases m with
        | obj f =>
          cases ho
          rfl
        | _ => simp [Json.asObject] at ho
    cases assessment with
    | none =>
      cases h
      refine ⟨fromStoredMetadata_governed hr ?_ ?_, ?_⟩
      · rw [Json.get_obj, SortedMap.lookup_insertEntry_of_ne (by decide),
          SortedMap.lookup_insertEntry_self]
      · rw [Json.get_obj, SortedMap.lookup_insertEntry_self]
      · rw [Json.get_obj, SortedMap.lookup_insertEntry_of_ne (by decide),
          SortedMap.lookup_insertEntry_of_ne (by decide), hlookup]
    | some a =>
      cases h
      refine ⟨fromStoredMetadata_governed hr ?_ ?_, ?_⟩
      · rw [Json.get_obj, SortedMap.lookup_insertEntry_of_ne (by decide),
          SortedMap.lookup_insertEntry_of_ne (by decide), SortedMap.lookup_insertEntry_self]
      · rw [Json.get_obj, SortedMap.lookup_insertEntry_of_ne (by decide),
          SortedMap.lookup_insertEntry_self]
      · rw [Json.get_obj, SortedMap.lookup_insertEntry_of_ne (by decide),
          SortedMap.lookup_insertEntry_of_ne (by decide),
          SortedMap.lookup_insertEntry_of_ne (by decide), hlookup]

variable [Unicode]

/-- The metadata carries a transition away from `old`, made at the parent head `head`. -/
def TransitionsFrom (metadata : Option Json) (old : GovernancePolicy) (head : ℕ) : Prop :=
  ∃ j t, metadata.bind (·.get "governance_transition") = some j ∧
    Transition.decode j = some t ∧ old.revision = .ok t.fromRevision ∧ t.expectedHead = head

theorem assessTransition_spec {transition : Option Json} {old next : GovernancePolicy}
    {snapshot : MeshSnapshot} {j : Json}
    (h : assessTransition transition old next snapshot = .ok j) :
    ∃ d t, transition = some d ∧ Transition.decode d = some t ∧
      old.revision = .ok t.fromRevision ∧ snapshot.asOfSeq = some t.expectedHead := by
  unfold assessTransition at h
  split at h
  · cases h
  · rename_i d
    split at h
    · cases h
    · rename_i t ht
      obtain ⟨r, hr, h⟩ := bind_eq_ok.mp h
      split_ifs at h with hrev
      · cases h
      · split at h
        · cases h
        · rename_i actual hactual
          split_ifs at h with hhead
          · have hrevision : t.fromRevision = r := by tauto
            have hexpected : t.expectedHead = actual := by simpa using hhead
            exact ⟨d, t, rfl, ht, hrevision ▸ hr, hexpected ▸ hactual⟩

theorem assessChange_spec {transition : Option Json} {old next : GovernancePolicy}
    {changed : Bool} {snapshot : MeshSnapshot} {assessment : Option Json}
    (h : assessChange transition old next changed (some snapshot) = .ok assessment)
    (hc : changed = true) :
    ∃ d t, transition = some d ∧ Transition.decode d = some t ∧
      old.revision = .ok t.fromRevision ∧ snapshot.asOfSeq = some t.expectedHead := by
  simp only [assessChange, hc, if_true] at h
  cases ha : assessTransition transition old next snapshot with
  | error e => simp [ha, Except.map] at h
  | ok j => exact assessTransition_spec ha

/-- Prepared metadata verifies. Its policy has the parent's revision unless the metadata
transitions from it at the parent's head. -/
theorem prepareVersionMetadata_spec {metadata parentMetadata prepared : Option Json}
    {parent : Option MeshSnapshot}
    (h : prepareVersionMetadata metadata parentMetadata parent = .ok prepared) :
    ∃ old next, fromStoredMetadata parentMetadata = .ok old ∧
      fromStoredMetadata prepared = .ok next ∧
      ∀ snapshot, parent = some snapshot → old.revision = next.revision ∨
        ∃ head, snapshot.asOfSeq = some head ∧ TransitionsFrom prepared old head := by
  unfold prepareVersionMetadata at h
  split_ifs at h with howned
  · cases h
  obtain ⟨old, hold, h⟩ := bind_eq_ok.mp h
  obtain ⟨next, hnext, h⟩ := bind_eq_ok.mp h
  obtain ⟨oldRevision, hor, h⟩ := bind_eq_ok.mp h
  obtain ⟨nextRevision, hnr, h⟩ := bind_eq_ok.mp h
  dsimp only at h
  split_ifs at h with htransition hplain
  · cases h
  · -- nothing governed: no policy before and none now
    obtain ⟨assessment, -, h⟩ := bind_eq_ok.mp h
    cases h
    simp only [Bool.and_eq_true, Bool.not_eq_true', Option.isSome_eq_false_iff,
      Option.isNone_iff_eq_none] at hplain
    obtain ⟨⟨hexplicit, hinherited⟩, hnone⟩ := hplain
    have hdefault := fromStoredMetadata_none hinherited
    rw [hold] at hdefault
    cases hdefault
    exact ⟨{}, {}, hold, fromStoredMetadata_none hexplicit, fun snapshot _ => .inl rfl⟩
  · obtain ⟨assessment, hassess, h⟩ := bind_eq_ok.mp h
    cases hg : governedMetadata metadata next assessment with
    | error e => simp [hg, Except.map] at h
    | ok j =>
      rw [hg] at h
      cases h
      obtain ⟨hstored, hkept⟩ := governedMetadata_spec hg
      refine ⟨old, next, hold, hstored, ?_⟩
      rintro snapshot rfl
      by_cases heq : oldRevision = nextRevision
      · exact .inl (by rw [hor, hnr, heq])
      · obtain ⟨d, t, hd, ht, hrev, hhead⟩ := assessChange_spec hassess (by simpa using heq)
        exact .inr ⟨t.expectedHead, hhead, d, t, hkept.trans hd, ht, hrev, rfl⟩

end
end Munarium

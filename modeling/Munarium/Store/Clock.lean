import Munarium.Store.Run

/-! The lineage and the clock. Reachable states are sound: every version has a verified
path to a root, which no later step changes, and the head of a version never falls. -/
namespace Munarium

theorem State.mem_stamps {s : State} {v : String} {x : ℕ} : x ∈ s.stamps v ↔
    (∃ c ∈ s.claims v, c.seq = x) ∨ (∃ a ∈ s.anchors v, a.seq = x) ∨
      (∃ p ∈ s.promises v, p.seq = x ∨ p.fulfilledSeq.getD 0 = x) ∨
      ∃ r ∈ s.counters v, r.seq = x := by
  simp only [State.stamps, List.mem_append, List.mem_map, List.mem_flatMap, List.mem_cons,
    List.not_mem_nil, or_false, or_assoc, eq_comm (a := x)]

theorem exists_mem_fulfillFirst (key : String) {seq : ℕ} {ps : List Promise} {p : Promise}
    (hp : p ∈ ps) (hle : p.fulfilledSeq.getD 0 ≤ seq) :
    ∃ p' ∈ State.fulfillFirst key seq ps, p'.seq = p.seq ∧
      p.fulfilledSeq.getD 0 ≤ p'.fulfilledSeq.getD 0 := by
  induction ps with
  | nil => simp at hp
  | cons q rest ih =>
    unfold State.fulfillFirst
    rcases List.mem_cons.mp hp with rfl | hp
    · split_ifs
      · exact ⟨_, List.mem_cons_self, rfl, hle⟩
      · exact ⟨p, List.mem_cons_self, rfl, le_rfl⟩
    · split_ifs
      · exact ⟨p, List.mem_cons_of_mem _ hp, rfl, le_rfl⟩
      · obtain ⟨p', hp', h⟩ := ih hp
        exact ⟨p', List.mem_cons_of_mem _ hp', h⟩

theorem exists_mem_recordRow (key scopePath : String) (count : ℕ) (budget : Option ℕ)
    {seq : ℕ} {rows : List CounterRow} {r : CounterRow} (hr : r ∈ rows) (hle : r.seq ≤ seq) :
    ∃ r' ∈ State.recordRow key scopePath count budget seq rows, r.seq ≤ r'.seq := by
  induction rows with
  | nil => simp at hr
  | cons q rest ih =>
    unfold State.recordRow
    rcases List.mem_cons.mp hr with rfl | hr
    · split_ifs
      · exact ⟨_, List.mem_cons_self, hle⟩
      · exact ⟨r, List.mem_cons_self, le_rfl⟩
    · split_ifs
      · exact ⟨r, List.mem_cons_of_mem _ hr, le_rfl⟩
      · obtain ⟨r', hr', h⟩ := ih hr
        exact ⟨r', List.mem_cons_of_mem _ hr', h⟩

theorem mem_update_append {α : Type} {f : String → List α} {v w : String} {rows : List α}
    {a : α} (h : a ∈ f w) : a ∈ Function.update f v (f v ++ rows) w := by
  by_cases hw : w = v
  · subst hw
    rw [Function.update_self]
    exact List.mem_append_left _ h
  · rwa [Function.update_of_ne hw]

theorem foldl_max_le_iff (l : List ℕ) (a b : ℕ) :
    l.foldl max a ≤ b ↔ a ≤ b ∧ ∀ x ∈ l, x ≤ b := by
  induction l generalizing a with
  | nil => simp
  | cons x rest ih => rw [List.foldl_cons, ih, max_le_iff, List.forall_mem_cons, and_assoc]

section
variable [Platform]

theorem State.verifyMetadata_ok_iff {s : State} {v : String} :
    s.verifyMetadata v = .ok () ↔
      ∃ p, GovernancePolicy.fromStoredMetadata (s.versionMeta v) = .ok p := by
  unfold State.verifyMetadata
  rw [bind_eq_ok]
  simp

theorem State.chain_of_lineageOf {s : State} {v : String} {lineage : List String}
    (h : s.lineageOf v = .ok lineage) : Forest.Chain s.versions v lineage.reverse := by
  unfold State.lineageOf at h
  cases hw : Forest.walk s.versions s.verifyMetadata State.unknownVersion
      (.storage "lineage does not end") (s.issued + 1) v with
  | error e => simp [hw, Except.map] at h
  | ok path =>
    simp only [hw, Except.map] at h
    cases h
    rw [List.reverse_reverse]
    exact Forest.chain_of_walk hw

theorem State.lineage_known {s : State} {v : String} {lineage : List String}
    (h : s.lineageOf v = .ok lineage) {w : String} (hw : w ∈ lineage) : s.versions w ≠ none :=
  (State.chain_of_lineageOf h).known w (List.mem_reverse.mpr hw)

theorem State.self_mem_lineage {s : State} {v : String} {lineage : List String}
    (h : s.lineageOf v = .ok lineage) : v ∈ lineage :=
  List.mem_reverse.mp (State.chain_of_lineageOf h).self_mem

theorem snapshotOfParent_known {s : State} {assess : Bool} {p : String}
    {snapshot : Option MeshSnapshot}
    (h : s.snapshotOfParent assess (some p) = .ok snapshot) : s.versions p ≠ none := by
  unfold State.snapshotOfParent at h
  intro hp
  simp [hp] at h

theorem State.headOf_eq_ok {s : State} {v : String} {head : ℕ} : s.headOf v = .ok head ↔
    ∃ lineage, s.lineageOf v = .ok lineage ∧
      (lineage.flatMap s.stamps).foldl max 0 = head := by
  unfold State.headOf
  rw [bind_eq_ok]
  simp

theorem State.head_le_iff {s : State} {v : String} {head : ℕ} {lineage : List String}
    (hh : s.headOf v = .ok head) (hl : s.lineageOf v = .ok lineage) {b : ℕ} :
    head ≤ b ↔ ∀ w ∈ lineage, ∀ x ∈ s.stamps w, x ≤ b := by
  obtain ⟨lineage', hl', rfl⟩ := State.headOf_eq_ok.mp hh
  rw [hl] at hl'
  cases hl'
  rw [foldl_max_le_iff]
  simp only [zero_le, true_and, List.mem_flatMap]
  constructor
  · intro h w hw x hx
    exact h x ⟨w, hw, hx⟩
  · rintro h x ⟨w, hw, hx⟩
    exact h w hw x hx

/-- No row of the lineage is stamped after the head. -/
theorem State.le_head {s : State} {v w : String} {head x : ℕ} {lineage : List String}
    (hh : s.headOf v = .ok head) (hl : s.lineageOf v = .ok lineage) (hw : w ∈ lineage)
    (hx : x ∈ s.stamps w) : x ≤ head := (State.head_le_iff hh hl).mp le_rfl w hw x hx

theorem State.exists_head {s : State} {v : String} {lineage : List String}
    (hl : s.lineageOf v = .ok lineage) : ∃ head, s.headOf v = .ok head :=
  ⟨_, State.headOf_eq_ok.mpr ⟨lineage, hl, rfl⟩⟩

theorem State.lineage_of_head {s : State} {v : String} {head : ℕ}
    (hh : s.headOf v = .ok head) : ∃ lineage, s.lineageOf v = .ok lineage := by
  obtain ⟨lineage, hl, -⟩ := State.headOf_eq_ok.mp hh
  exact ⟨lineage, hl⟩

end

section
variable [Platform] [IdGenerator]

/-- What every reachable state keeps about its versions. -/
structure Sound (s : State) : Prop where
  ranked : ∃ rank, Forest.Ranked s.versions rank s.issued
  verified : ∀ v, s.versions v ≠ none → s.verifyMetadata v = .ok ()
  drawn : ∀ v, s.versions v ≠ none → ∃ i < s.issued, v = "memv-" ++ IdGenerator.next i

omit [Platform] in
theorem versionId_injective {i j : ℕ}
    (h : "memv-" ++ IdGenerator.next i = "memv-" ++ IdGenerator.next j) : i = j :=
  IdGenerator.unique (String.append_right_inj _ |>.mp h)

/-- The identity drawn next names no version. -/
theorem Sound.fresh {s : State} (h : Sound s) :
    s.versions ("memv-" ++ IdGenerator.next s.issued) = none := by
  by_contra hv
  obtain ⟨i, hi, he⟩ := h.drawn _ hv
  have := versionId_injective he
  omega

/-- In a sound state every known version has a lineage, and it is its path. -/
theorem Sound.lineageOf_eq {s : State} (h : Sound s) {v : String} {path : List String}
    (hc : Forest.Chain s.versions v path) : s.lineageOf v = .ok path.reverse := by
  obtain ⟨rank, hr⟩ := h.ranked
  have hv : s.versions v ≠ none := hc.known v hc.self_mem
  obtain ⟨path', hc', hlen⟩ := hr.exists_chain hv
  rw [← hc.unique hc'] at hlen
  have hbound := hr.bounded v hv
  have hchecks : ∀ w ∈ path, s.verifyMetadata w = .ok () :=
    fun w hw => h.verified w (hc.known w hw)
  unfold State.lineageOf
  rw [Forest.walk_of_chain hc hchecks (by omega)]
  rfl

theorem Sound.exists_lineage {s : State} (h : Sound s) {v : String} (hv : s.versions v ≠ none) :
    ∃ lineage, s.lineageOf v = .ok lineage := by
  obtain ⟨rank, hr⟩ := h.ranked
  obtain ⟨path, hc, -⟩ := hr.exists_chain hv
  exact ⟨_, h.lineageOf_eq hc⟩

/-- The initial store has no versions. -/
theorem sound_init : Sound {} where
  ranked := ⟨fun _ => 0, ⟨by simp, by simp⟩⟩
  verified := by simp
  drawn := by simp

/-- An update that leaves versions and metadata alone, and draws no identity back. -/
theorem Sound.frame {s s' : State} (h : Sound s) (hv : s'.versions = s.versions)
    (hm : s'.versionMeta = s.versionMeta) (hi : s.issued ≤ s'.issued) : Sound s' where
  ranked := by
    obtain ⟨rank, hr⟩ := h.ranked
    refine ⟨rank, ⟨fun v p hp => hv ▸ hr.older v p (hv ▸ hp), fun v hk => ?_⟩⟩
    exact (hr.bounded v (hv ▸ hk)).trans_le hi
  verified v hk := by
    have := h.verified v (hv ▸ hk)
    rw [State.verifyMetadata_ok_iff] at this ⊢
    rwa [hm]
  drawn v hk := by
    obtain ⟨i, hi', he⟩ := h.drawn v (hv ▸ hk)
    exact ⟨i, by omega, he⟩

/-- Adding a version under a known parent with verified metadata. -/
theorem Sound.addVersion {s s' : State} {id : String} {parent : Option String}
    {prepared : Option Json} (h : Sound s) (hid : id = "memv-" ++ IdGenerator.next s.issued)
    (hp : ∀ p, parent = some p → s.versions p ≠ none)
    (hm : ∃ p, GovernancePolicy.fromStoredMetadata prepared = .ok p)
    (hv : s'.versions = Function.update s.versions id (some parent))
    (hmeta : s'.versionMeta = Function.update s.versionMeta id prepared)
    (hi : s'.issued = s.issued + 1) : Sound s' where
  ranked := by
    obtain ⟨rank, hr⟩ := h.ranked
    have hfresh : s.versions id = none := hid ▸ h.fresh
    have hne {w : String} (hw : s.versions w ≠ none) : w ≠ id := by
      rintro rfl
      exact hw hfresh
    refine ⟨Function.update rank id s.issued, ⟨fun v p hvp => ?_, fun v hk => ?_⟩⟩
    · rw [hv] at hvp ⊢
      by_cases hvid : v = id
      · subst hvid
        rw [Function.update_self] at hvp
        have hpk := hp p (by simpa using hvp)
        rw [Function.update_of_ne (hne hpk), Function.update_of_ne (hne hpk),
          Function.update_self]
        exact ⟨hpk, hr.bounded p hpk⟩
      · rw [Function.update_of_ne hvid] at hvp
        obtain ⟨hpk, hlt⟩ := hr.older v p hvp
        rw [Function.update_of_ne (hne hpk), Function.update_of_ne (hne hpk),
          Function.update_of_ne hvid]
        exact ⟨hpk, hlt⟩
    · rw [hv] at hk
      rw [hi]
      by_cases hvid : v = id
      · subst hvid
        rw [Function.update_self]
        omega
      · rw [Function.update_of_ne hvid] at hk ⊢
        have := hr.bounded v hk
        omega
  verified v hk := by
    rw [State.verifyMetadata_ok_iff, hmeta]
    by_cases hvid : v = id
    · subst hvid
      rw [Function.update_self]
      exact hm
    · rw [hv, Function.update_of_ne hvid] at hk
      rw [Function.update_of_ne hvid]
      exact State.verifyMetadata_ok_iff.mp (h.verified v hk)
  drawn v hk := by
    rw [hi]
    by_cases hvid : v = id
    · exact ⟨s.issued, by omega, hvid.trans hid⟩
    · rw [hv, Function.update_of_ne hvid] at hk
      obtain ⟨i, hi', he⟩ := h.drawn v hk
      exact ⟨i, by omega, he⟩

end

section
variable [Unicode] [Platform] [IdGenerator]

theorem Sound.effect {s s' : State} {c : Command} (h : Sound s) (he : Effect s c s') :
    Sound s' := by
  cases he with
  | version hc hs hm =>
    refine h.addVersion rfl ?_ ?_ rfl rfl rfl
    · rintro p rfl
      exact snapshotOfParent_known hs
    · obtain ⟨old, next, -, hnext, -⟩ := prepareVersionMetadata_spec hm
      exact ⟨next, hnext⟩
  | nothing => exact h
  | claims => exact h.frame rfl rfl (Nat.le_add_right _ _)
  | anchor => exact h.frame rfl rfl (Nat.le_add_right _ _)
  | promise hc hh hp ho hf => exact h.frame rfl rfl (Nat.le_add_right _ _)
  | fulfilled hc hh hl hw => exact h.frame rfl rfl le_rfl
  | counted hc hh => exact h.frame rfl rfl le_rfl
  | found => exact h.frame rfl rfl le_rfl

/-- No step touches the parent or the metadata of a version that exists. -/
theorem Effect.version_kept {s s' : State} {c : Command} (he : Effect s c s') (h : Sound s)
    {v : String} (hv : s.versions v ≠ none) :
    s'.versions v = s.versions v ∧ s'.versionMeta v = s.versionMeta v := by
  cases he with
  | version hc hs hm =>
    have hne : v ≠ "memv-" ++ IdGenerator.next s.issued := by
      rintro rfl
      exact hv h.fresh
    exact ⟨Function.update_of_ne hne _ _, Function.update_of_ne hne _ _⟩
  | _ => exact ⟨rfl, rfl⟩

/-- A version keeps its lineage. -/
theorem Effect.lineageOf_eq {s s' : State} {c : Command} (he : Effect s c s') (h : Sound s)
    {v : String} {lineage : List String} (hl : s.lineageOf v = .ok lineage) :
    s'.lineageOf v = .ok lineage := by
  have hc := State.chain_of_lineageOf hl
  have hs' := h.effect he
  have hkeep : ∀ w ∈ lineage.reverse, s'.versions w = s.versions w := by
    intro w hw
    have hk := hc.known w hw
    cases he with
    | version hc hs hm =>
      have hne : w ≠ "memv-" ++ IdGenerator.next s.issued := by
        rintro rfl
        exact hk h.fresh
      exact Function.update_of_ne hne _ _
    | _ => rfl
  have heq := hs'.lineageOf_eq (hc.congr hkeep)
  rwa [List.reverse_reverse] at heq

theorem Sound.step {s : State} (h : Sound s) (c : Command) : Sound (c.step s) :=
  h.effect (Command.step_effect s c)

theorem Sound.run {s : State} (h : Sound s) (commands : List Command) :
    Sound (Command.run s commands) := by
  induction commands generalizing s with
  | nil => exact h
  | cons c rest ih => exact ih (h.step c)

/-- One step of the store under a condition on the state before it and the command. -/
def StepWhere (C : State → Command → Prop) (s s' : State) : Prop := ∃ c, C s c ∧ s' = c.step s

/-- A run all of whose steps meet the condition. -/
abbrev RunWhere (C : State → Command → Prop) :=
  Relation.ReflTransGen (StepWhere C)

/-- A state some run of commands reaches from the empty store. -/
def Reachable (s : State) : Prop :=
  RunWhere (fun _ _ => True) {} s

theorem Reachable.sound {s : State} (h : Reachable s) : Sound s := by
  induction h with
  | refl => exact sound_init
  | tail _ hstep ih =>
    obtain ⟨c, -, rfl⟩ := hstep
    exact ih.step c

theorem RunWhere.reachable {C : State → Command → Prop} {s s' : State} (h : Reachable s)
    (hrun : RunWhere C s s') : Reachable s' := by
  induction hrun with
  | refl => exact h
  | tail _ hstep ih =>
    obtain ⟨c, -, rfl⟩ := hstep
    exact ih.tail ⟨c, trivial, rfl⟩

theorem RunWhere.of_run (s : State) (commands : List Command) :
    RunWhere (fun _ _ => True) s (Command.run s commands) := by
  induction commands generalizing s with
  | nil => exact .refl
  | cons c rest ih => exact (ih (c.step s)).head ⟨c, trivial, rfl⟩

/-- A stamp is never taken back: a row keeps its stamp or gets a later one. -/
theorem Effect.stamps_grow {s s' : State} {c : Command} (he : Effect s c s') {w : String}
    {x : ℕ} (hx : x ∈ s.stamps w) : ∃ y ∈ s'.stamps w, x ≤ y := by
  cases he with
  | nothing => exact ⟨x, hx, le_rfl⟩
  | version hc hs hm => exact ⟨x, hx, le_rfl⟩
  | found => exact ⟨x, hx, le_rfl⟩
  | @claims v head existing batch recorded hc hh he hs hne =>
    refine ⟨x, State.mem_stamps.mpr ?_, le_rfl⟩
    rcases State.mem_stamps.mp hx with ⟨c, hc, rfl⟩ | h
    · exact .inl ⟨c, mem_update_append hc, rfl⟩
    · exact .inr h
  | @anchor v head a hc hh ha hl =>
    refine ⟨x, State.mem_stamps.mpr ?_, le_rfl⟩
    rcases State.mem_stamps.mp hx with h | ⟨a, ha, rfl⟩ | h
    · exact .inl h
    · exact .inr (.inl ⟨a, mem_update_append ha, rfl⟩)
    · exact .inr (.inr h)
  | @promise v head q hc hh hq ho hf =>
    refine ⟨x, State.mem_stamps.mpr ?_, le_rfl⟩
    rcases State.mem_stamps.mp hx with h | h | ⟨p, hp, hpx⟩ | h
    · exact .inl h
    · exact .inr (.inl h)
    · exact .inr (.inr (.inl ⟨p, mem_update_append hp, hpx⟩))
    · exact .inr (.inr (.inr h))
  | @fulfilled u w' key head lineage hc hh hl hfind =>
    by_cases hw : w = w'
    swap
    · refine ⟨x, State.mem_stamps.mpr ?_, le_rfl⟩
      simpa [Function.update_of_ne hw] using State.mem_stamps.mp hx
    subst hw
    rcases State.mem_stamps.mp hx with h | h | ⟨p, hp, hpx⟩ | h
    · exact ⟨x, State.mem_stamps.mpr (.inl h), le_rfl⟩
    · exact ⟨x, State.mem_stamps.mpr (.inr (.inl h)), le_rfl⟩
    · have hle : p.fulfilledSeq.getD 0 ≤ head + 1 := by
        have := State.le_head hh hl (List.mem_of_find?_eq_some hfind)
          (State.mem_stamps.mpr (.inr (.inr (.inl ⟨p, hp, .inr rfl⟩))))
        omega
      obtain ⟨p', hp', hseq, hful⟩ := exists_mem_fulfillFirst key hp hle
      rcases hpx with rfl | rfl
      · refine ⟨p.seq, State.mem_stamps.mpr (.inr (.inr (.inl ⟨p', ?_, .inl hseq⟩))), le_rfl⟩
        simpa using hp'
      · refine ⟨_, State.mem_stamps.mpr (.inr (.inr (.inl ⟨p', ?_, .inr rfl⟩))), hful⟩
        simpa using hp'
    · exact ⟨x, State.mem_stamps.mpr (.inr (.inr (.inr h))), le_rfl⟩
  | @counted v key scopePath count budget head hc hh =>
    by_cases hw : w = v
    swap
    · refine ⟨x, State.mem_stamps.mpr ?_, le_rfl⟩
      simpa [Function.update_of_ne hw] using State.mem_stamps.mp hx
    subst hw
    rcases State.mem_stamps.mp hx with h | h | h | ⟨r, hr, rfl⟩
    · exact ⟨x, State.mem_stamps.mpr (.inl h), le_rfl⟩
    · exact ⟨x, State.mem_stamps.mpr (.inr (.inl h)), le_rfl⟩
    · exact ⟨x, State.mem_stamps.mpr (.inr (.inr (.inl h))), le_rfl⟩
    · obtain ⟨lineage, hl⟩ := State.lineage_of_head hh
      have hle : r.seq ≤ head + 1 := by
        have := State.le_head hh hl (State.self_mem_lineage hl)
          (State.mem_stamps.mpr (.inr (.inr (.inr ⟨r, hr, rfl⟩))))
        omega
      obtain ⟨r', hr', hseq⟩ := exists_mem_recordRow key scopePath count budget hr hle
      refine ⟨r'.seq, State.mem_stamps.mpr (.inr (.inr (.inr ⟨r', ?_, rfl⟩))), hseq⟩
      simpa using hr'

/-- The head of a version never falls. -/
theorem Effect.head_mono {s s' : State} {c : Command} (he : Effect s c s') (h : Sound s)
    {v : String} {head : ℕ} (hh : s.headOf v = .ok head) :
    ∃ head', s'.headOf v = .ok head' ∧ head ≤ head' := by
  obtain ⟨lineage, hl⟩ := State.lineage_of_head hh
  have hl' := he.lineageOf_eq h hl
  obtain ⟨head', hh'⟩ := State.exists_head hl'
  refine ⟨head', hh', (State.head_le_iff hh hl).mpr fun w hw x hx => ?_⟩
  obtain ⟨y, hy, hxy⟩ := he.stamps_grow hx
  exact hxy.trans (State.le_head hh' hl' hw hy)

/-- Run rule for pinned reads: what every step keeps while the head of `v` is past the pin,
a whole run keeps. -/
theorem RunWhere.pinned {C : State → Command → Prop} {R : State → State → Prop} {v : String}
    {p : ℕ} (hrefl : ∀ s, R s s) (htrans : ∀ {s t u}, R s t → R t u → R s u)
    (hstep : ∀ {s s' c head}, Sound s → s.headOf v = .ok head → p ≤ head → C s c →
      c.exec s = .ok s' → R s s')
    {s s' : State} {head : ℕ} (h : Sound s) (hh : s.headOf v = .ok head) (hp : p ≤ head)
    (hrun : RunWhere C s s') : R s s' := by
  have hall : R s s' ∧ Sound s' ∧ ∃ head', s'.headOf v = .ok head' ∧ p ≤ head' := by
    induction hrun with
    | refl => exact ⟨hrefl s, h, head, hh, hp⟩
    | @tail t u _ hst ih =>
      obtain ⟨hR, hs, head', hh', hp'⟩ := ih
      obtain ⟨c, hc, rfl⟩ := hst
      unfold Command.step
      cases hx : c.exec t with
      | error e => exact ⟨hR, hs, head', hh', hp'⟩
      | ok t' =>
        have he := Command.exec_effect hx
        obtain ⟨head'', hh'', hle⟩ := he.head_mono hs hh'
        exact ⟨htrans hR (hstep hs hh' hp' hc hx), hs.effect he, head'', hh'', hp'.trans hle⟩
  exact hall.1

end
end Munarium

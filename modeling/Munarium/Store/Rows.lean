import Munarium.Store.Clock

/-! The rows of the claim ledger in reachable states: every row has an identity the store
drew, supersedes only what was there before it, and comes after the rows of its version.
What readers of a root version see of them is its accepted slice. -/
namespace Munarium

section
variable [IdGenerator]

/-- A batch is stamped from its first stamp on. -/
theorem stampClaims_seq {v : String} {seq n : ℕ} {batch : List NewClaim} {r : Claim}
    (hr : r ∈ State.stampClaims v seq n batch) : seq ≤ r.seq := by
  induction batch generalizing seq n with
  | nil => simp [State.stampClaims] at hr
  | cons c rest ih =>
    rcases List.mem_cons.mp hr with rfl | hr
    · exact le_rfl
    · have := ih hr
      omega

theorem getLast?_stampClaims (v : String) (head n : ℕ) {batch : List NewClaim}
    (h : batch ≠ []) : ∃ r, (State.stampClaims v (head + 1) n batch).getLast? = some r ∧
      r.seq = head + batch.length := by
  induction batch generalizing head n with
  | nil => exact absurd rfl h
  | cons c rest ih =>
    by_cases hrest : rest = []
    · subst hrest
      exact ⟨_, rfl, rfl⟩
    · obtain ⟨r, hlast, hseq⟩ := ih (head + 1) (n + 1) hrest
      refine ⟨r, ?_, ?_⟩
      · rw [State.stampClaims, List.getLast?_cons, hlast]
        rfl
      · rw [hseq, List.length_cons]
        omega

theorem exists_last_stamp (v : String) (head n : ℕ) {batch : List NewClaim} (h : batch ≠ []) :
    ∃ r ∈ State.stampClaims v (head + 1) n batch, r.seq = head + batch.length := by
  obtain ⟨r, hlast, hseq⟩ := getLast?_stampClaims v head n h
  exact ⟨r, List.mem_of_getLast? hlast, hseq⟩

/-- A stored claim carries the content and the status of a claim of its batch. -/
theorem exists_of_mem_stampClaims {v : String} {seq n : ℕ} {batch : List NewClaim} {c : Claim}
    (h : c ∈ State.stampClaims v seq n batch) :
    ∃ m ∈ batch, ∃ i j, c = State.storedClaim v i j m := by
  induction batch generalizing seq n with
  | nil => simp [State.stampClaims] at h
  | cons m rest ih =>
    rcases List.mem_cons.mp h with rfl | h
    · exact ⟨m, List.mem_cons_self, seq, n, rfl⟩
    · obtain ⟨m', hm', h⟩ := ih h
      exact ⟨m', List.mem_cons_of_mem _ hm', h⟩

/-- The identity a claim gets from a draw. -/
def claimId (n : ℕ) : String := "claim-" ++ IdGenerator.next n

theorem claimId_injective {i j : ℕ} (h : claimId i = claimId j) : i = j :=
  IdGenerator.unique (String.append_right_inj _ |>.mp h)

/-- The rows of a batch: ascending stamps and identities drawn for it. -/
theorem stampClaims_drawn {v : String} {seq n : ℕ} {batch : List NewClaim} {c : Claim}
    (h : c ∈ State.stampClaims v seq n batch) :
    ∃ i, n ≤ i ∧ i < n + batch.length ∧ c.id = claimId i := by
  induction batch generalizing seq n with
  | nil => simp [State.stampClaims] at h
  | cons m rest ih =>
    rcases List.mem_cons.mp h with rfl | h
    · exact ⟨n, le_rfl, by simp, rfl⟩
    · obtain ⟨i, hle, hlt, hid⟩ := ih h
      exact ⟨i, by omega, by rw [List.length_cons]; omega, hid⟩

theorem stampClaims_ascending (v : String) (seq n : ℕ) (batch : List NewClaim) :
    (State.stampClaims v seq n batch).Pairwise fun a b => a.seq < b.seq := by
  induction batch generalizing seq n with
  | nil => exact List.Pairwise.nil
  | cons m rest ih =>
    refine List.Pairwise.cons (fun c hc => ?_) (ih (seq + 1) (n + 1))
    have hle := stampClaims_seq hc
    show seq < c.seq
    omega

end

theorem checkSupersedes_ok {existing : List Claim} {batch : List NewClaim}
    (h : State.checkSupersedes existing batch = .ok ()) {m : NewClaim} (hm : m ∈ batch)
    {sup : String} (hs : m.supersedesId = some sup) : ∃ c ∈ existing, c.id = sup := by
  induction batch with
  | nil => simp at hm
  | cons x rest ih =>
    unfold State.checkSupersedes at h
    rcases List.mem_cons.mp hm with rfl | hm
    · simp only [hs] at h
      split_ifs at h with hmem
      simpa using hmem
    · split at h
      · split_ifs at h
        exact ih h hm
      · exact ih h hm

section
variable [Platform] [IdGenerator]

/-- What every reachable state keeps about its claim rows. -/
structure RowsSound (s : State) : Prop where
  drawn : ∀ v, ∀ c ∈ s.claims v, ∃ i < s.issued, c.id = claimId i
  supersedes : ∀ v, ∀ c ∈ s.claims v, ∀ sup, c.supersedesId = some sup →
    ∃ i < s.issued, sup = claimId i
  ascending : ∀ v, (s.claims v).Pairwise fun a b => a.seq < b.seq

omit [Platform] in
theorem rowsSound_init : RowsSound {} := ⟨by simp, by simp, by simp⟩

omit [Platform] in
theorem RowsSound.frame {s s' : State} (h : RowsSound s) (hc : s'.claims = s.claims)
    (hi : s.issued ≤ s'.issued) : RowsSound s' where
  drawn v c hm := by
    obtain ⟨i, hlt, hid⟩ := h.drawn v c (hc ▸ hm)
    exact ⟨i, hlt.trans_le hi, hid⟩
  supersedes v c hm sup hs := by
    obtain ⟨i, hlt, hid⟩ := h.supersedes v c (hc ▸ hm) sup hs
    exact ⟨i, hlt.trans_le hi, hid⟩
  ascending v := hc ▸ h.ascending v

/-- A batch stamped past the head of its version, superseding rows of its lineage. -/
theorem RowsSound.append {s s' : State} (h : RowsSound s) {v : String} {head : ℕ}
    {existing : List Claim} {batch : List NewClaim} (hh : s.headOf v = .ok head)
    (he : s.lineageClaims v = .ok existing)
    (hs : State.checkSupersedes existing batch = .ok ())
    (hc : s'.claims = Function.update s.claims v
      (s.claims v ++ State.stampClaims v (head + 1) s.issued batch))
    (hi : s'.issued = s.issued + batch.length) : RowsSound s' := by
  have hmem {w : String} {c : Claim} (hm : c ∈ s'.claims w) :
      c ∈ s.claims w ∨ c ∈ State.stampClaims v (head + 1) s.issued batch := by
    rw [hc] at hm
    by_cases hw : w = v
    · subst hw
      rwa [Function.update_self, List.mem_append] at hm
    · rw [Function.update_of_ne hw] at hm
      exact .inl hm
  refine ⟨fun w c hm => ?_, fun w c hm sup hsup => ?_, fun w => ?_⟩
  · rw [hi]
    rcases hmem hm with hold | hnew
    · obtain ⟨i, hlt, hid⟩ := h.drawn w c hold
      exact ⟨i, by omega, hid⟩
    · obtain ⟨i, -, hlt, hid⟩ := stampClaims_drawn hnew
      exact ⟨i, hlt, hid⟩
  · rw [hi]
    rcases hmem hm with hold | hnew
    · obtain ⟨i, hlt, hid⟩ := h.supersedes w c hold sup hsup
      exact ⟨i, by omega, hid⟩
    · obtain ⟨m, hbatch, i, j, rfl⟩ := exists_of_mem_stampClaims hnew
      obtain ⟨x, hx, rfl⟩ := checkSupersedes_ok hs hbatch hsup
      obtain ⟨lineage, -, hrows⟩ := bind_eq_ok.mp he
      cases hrows
      obtain ⟨u, -, hu⟩ := List.mem_flatMap.mp hx
      obtain ⟨k, hlt, hid⟩ := h.drawn u x hu
      exact ⟨k, by omega, hid⟩
  · rw [hc]
    by_cases hw : w = v
    · subst hw
      rw [Function.update_self]
      refine List.pairwise_append.mpr ⟨h.ascending w, stampClaims_ascending _ _ _ _, ?_⟩
      intro a ha b hb
      obtain ⟨lineage, hl⟩ := State.lineage_of_head hh
      have hle := State.le_head hh hl (State.self_mem_lineage hl)
        (State.mem_stamps.mpr (.inl ⟨a, ha, rfl⟩))
      have hlt := stampClaims_seq hb
      omega
    · rw [Function.update_of_ne hw]
      exact h.ascending w

variable [Unicode]

theorem RowsSound.effect {s s' : State} {c : Command} (h : RowsSound s) (he : Effect s c s') :
    RowsSound s' := by
  cases he with
  | claims hc hh he hs hne hn => exact h.append hh he hs rfl rfl
  | nothing => exact h
  | version => exact h.frame rfl (Nat.le_succ _)
  | anchor => exact h.frame rfl (Nat.le_succ _)
  | promise => exact h.frame rfl (Nat.le_succ _)
  | fulfilled => exact h.frame rfl le_rfl
  | counted => exact h.frame rfl le_rfl
  | found => exact h.frame rfl le_rfl

/-- A step that changes a version's claims stamps one past the head of that version by the
number of rows it stores. -/
theorem Effect.claims_raise {s s' : State} {c : Command} (he : Effect s c s') {w : String}
    (hne : s'.claims w ≠ s.claims w) : c.claimTarget = some w ∧ 0 < c.rowCount ∧
      ∃ head, s.headOf w = .ok head ∧ head + c.rowCount ∈ s'.stamps w := by
  cases he with
  | @claims v head existing batch recorded hc hh he hs hb hn =>
    by_cases hw : w = v
    · subst hw
      refine ⟨hc, hn ▸ List.length_pos_iff.mpr hb, head, hh, State.mem_stamps.mpr (.inl ?_)⟩
      obtain ⟨r, hr, hseq⟩ := exists_last_stamp w head s.issued hb
      refine ⟨r, ?_, hseq.trans (by rw [hn])⟩
      simp only [Function.update_self]
      exact List.mem_append_right _ hr
    · exact absurd (Function.update_of_ne hw _ _) hne
  | _ => exact absurd rfl hne

theorem Effect.anchors_raise {s s' : State} {c : Command} (he : Effect s c s') {w : String}
    (hne : s'.anchors w ≠ s.anchors w) : c.anchorTarget = some w ∧ 0 < c.rowCount ∧
      ∃ head, s.headOf w = .ok head ∧ head + c.rowCount ∈ s'.stamps w := by
  cases he with
  | @anchor v head a hc hh ha hl hn =>
    by_cases hw : w = v
    · subst hw
      refine ⟨hc, by omega, head, hh, State.mem_stamps.mpr (.inr (.inl ⟨a, ?_, by omega⟩))⟩
      simp only [Function.update_self]
      exact List.mem_append_right _ (List.mem_singleton_self a)
    · exact absurd (Function.update_of_ne hw _ _) hne
  | _ => exact absurd rfl hne

theorem Reachable.rowsSound {s : State} (h : Reachable s) : RowsSound s := by
  induction h with
  | refl => exact rowsSound_init
  | tail _ hstep ih =>
    obtain ⟨c, -, rfl⟩ := hstep
    exact ih.effect (Command.step_effect _ c)

end

section Slice

theorem supersededIds_append (rows more : List Claim) :
    supersededIds (rows ++ more) = supersededIds rows ++ supersededIds more :=
  List.filterMap_append

theorem mem_supersededIds {rows : List Claim} {id : String} :
    id ∈ supersededIds rows ↔ ∃ c ∈ rows, c.supersedesId = some id := by
  simp [supersededIds]

/-- Rows nobody supersedes join the slice where they are accepted, and the rows they
supersede leave it. -/
theorem acceptedSlice_append {rows stored : List Claim}
    (hold : ∀ c ∈ stored, c.id ∉ supersededIds rows)
    (hnew : ∀ c ∈ stored, c.id ∉ supersededIds stored) :
    acceptedSlice (rows ++ stored) =
      (acceptedSlice rows).filter (fun c => !(supersededIds stored).contains c.id) ++
        stored.filter fun c => decide (c.status = .accepted) := by
  unfold acceptedSlice
  rw [List.filter_append, supersededIds_append, List.filter_filter]
  congr 1
  · refine List.filter_congr fun c _ => ?_
    simp only [List.contains_eq_mem, List.mem_append, Bool.decide_or, Bool.not_or]
    rw [← Bool.and_assoc, Bool.and_comm]
  · refine List.filter_congr fun c hc => ?_
    have h1 := hold c hc
    have h2 := hnew c hc
    simp [h1, h2]

/-- Where nothing is superseded, accepted rows of a kind are all there to see. -/
theorem acceptedSlice_filter {rows : List Claim} {p : Claim → Bool}
    (hplain : ∀ c ∈ rows, c.supersedesId = none)
    (haccepted : ∀ c ∈ rows, p c = true → c.status = .accepted) :
    (acceptedSlice rows).filter p = rows.filter p := by
  have hnone : supersededIds rows = [] := by
    rw [supersededIds, List.filterMap_eq_nil_iff]
    exact hplain
  rw [acceptedSlice, List.filter_filter]
  apply List.filter_congr
  intro c hc
  by_cases hp : p c = true
  · simp [hp, hnone, haccepted c hc hp]
  · simp [hp]

end Slice

section
variable [Platform] [IdGenerator]

theorem Sound.root_lineage {s : State} (h : Sound s) {v : String}
    (hroot : s.versions v = some none) : s.lineageOf v = .ok [v] :=
  h.lineageOf_eq (.root hroot)

theorem Sound.root_claims {s : State} (h : Sound s) {v : String}
    (hroot : s.versions v = some none) : s.lineageClaims v = .ok (s.claims v) := by
  simp [State.lineageClaims, h.root_lineage hroot, bind, Except.bind]

/-- A root version's unlimited read, unpinned or pinned at its head, is its accepted slice. -/
theorem Sound.root_slice {s : State} (h : Sound s) (hrows : RowsSound s) {v : String}
    (hroot : s.versions v = some none) {q : FactQuery} (hs : q.statuses = [])
    (hp : q.scopePrefix = none) (hl : q.limit = none)
    (hpin : ∀ c ∈ s.claims v, q.pinAdmits c.seq = true) :
    s.sliceFacts v q = .ok (acceptedSlice (s.claims v)) := by
  have hseq : (s.claims v).Pairwise fun a b => a.seq ≤ b.seq :=
    (hrows.ascending v).imp Nat.le_of_lt
  have hslice := resolveSlice_default hs hp hl hpin hseq
  simp only [State.sliceFacts, h.root_claims hroot, bind, Except.bind, hslice]

theorem Sound.root_slice_at_head {s : State} (h : Sound s) (hrows : RowsSound s) {v : String}
    (hroot : s.versions v = some none) {head : ℕ} (hh : s.headOf v = .ok head) :
    s.sliceFacts v { asOfSeq := some head } = .ok (acceptedSlice (s.claims v)) := by
  refine h.root_slice hrows hroot rfl rfl rfl fun c hc => ?_
  have hle := State.le_head hh (h.root_lineage hroot) (List.mem_singleton_self v)
    (State.mem_stamps.mpr (.inl ⟨c, hc, rfl⟩))
  simpa [FactQuery.pinAdmits] using hle

end

end Munarium

import Munarium.Lib.RelyGuarantee
import Munarium.Store.Rows

/-! Transactions on a reserved root version: read the head, read the facts at it, judge
them, and store what the judgement says under that very head, again and again while
another writer came first. -/
namespace Munarium

section
variable [Platform] [IdGenerator]

/-- A known root version of a sound store. -/
structure RootVersion (v : String) (s : State) : Prop where
  sound : Sound s
  rows : RowsSound s
  root : s.versions v = some none

/-- How a version moves on: rows join past the head, and the head does not fall. -/
structure Later (v : String) (s t : State) : Prop where
  rows : ∃ more, t.claims v = s.claims v ++ more ∧
    ∀ head, s.headOf v = .ok head → ∀ c ∈ more, head < c.seq
  head : ∀ head, s.headOf v = .ok head → ∃ head', t.headOf v = .ok head' ∧ head ≤ head'

omit [IdGenerator] in
theorem later_refl (v : String) (s : State) : Later v s s :=
  ⟨⟨[], by simp⟩, fun head hh => ⟨head, hh, le_rfl⟩⟩

omit [IdGenerator] in
theorem Later.trans {v : String} {s t u : State} (hst : Later v s t) (htu : Later v t u) :
    Later v s u := by
  obtain ⟨more, hmore, hpast⟩ := hst.rows
  obtain ⟨more', hmore', hpast'⟩ := htu.rows
  refine ⟨⟨more ++ more', by rw [hmore', hmore, List.append_assoc], ?_⟩, ?_⟩
  · intro head hh c hc
    rcases List.mem_append.mp hc with hc | hc
    · exact hpast head hh c hc
    · obtain ⟨head', hh', hle⟩ := hst.head head hh
      exact hle.trans_lt (hpast' head' hh' c hc)
  · intro head hh
    obtain ⟨head', hh', hle⟩ := hst.head head hh
    obtain ⟨head'', hh'', hle'⟩ := htu.head head' hh'
    exact ⟨head'', hh'', hle.trans hle'⟩

omit [IdGenerator] in
/-- While the head stands still no row joins. -/
theorem Later.same_rows {v : String} {s t : State} (h : Later v s t) {head : ℕ}
    (hs : s.headOf v = .ok head) (ht : t.headOf v = .ok head) : t.claims v = s.claims v := by
  obtain ⟨more, hmore, hpast⟩ := h.rows
  rw [hmore, List.append_right_eq_self, List.eq_nil_iff_forall_not_mem]
  intro c hc
  obtain ⟨lineage, hl⟩ := State.lineage_of_head ht
  have hstamp : c.seq ∈ t.stamps v :=
    State.mem_stamps.mpr (.inl ⟨c, hmore ▸ List.mem_append_right _ hc, rfl⟩)
  have hle := State.le_head ht hl (State.self_mem_lineage hl) hstamp
  have hlt := hpast head hs c hc
  omega

theorem RootVersion.exists_head {v : String} {s : State} (h : RootVersion v s) :
    ∃ head, s.headOf v = .ok head := State.exists_head (h.sound.root_lineage h.root)

/-- What a read pinned at an earlier head sees is what was there then. -/
theorem RootVersion.slice_at_pin {v : String} {s t : State} (hs : RootVersion v s)
    (ht : RootVersion v t) (h : Later v s t) {head : ℕ} (hh : s.headOf v = .ok head) :
    t.sliceFacts v { asOfSeq := some head } = .ok (acceptedSlice (s.claims v)) := by
  rw [← hs.sound.root_slice_at_head hs.rows hs.root hh]
  obtain ⟨more, hmore, hpast⟩ := h.rows
  have hnone : (more.filter fun c => decide (c.seq ≤ head)) = [] := by
    rw [List.filter_eq_nil_iff]
    intro c hc
    have hlt := hpast head hh c hc
    simpa using hlt
  have hpinned : ((t.claims v).filter fun c =>
      FactQuery.pinAdmits { asOfSeq := some head } c.seq) =
        (s.claims v).filter fun c => FactQuery.pinAdmits { asOfSeq := some head } c.seq := by
    simp only [FactQuery.pinAdmits, hmore, List.filter_append, hnone, List.append_nil]
  simp only [State.sliceFacts, hs.sound.root_claims hs.root, ht.sound.root_claims ht.root, bind,
    Except.bind, resolveSlice_congr hpinned]

/-- Inversion of an append under an expected head. -/
theorem appendClaim_eq_ok {s t : State} {v : String} {claim : NewClaim} {head : ℕ}
    {stored : Claim} (h : s.appendClaim v claim (some head) = .ok (stored, t)) :
    s.headOf v = .ok head ∧ stored = State.storedClaim v (head + 1) s.issued claim ∧
      t.claims v = s.claims v ++ [stored] := by
  obtain ⟨head', hh, h⟩ := bind_eq_ok.mp h
  obtain ⟨⟨⟩, hcheck, h⟩ := bind_eq_ok.mp h
  obtain ⟨existing, -, h⟩ := bind_eq_ok.mp h
  obtain ⟨⟨⟩, -, h⟩ := bind_eq_ok.mp h
  have heq : head = head' := by
    by_contra hne
    simp [State.checkHead, hne] at hcheck
  subst heq
  cases h
  exact ⟨hh, rfl, Function.update_self _ _ _⟩

theorem appendClaims_eq_ok {s t : State} {v : String} {claims : List NewClaim} {head : ℕ}
    {stored : List Claim} (hne : claims ≠ [])
    (h : s.appendClaims v claims (some head) = .ok (stored, t)) :
    s.headOf v = .ok head ∧ stored = State.stampClaims v (head + 1) s.issued claims ∧
      t.claims v = s.claims v ++ stored := by
  rcases appendBatch_eq_ok h with ⟨hempty, -, -⟩ | ⟨-, head', _, _, hh, hexp, -, -, hst, ht⟩
  · exact absurd hempty hne
  · obtain rfl := hexp head rfl
    subst ht
    exact ⟨hh, hst, Function.update_self _ _ _⟩

end

/-- The claims a command stores. -/
def Command.newClaims : Command → List NewClaim
  | .appendClaim _ claim _ => [claim]
  | .appendClaims _ claims _ => claims
  | .appendEvaluatedClaims _ claims _ _ => claims
  | _ => []

section
variable [Unicode] [Platform] [IdGenerator]

theorem Effect.later {s t : State} {c : Command} (he : Effect s c t) (h : Sound s) (v : String) :
    Later v s t := by
  refine ⟨?_, fun head hh => he.head_mono h hh⟩
  cases he with
  | @claims w head existing batch recorded hc hh he hs hne hn =>
    by_cases hv : v = w
    · subst hv
      refine ⟨_, Function.update_self _ _ _, ?_⟩
      intro head' hh' c hc
      obtain rfl : head = head' := Except.ok.inj (hh.symm.trans hh')
      exact stampClaims_seq hc
    · exact ⟨[], by simp [Function.update_of_ne hv], by simp⟩
  | _ => exact ⟨[], by simp, by simp⟩

theorem RootVersion.effect {v : String} {s t : State} {c : Command} (h : RootVersion v s)
    (he : Effect s c t) : RootVersion v t := by
  have hknown : s.versions v ≠ none := by simp [h.root]
  exact ⟨h.sound.effect he, h.rows.effect he, (he.version_kept h.sound hknown).1.trans h.root⟩

/-- What an append to the version leaves of it. -/
theorem RootVersion.appendClaim {v : String} {s t : State} {claim : NewClaim} {head : ℕ}
    {stored : Claim} (h : RootVersion v s)
    (hx : s.appendClaim v claim (some head) = .ok (stored, t)) :
    RootVersion v t ∧ Later v s t := by
  have hexec : (Command.appendClaim v claim (some head)).exec s = .ok t := by
    simp only [Command.exec, hx, Except.map]
  have he := Command.exec_effect hexec
  exact ⟨h.effect he, he.later h.sound v⟩

theorem RootVersion.appendClaims {v : String} {s t : State} {claims : List NewClaim} {head : ℕ}
    {stored : List Claim} (h : RootVersion v s)
    (hx : s.appendClaims v claims (some head) = .ok (stored, t)) :
    RootVersion v t ∧ Later v s t := by
  have hexec : (Command.appendClaims v claims (some head)).exec s = .ok t := by
    simp only [Command.exec, hx, Except.map]
  have he := Command.exec_effect hexec
  exact ⟨h.effect he, he.later h.sound v⟩

/-- The rows a command leaves in a version: those before it, and its own claims if the
version is its target. -/
theorem Command.step_rows (s : State) (c : Command) (v : String) :
    (c.step s).claims v = s.claims v ∨ c.claimTarget = some v ∧ ∃ head,
      (c.step s).claims v =
        s.claims v ++ State.stampClaims v (head + 1) s.issued c.newClaims := by
  by_cases hsame : (c.step s).claims v = s.claims v
  · exact .inl hsame
  have htarget := ((Command.step_effect s c).claims_raise hsame).1
  refine .inr ⟨htarget, ?_⟩
  unfold Command.step at hsame ⊢
  cases hx : c.exec s with
  | error e => simp [hx] at hsame
  | ok t =>
    have hbatch {claims : List NewClaim} {expected : Option ℕ} {findings : List GateFinding}
        {w : String} (hw : w = v) (h : (s.appendBatch w claims expected findings).map Prod.snd =
          .ok t) : ∃ head, t.claims v =
            s.claims v ++ State.stampClaims v (head + 1) s.issued claims := by
      subst hw
      obtain ⟨out, h⟩ := map_snd_eq_ok h
      rcases appendBatch_eq_ok h with ⟨-, -, rfl⟩ | ⟨-, head, _, _, -, -, -, -, rfl, rfl⟩
      · simp [hx] at hsame
      · exact ⟨head, Function.update_self _ _ _⟩
    cases c with
    | appendClaim w claim expected =>
      obtain rfl : w = v := Option.some.inj htarget
      obtain ⟨out, h⟩ := map_snd_eq_ok hx
      obtain ⟨head, -, h⟩ := bind_eq_ok.mp h
      obtain ⟨⟨⟩, -, h⟩ := bind_eq_ok.mp h
      obtain ⟨existing, -, h⟩ := bind_eq_ok.mp h
      obtain ⟨⟨⟩, -, h⟩ := bind_eq_ok.mp h
      cases h
      exact ⟨head, Function.update_self _ _ _⟩
    | appendClaims w claims expected =>
      have hw : w = v := by
        simp only [Command.claimTarget] at htarget
        split_ifs at htarget
        exact Option.some.inj htarget
      exact hbatch hw hx
    | appendEvaluatedClaims w claims expected findings =>
      have hw : w = v := by
        simp only [Command.claimTarget] at htarget
        split_ifs at htarget
        exact Option.some.inj htarget
      exact hbatch hw hx
    | _ => cases htarget

end
end Munarium

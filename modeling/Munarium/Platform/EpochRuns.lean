import Munarium.Platform.LinkedRows

/-! Runs of the action ledger that apply activations: calls of any callers and other writers
interleave, the applied transitions form one chain, and a transition applied once is answered
with its receipt from then on. -/
namespace Munarium

namespace PlatformAction
open PlatformRecord (MAX canonicalRecord)

section
variable [SerdeJson] [Sha256] [ActionSchema] [Platform] [IdGenerator]

structure Linked (v : String) (s : State) : Prop where
  root : RootVersion v s
  rows : LinkedRows (s.claims v)
  positive : ∀ c ∈ s.claims v, 0 < c.seq

def Links (v : String) (s t : State) : Prop := Linked v s → Linked v t ∧ Later v s t

theorem relyLinked (v : String) : Rely v (Linked v) (Links v) :=
  rely_of_invariant fun _ h => h.root

/-- The enrollment stays as it was pinned. -/
theorem Pinned.later {v : String} {s t : State} {value : Json} (h : Pinned (s.claims v) value)
    (ht : Linked v t) (hlater : Later v s t) : Pinned (t.claims v) value := by
  obtain ⟨c, hc, hread⟩ := h
  obtain ⟨more, hmore, -⟩ := hlater.rows
  have hone := ht.rows.orderly.enrolled
  have hjoined : (t.claims v).filter isEnrollment = c :: more.filter isEnrollment := by
    rw [hmore, List.filter_append, hc, List.singleton_append]
  rw [hjoined, List.length_cons] at hone
  have hnone : more.filter isEnrollment = [] := List.eq_nil_of_length_eq_zero (by omega)
  exact ⟨c, by rw [hjoined, hnone], hread⟩

theorem relyPinned (v : String) (value : Json) :
    Rely v (fun s => Linked v s ∧ Pinned (s.claims v) value) (Links v) where
  refl := (relyLinked v).refl
  trans := (relyLinked v).trans
  root _ h := h.1.root
  keeps _ _ hs hst := ⟨(hst hs.1).1, hs.2.later (hst hs.1).1 (hst hs.1).2⟩
  later _ _ hs hst := (hst hs.1).2

section Steps
variable {v : String} {s t : State} {head : ℕ}

/-- A version that moves on numbers its new rows past its head. -/
theorem Linked.next (hs : Linked v s) (hroot : RootVersion v t) (hlater : Later v s t)
    (hrows : LinkedRows (t.claims v)) : Linked v t := by
  refine ⟨hroot, hrows, ?_⟩
  obtain ⟨head, hh⟩ := hs.root.exists_head
  obtain ⟨more, hmore, hpast⟩ := hlater.rows
  intro c hc
  rw [hmore] at hc
  rcases List.mem_append.mp hc with hc | hc
  · exact hs.positive c hc
  · exact (Nat.zero_le head).trans_lt (hpast head hh c hc)

theorem Linked.appendClaim [Unicode] (hs : Linked v s) {claim : NewClaim} {stored : Claim}
    (hx : s.appendClaim v claim (some head) = .ok (stored, t))
    (hrows : LinkedRows (s.claims v ++ State.stampClaims v (head + 1) s.issued [claim])) :
    Linked v t ∧ Later v s t := by
  obtain ⟨hroot, hlater⟩ := hs.root.appendClaim hx
  obtain ⟨-, rfl, hjoined⟩ := appendClaim_eq_ok hx
  exact ⟨hs.next hroot hlater (hjoined ▸ hrows), hlater⟩

/-- The other writers of the store keep the chain. -/
theorem Outside.links [Unicode] {f : State → State} (hf : Outside v f) :
    Links v s (f s) := by
  intro h
  obtain ⟨c, rfl, hc⟩ := hf
  have he := Command.step_effect s c
  have hlater := he.later h.root.sound v
  refine ⟨h.next (h.root.effect he) hlater ?_, hlater⟩
  rcases c.step_rows s v with hsame | ⟨htarget, head, hrows⟩
  · rw [hsame]
    exact h.rows
  · rw [hrows]
    exact h.rows.foreign (hc htarget)

end Steps

/-- What an activation may change of the store: it may pin the enrollment, and it may add all
of its rows. -/
def Moves (v : String) : ActionCall → State → State → Prop
  | .applyActivation policy _ t _, s, s' => s = s' ∨ PinsEnrollment v s s' ∨
      ∃ r, receipt t = .ok r ∧ Activates policy.scope.value t r (s.claims v) (s'.claims v)
  | _, _, _ => True

/-- What an activation that was answered leaves behind. -/
structure Acted (l : ActionLedger) (e : ActivationEnrollment) (t : Json)
    (proof : ActivationEvidence) (r : Json) (rows : List Claim) : Prop where
  pinned : ∃ value, l.activationEnrollment e = .ok value ∧ Pinned rows value
  prepared : ∃ digest stream, l.prepareActivation e t proof = .ok (r, digest, stream)
  applied : some (appliedRecord r) ∈ appliedOf rows
  audited : ∃ event, .event event ∈ logOf rows ∧ event.get "scope" = some l.policy.scope.value

theorem Acted.later {l : ActionLedger} {e : ActivationEnrollment} {t r : Json}
    {proof : ActivationEvidence} {v : String} {s s' : State}
    (h : Acted l e t proof r (s.claims v)) (hs : Linked v s') (hlater : Later v s s') :
    Acted l e t proof r (s'.claims v) := by
  obtain ⟨value, hvalue, hpin⟩ := h.pinned
  obtain ⟨event, hevent, hscope⟩ := h.audited
  have hpin' := hpin.later hs hlater
  obtain ⟨more, hmore, -⟩ := hlater.rows
  refine ⟨⟨value, hvalue, hpin'⟩, h.prepared, ?_, event, ?_, hscope⟩
  · rw [hmore, appliedOf_append]
    exact List.mem_append_left _ h.applied
  · rw [hmore, logOf_append]
    exact List.mem_append_left _ hevent

omit [Platform] [IdGenerator] in
theorem Activates.acted {l : ActionLedger} {e : ActivationEnrollment} {t r value : Json}
    {proof : ActivationEvidence} {digest : String} {stream : StreamRegistration}
    {rows rows' : List Claim} (h : Activates l.policy.scope.value t r rows rows')
    (hvalue : l.activationEnrollment e = .ok value) (hpin : Pinned rows' value)
    (hprepared : l.prepareActivation e t proof = .ok (r, digest, stream)) :
    Acted l e t proof r rows' := by
  obtain ⟨archive, audit, applied, event, rfl, hadds⟩ := h
  refine ⟨⟨value, hvalue, hpin⟩, ⟨digest, stream, hprepared⟩, ?_, event, hadds.entries.2,
    hadds.scope⟩
  rw [appliedOf_append, hadds.applied_rows]
  simp

def Answers (v : String) : ActionCall → Result Json → State → Prop
  | .applyActivation policy e t proof, a, s => ∀ r, a = .ok r →
      Acted { version := v, policy := policy } e t proof r (s.claims v)
  | _, _, _ => True

section Promises
variable [Unicode]

theorem archive_links (l : ActionLedger) (a : ActionAdmission) (raw : Bytes) {s : State}
    (hs : Linked l.version s) :
    (l.archive a raw).Ensures (Links l.version) (Links l.version) (fun _ _ => True) s := by
  unfold ActionLedger.archive
  cases hprepared : l.prepareArchive a raw with
  | error e => exact fun t _ => trivial
  | ok prepared =>
    obtain ⟨value, kind, digest⟩ := prepared
    apply (relyLinked _).retryAtHead (relyLinked _).refl (fun _ _ => trivial)
      (fun _ _ _ _ _ _ _ _ => trivial) _ _ _ 32 hs
    · intro t t' head claim reply stored ht hjudge hx
      exact ⟨fun _ => ht.appendClaim hx (ht.rows.archive hprepared hjudge), fun _ _ => trivial⟩
    · exact fun _ _ _ _ hjudge => absurd hjudge judgeArchive_not_appendAll
    · exact fun _ _ _ _ _ _ _ hjudge => absurd hjudge judgeArchive_not_appendAll

theorem append_links (l : ActionLedger) (a : ActionAdmission) (raw : Bytes) {s : State}
    (hs : Linked l.version s) :
    (l.append a raw).Ensures (Links l.version) (Links l.version) (fun _ _ => True) s := by
  unfold ActionLedger.append
  cases hprepared : l.prepareAppend a raw with
  | error e => exact fun t _ => trivial
  | ok prepared =>
    obtain ⟨event, digest, recovery⟩ := prepared
    apply (relyLinked _).retryAtHead (relyLinked _).refl (fun _ _ => trivial)
      (fun _ _ _ _ _ _ _ _ => trivial) _ _ _ 32 hs
    · intro t t' head claim reply stored ht hjudge hx
      exact ⟨fun _ => ht.appendClaim hx (ht.rows.event hprepared hjudge), fun _ _ => trivial⟩
    · exact fun _ _ _ _ hjudge => absurd hjudge judgeAppend_not_appendAll
    · exact fun _ _ _ _ _ _ _ hjudge => absurd hjudge judgeAppend_not_appendAll

/-- What an activation does while it pins the enrollment. -/
def Pins (v : String) (s t : State) : Prop := Links v s t ∧ (s = t ∨ PinsEnrollment v s t)

omit [Platform] [IdGenerator] [Unicode] [Sha256] [ActionSchema] in
theorem judgeEnrollment_reply {value : Json} {head : ℕ} {facts : List Claim} {a : Unit}
    (h : ActionLedger.judgeEnrollment value head facts = .ok (.reply a)) :
    ∃ c ∈ facts.filter isEnrollment, storedValue c = some value := by
  unfold ActionLedger.judgeEnrollment at h
  split at h
  · rename_i fact hfind
    obtain ⟨old, hold, h⟩ := bind_eq_ok.mp h
    split_ifs at h with hsame
    refine ⟨fact, ?_, storedValue_eq_some.mpr (by rw [hold, not_not.mp hsame])⟩
    exact List.mem_filter.mpr ⟨List.mem_of_find?_eq_some hfind, List.find?_some hfind⟩
  · obtain ⟨content, -, h⟩ := bind_eq_ok.mp h
    cases h

/-- An enrollment that is answered is pinned. -/
theorem initializeActivation_links [SerdeRoundTrip] (l : ActionLedger)
    (e : ActivationEnrollment) {s : State} (hs : Linked l.version s) :
    (l.initializeActivation e).Ensures (Links l.version) (Pins l.version)
      (fun a t => a = .ok () → ∃ value, l.activationEnrollment e = .ok value ∧
        Pinned (t.claims l.version) value) s := by
  unfold ActionLedger.initializeActivation
  cases hvalue : l.activationEnrollment e with
  | error e => exact fun t _ h => nomatch h
  | ok value =>
    have hG (s : State) : Pins l.version s s := ⟨(relyLinked _).refl s, .inl rfl⟩
    apply (relyLinked _).retryAtHead hG (fun _ _ h => nomatch h) _ _ _ _ 32 hs
    · intro t u head a ht htu hh hjudge _
      obtain ⟨hu, hlater⟩ := htu ht
      refine ⟨value, rfl, Pinned.later ?_ hu hlater⟩
      obtain ⟨c, hmem, hread⟩ := judgeEnrollment_reply hjudge
      rw [ht.rows.orderly.enrollment_slice] at hmem
      obtain ⟨d, hd⟩ := List.length_eq_one_iff.mp
        (le_antisymm ht.rows.orderly.enrolled (List.length_pos_of_mem hmem))
      rw [hd, List.mem_singleton] at hmem
      exact ⟨d, hd, hmem ▸ hread⟩
    · intro t t' head claim reply stored ht hjudge hx
      obtain ⟨hnone, content, hcontent, rfl⟩ := judgeEnrollment_append hjudge
      rw [ht.rows.orderly.enrollment_slice] at hnone
      have hnext := ht.appendClaim hx (ht.rows.enroll hnone)
      refine ⟨⟨fun _ => hnext, .inr ⟨content, head, stored, hx⟩⟩, ?_⟩
      intro u htu _
      obtain ⟨hu, hlater⟩ := htu hnext.1
      refine ⟨value, rfl, Pinned.later ⟨stored, ?_, ?_⟩ hu hlater⟩
      · obtain ⟨-, rfl, hrows⟩ := appendClaim_eq_ok hx
        rw [hrows, List.filter_append, hnone, List.nil_append, List.filter_singleton]
        rfl
      · obtain ⟨-, rfl, -⟩ := appendClaim_eq_ok hx
        exact storedValue_eq_some.mpr (encoded_canonical hcontent)
    · exact fun _ _ _ _ hjudge => absurd hjudge judgeEnrollment_not_appendAll
    · exact fun _ _ _ _ _ _ _ hjudge => absurd hjudge judgeEnrollment_not_appendAll

omit [Platform] [IdGenerator] [Unicode] in
/-- An activation that is answered at once finds its receipt in the rows. -/
theorem LinkedRows.acted {rows : List Claim} (h : LinkedRows rows) {l : ActionLedger}
    {e : ActivationEnrollment} {t r : Json} {proof : ActivationEvidence} {digest : String}
    {stream : StreamRegistration} {value : Json} (hvalue : l.activationEnrollment e = .ok value)
    (hpin : Pinned rows value)
    (hprepared : l.prepareActivation e t proof = .ok (r, digest, stream)) {head : ℕ} {a : Json}
    (hjudge : l.judgeApply e t proof r digest stream head (acceptedSlice rows) =
      .ok (.reply a)) : a = r ∧ Acted l e t proof r rows := by
  obtain ⟨start, ts, hchain⟩ := h.chained
  obtain ⟨rfl, hlegible, hmatch⟩ := judgeApply_reply hjudge
  rw [h.orderly.applied_slice] at hmatch
  obtain ⟨c, hc, old, hread, rfl, -⟩ := matchApplied_none hmatch
  have hrow : some old ∈ appliedOf rows := hread ▸ List.mem_map_of_mem hc
  have hdoc := hrow
  rw [hchain.applied] at hdoc
  obtain ⟨t', ht', hdoc⟩ := List.mem_map.mp hdoc
  obtain ⟨r, hr, rfl⟩ := appliedDoc_eq_some hdoc
  obtain ⟨event, scope, hevent, hscope, -⟩ := hchain.audited t' ht'
  have hsame := (h.orderly.legible_slice.mp hlegible).scope_eq hevent hscope
  rw [appliedRecord_receipt] at hprepared ⊢
  exact ⟨rfl, ⟨value, hvalue, hpin⟩, ⟨digest, stream, hprepared⟩, hrow, event, hevent,
    hsame ▸ hscope⟩

/-- An activation that is answered is applied, all of its rows at once. -/
theorem applyActivation_links [StreamSchema] [SerdeRoundTrip] (v : String)
    (policy : ActionPolicy) (e : ActivationEnrollment) (t : Json) (proof : ActivationEvidence)
    {s : State} (hs : Linked v s) :
    (program v (.applyActivation policy e t proof)).Ensures (Links v)
      (fun s s' => Links v s s' ∧ Moves v (.applyActivation policy e t proof) s s')
      (Answers v (.applyActivation policy e t proof)) s := by
  show (ActionLedger.applyActivation { version := v, policy := policy } e t proof).Ensures _ _ _ _
  unfold ActionLedger.applyActivation
  apply Shared.Ensures.bind (relyLinked v).refl
  have hinit := (initializeActivation_links { version := v, policy := policy } e hs).kept
    (relyLinked v).keeps (fun _ _ h => h.1) hs
  refine hinit.weaken (fun _ _ h => ⟨h.1, h.2.imp_right .inl⟩) ?_
  rintro (e | _) u ⟨hpinned, hu⟩
  · exact fun _ _ _ h => nomatch h
  obtain ⟨value, hvalue, hpin⟩ := hpinned rfl
  rw [onOk_ok]
  cases hprepared : ActionLedger.prepareActivation { version := v, policy := policy } e t proof with
  | error e => exact fun _ _ _ h => nomatch h
  | ok prepared =>
    obtain ⟨r, digest, stream⟩ := prepared
    have hG (s : State) : Links v s s ∧ Moves v (.applyActivation policy e t proof) s s :=
      ⟨(relyLinked v).refl s, .inl rfl⟩
    apply (relyPinned v value).retryAtHead hG (fun _ _ _ h => nomatch h) _ _ _ _ 32 ⟨hu, hpin⟩
    · intro u w head a ⟨hu, hpin⟩ huw hh hjudge r' ha
      cases ha
      obtain ⟨rfl, hacted⟩ := hu.rows.acted hvalue hpin hprepared hjudge
      obtain ⟨hw, hlater⟩ := huw hu
      exact hacted.later hw hlater
    · intro u u' head claim reply stored _ hjudge
      rcases judgeApply_verdict hjudge with hreply | ⟨claims, -, hbatch⟩
      · cases hreply
      · cases hbatch
    · intro head facts claims reply hjudge
      rcases judgeApply_verdict hjudge with hreply | ⟨claims', hne, hbatch⟩
      · cases hreply
      · cases hbatch
        exact hne
    · intro u u' head claims reply stored ⟨hu, hpin⟩ hjudge hx
      have hne : claims ≠ [] := by
        rcases judgeApply_verdict hjudge with hreply | ⟨claims', hne, hbatch⟩
        · cases hreply
        · cases hbatch
          exact hne
      obtain ⟨hroot, hlater⟩ := hu.root.appendClaims hx
      obtain ⟨-, rfl, hrows⟩ := appendClaims_eq_ok hne hx
      obtain ⟨rfl, hadds, hlinked⟩ :=
        hu.rows.activate (hu.root.rows.ascending v) hvalue hpin hprepared hjudge
      rw [← hrows] at hadds hlinked
      have hu' : Linked v u' := hu.next hroot hlater hlinked
      refine ⟨⟨fun _ => ⟨hu', hlater⟩, .inr (.inr ⟨r, prepareActivation_receipt hprepared,
        hadds⟩)⟩, ?_⟩
      intro w huw r' ha
      cases ha
      obtain ⟨hw, hlater'⟩ := huw hu'
      exact (hadds.acted hvalue (hpin.later hu' hlater) hprepared).later hw hlater'

theorem boundsLinked [StreamSchema] [SerdeRoundTrip] (v : String) :
    Pool.Bounds (program v) (Outside v) (Linked v) (Links v)
      (fun r s t => Links v s t ∧ Moves v r s t) (Answers v) where
  refl := (relyLinked v).refl
  trans := (relyLinked v).trans
  keeps := (relyLinked v).keeps
  start r s hs := by
    cases r with
    | archive policy a raw =>
      exact (archive_links { version := v, policy := policy } a raw hs).weaken
        (fun _ _ h => ⟨h, trivial⟩) fun _ _ h => h
    | append policy a raw =>
      exact (append_links { version := v, policy := policy } a raw hs).weaken
        (fun _ _ h => ⟨h, trivial⟩) fun _ _ h => h
    | applyActivation policy e t proof => exact applyActivation_links v policy e t proof hs
  guarantee _ _ _ _ h := h.1
  outside _ hf _ _ := hf.links

section Again
variable {v : String} {s : State} {l : ActionLedger} {e : ActivationEnrollment} {t r : Json}
  {proof : ActivationEvidence} {rows : List Claim}

omit [Platform] [IdGenerator] [Unicode] [Sha256] [ActionSchema] in
theorem judgeEnrollment_pinned {value : Json} {facts : List Claim} {c : Claim}
    (hc : facts.filter isEnrollment = [c]) (hread : storedValue c = some value) (head : ℕ) :
    ActionLedger.judgeEnrollment value head facts = .ok (.reply ()) := by
  have hfind : (facts.find? fun f => f.subject == ENROLLMENT) = some c := by
    rw [← List.head?_filter]
    exact congrArg List.head? hc
  unfold ActionLedger.judgeEnrollment
  simp only [hfind, storedValue_eq_some.mp hread, bind, Except.bind]
  rw [if_neg (not_not.mpr rfl)]

omit [Platform] [IdGenerator] [Unicode] in
/-- The receipt of an applied transition is found among the rows. -/
theorem LinkedRows.replays (h : LinkedRows rows) (hacted : Acted l e t proof r rows) :
    ActionLedger.matchApplied t r none (rows.filter isApplied) = .ok none := by
  obtain ⟨start, ts, hchain⟩ := h.chained
  obtain ⟨digest, stream, hprepared⟩ := hacted.prepared
  have htransition := (receipt_ok (prepareActivation_receipt hprepared)).1
  have happlied : (rows.filter isApplied).map storedValue = ts.map appliedDoc := hchain.applied
  have hdoc {t' : Json} (ht' : t' ∈ ts) : ∃ r', receipt t' = .ok r' ∧
      appliedDoc t' = some (appliedRecord r') := by
    obtain ⟨event, scope, -, -, hreceipt⟩ := hchain.audited t' ht'
    exact ⟨_, hreceipt, appliedDoc_of_receipt hreceipt⟩
  obtain ⟨t₁, ht₁, hrow⟩ : ∃ t₁ ∈ ts, appliedDoc t₁ = some (appliedRecord r) := by
    have hmem := hacted.applied
    rw [hchain.applied] at hmem
    exact List.mem_map.mp hmem
  have hreceipt : receipt t₁ = .ok r := by
    obtain ⟨r₁, hr₁, hdoc₁⟩ := hdoc ht₁
    have hsame := Option.some.inj (hdoc₁.symm.trans hrow)
    have hr : r₁ = r := by rw [← appliedRecord_receipt r₁, hsame, appliedRecord_receipt]
    exact hr ▸ hr₁
  have hread : ∀ c ∈ rows.filter isApplied, ∃ t' ∈ ts, storedValue c = appliedDoc t' := by
    intro c hc
    have hmem : storedValue c ∈ ts.map appliedDoc := happlied ▸ List.mem_map_of_mem hc
    obtain ⟨t', ht', hsame⟩ := List.mem_map.mp hmem
    exact ⟨t', ht', hsame.symm⟩
  apply matchApplied_replay
  · intro c hc
    obtain ⟨t', ht', hstored⟩ := hread c hc
    obtain ⟨r', hr', hdoc'⟩ := hdoc ht'
    refine ⟨appliedRecord r', hstored.trans hdoc', ?_⟩
    rw [appliedRecord_receipt, (receipt_ok hr').1]
    intro hsame
    have hone : t' = t₁ := transition_inj hchain.links t' ht' t₁ ht₁
      (by rw [hsame, ← htransition, (receipt_ok hreceipt).1])
    subst hone
    exact Except.ok.inj (hr'.symm.trans hreceipt)
  · have hmem : some (appliedRecord r) ∈ (rows.filter isApplied).map storedValue := hacted.applied
    obtain ⟨c, hc, hstored⟩ := List.mem_map.mp hmem
    exact ⟨c, hc, _, hstored, by rw [appliedRecord_receipt, htransition]⟩

omit [Platform] [IdGenerator] [Unicode] in
/-- An applied transition is answered with its receipt from the rows. -/
theorem LinkedRows.judge_replay (h : LinkedRows rows) (hacted : Acted l e t proof r rows)
    {l' : ActionLedger} {e' : ActivationEnrollment} {proof' : ActivationEvidence}
    (hscope : l'.policy.scope.value = l.policy.scope.value) {digest : String}
    {stream : StreamRegistration} {head : ℕ} (hhead : head ≤ MAX) :
    l'.judgeApply e' t proof' r digest stream head (acceptedSlice rows) = .ok (.reply r) := by
  obtain ⟨event, hevent, hnamed⟩ := hacted.audited
  have hlegible : Legible l'.policy.scope.value (acceptedSlice rows) := by
    rw [hscope]
    exact h.orderly.legible_slice.mpr (h.oneScope event _ hevent hnamed)
  obtain ⟨out, hsnapshot⟩ := hlegible.snapshot hhead
  have hmatch : ActionLedger.matchApplied t r none
      ((acceptedSlice rows).filter fun f => f.subject == APPLIED) = .ok none := by
    rw [← h.replays hacted, ← h.orderly.applied_slice]
    rfl
  unfold ActionLedger.judgeApply
  rw [hsnapshot]
  simp only [bind, Except.bind, hmatch]

omit [Platform] [IdGenerator] [Unicode] in
/-- No activation goes through at a head past the bounds. -/
theorem judgeApply_past {l : ActionLedger} {e : ActivationEnrollment} {t r : Json}
    {proof : ActivationEvidence} {digest : String} {stream : StreamRegistration} {head : ℕ}
    (hhead : ¬ head ≤ MAX) (facts : List Claim) :
    l.judgeApply e t proof r digest stream head facts = .error invalidAction := by
  simp [ActionLedger.judgeApply, ActionLedger.snapshot, require, hhead, bind, Except.bind]

omit [Unicode] in
/-- A call whose checks pass, for an applied transition and from the same enrollment, is
answered with the receipt and changes nothing. -/
theorem reapply_ensures {policy : ActionPolicy} (hs : Linked v s)
    (hacted : Acted { version := v, policy := policy } e t proof r (s.claims v))
    {policy' : ActionPolicy} {e' : ActivationEnrollment} {proof' : ActivationEvidence}
    (henrolled : ActionLedger.activationEnrollment { version := v, policy := policy' } e' =
      ActionLedger.activationEnrollment { version := v, policy := policy } e)
    (hprepared : ∃ prepared,
      ActionLedger.prepareActivation { version := v, policy := policy' } e' t proof' =
        .ok prepared) :
    (program v (.applyActivation policy' e' t proof')).Ensures (Links v) Eq
      (fun a u => ∀ head, u.headOf v = .ok head → head ≤ MAX → a = .ok r) s := by
  obtain ⟨value, hvalue, -⟩ := hacted.pinned
  obtain ⟨⟨r', digest', stream'⟩, hprepared⟩ := hprepared
  obtain rfl : r' = r := by
    obtain ⟨digest, stream, hprepared₀⟩ := hacted.prepared
    exact Except.ok.inj ((prepareActivation_receipt hprepared).symm.trans
      (prepareActivation_receipt hprepared₀))
  have hvalue' := henrolled.trans hvalue
  have hpin := activationEnrollment_ok hvalue
  have hpin' := activationEnrollment_ok hvalue'
  have hscope : policy'.scope.value = policy.scope.value := pinRecord_scope (hpin'.symm.trans hpin)
  show (ActionLedger.applyActivation { version := v, policy := policy' } e' t proof').Ensures
    _ _ _ _
  unfold ActionLedger.applyActivation ActionLedger.initializeActivation
  rw [hvalue']
  apply Shared.Ensures.bind (relyLinked v).refl
  have hinit : (retryAtHead v (.storage "activation enrollment contention")
      (ActionLedger.judgeEnrollment value) 32).Ensures (Links v) Eq
        (fun a u => a = .ok () ∧ Linked v u ∧ Later v s u) s := by
    apply (relyLinked v).retryAtHead_settled hs
    intro u w head hu hsu huw _
    obtain ⟨hw, hlater⟩ := (relyLinked v).trans _ _ _ hsu huw hs
    obtain ⟨value₀, hvalue₀, c, hc, hread⟩ := (hacted.later hu (hsu hs).2).pinned
    obtain rfl : value₀ = value := Except.ok.inj (hvalue₀.symm.trans hvalue)
    rw [← hu.rows.orderly.enrollment_slice] at hc
    exact .inl ⟨(), judgeEnrollment_pinned hc hread head, rfl, hw, hlater⟩
  apply hinit.weaken (fun _ _ h => h)
  rintro a u ⟨rfl, hu, hsu⟩
  rw [onOk_ok, hprepared, onOk_ok]
  apply (relyLinked v).retryAtHead_settled hu
  intro w x head hw huw hwx hh
  have hacted' := hacted.later hw (hsu.trans (huw hu).2)
  by_cases hhead : head ≤ MAX
  · exact .inl ⟨r', hw.rows.judge_replay hacted' hscope hhead, fun _ _ _ => rfl⟩
  · have hpast (head' : ℕ) (hh' : x.headOf v = .ok head') : ¬ head' ≤ MAX := by
      obtain ⟨head'', hh'', hmono⟩ := (hwx hw).2.head head hh
      obtain rfl : head'' = head' := Except.ok.inj (hh''.symm.trans hh')
      omega
    exact .inr ⟨invalidAction, judgeApply_past hhead _, fun head' hh' hle =>
      absurd hle (hpast head' hh')⟩

end Again

theorem linked_empty {v : String} {s : State} (h : Reachable s)
    (hroot : s.versions v = some none) (hempty : s.claims v = []) : Linked v s :=
  ⟨⟨h.sound, h.rowsSound, hroot⟩, hempty ▸ linkedRows_nil, by simp [hempty]⟩

end Promises
end

section
attribute [local instance] asciiUnicode samplePlatform unaryIds plainSha256

section
attribute [local instance] sampleSerde sampleSchema

end

def sampleParticipants : Json := .arr [.str "gate", .str "registry", .str "server", .str "warden"]

def sampleArtifactSet : Json := .object [("artifacts", .arr [])]

/-- From the pinned epoch to the next one. -/
def sampleActivation : Json := .object
  [("type", .str "activation"), ("transition", .object [("id", .str "go-live")]),
    ("artifacts", .arr []), ("prior_epoch", .int 1), ("successor_epoch", .int 2),
    ("prior_artifact_set_digest", .str sampleHash),
    ("artifact_set_digest", .str (sampleDigest "artifact-set" "set")),
    ("profile_digest", .str (sampleDigest "profile" "profile")),
    ("participants", sampleParticipants),
    ("participant_set_digest", .str (sampleDigest "participants" "participants")),
    ("not_before", .int 900), ("expires_at", .int 2000)]

def sampleReceipt (participant phase : String) : Json :=
  receiptOf sampleActivation participant phase (sampleDigest "activation" "activation")

def sampleServerReceipt : Json := sampleReceipt "server" "applied"

def sampleStream : StreamRegistration :=
  { streamId := "server", producer := "server", service := "svc-server", generation := 1,
    kinds := {"activation-applied"} }

def sampleAudit : Json :=
  ActionLedger.activationEvent { version := "memv-", policy := samplePolicy } sampleEnrollment
    sampleStream sampleServerReceipt (sampleDigest "activation" "activation")
    (sampleDigest "event-payload" "payload") 1000 0 .null

abbrev activationTexts : List (Json × String) :=
  [(samplePin, "pin"), (profileRecord, "profile"), (sampleArtifactSet, "set"),
    (.object [("participants", sampleParticipants)], "participants"),
    (sampleActivation, "activation"), (sampleReceipt "gate" "paused", "gate"),
    (sampleReceipt "registry" "applied", "registry"), (sampleServerReceipt, "server"),
    (ActionLedger.activationPayload sampleServerReceipt, "payload"), (sampleAudit, "audit"),
    (appliedRecord sampleServerReceipt, "applied")]

abbrev activationSerde : SerdeJson := tabledSerde activationTexts

abbrev activationSchema : ActionSchema where
  isValid v := [sampleActivation, sampleReceipt "gate" "paused",
    sampleReceipt "registry" "applied", sampleServerReceipt, sampleAudit].contains v

attribute [local instance] activationSerde activationSchema

def activationProof : ActivationEvidence where
  ratified := .object [("ratified", .bool true), ("transition", sampleActivation),
    ("transition_digest", .str (sampleDigest "activation" "activation"))]
  pause := sampleReceipt "gate" "paused"
  gateHead := .object [("scope", samplePolicy.scope.value), ("participant", .str "gate"),
    ("paused", .bool true), ("transition_id", .str "go-live"), ("epoch", .int 1),
    ("artifact_set_digest", .str sampleHash)]
  registryReceipt := sampleReceipt "registry" "applied"
  registryHead := .object [("scope", samplePolicy.scope.value), ("participant", .str "registry"),
    ("epoch", .int 2), ("artifact_set_digest", .str (sampleDigest "artifact-set" "set"))]
  authorityRevision := "rev-1"
  now := 1000

theorem activationRoundTrip : SerdeRoundTrip where
  read_back _ _ h _ := tabledSerde_reads (by decide) (by decide) h

theorem activationStreams : StreamSchema where
  stream v hv htype := by
    have hmem : v ∈ [sampleActivation, sampleReceipt "gate" "paused",
        sampleReceipt "registry" "applied", sampleServerReceipt, sampleAudit] := by
      simpa using List.contains_iff_mem.mp hv
    simp only [List.mem_cons, List.not_mem_nil, or_false] at hmem
    rcases hmem with rfl | rfl | rfl | rfl | rfl
    · exact absurd htype (by decide +kernel)
    · exact absurd htype (by decide +kernel)
    · exact absurd htype (by decide +kernel)
    · exact absurd htype (by decide +kernel)
    · exact ⟨samplePolicy.scope.value, "server", by decide +kernel⟩

def goLive : ActionCall :=
  .applyActivation samplePolicy sampleEnrollment sampleActivation activationProof

/-- The enrollment is pinned, and the activation applied. -/
def wentLive : Pool State ActionCall (Result Json) :=
  Pool.play (program "memv-") { state := freshLedger }
    (.start goLive :: List.replicate 6 (.advance 0))

end

end PlatformAction
end Munarium

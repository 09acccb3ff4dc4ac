import Munarium.Store.PinnedReads

/-! The pinned promise view. A fulfilment is stamped by the clock of the branch it comes
through, so another branch keeps its view as long as that clock has reached its pin. -/
namespace Munarium

/-- The view of a version's own promises at a pin. -/
def pinnedPromises (p : ℕ) (ps : List Promise) : List Promise :=
  (ps.filter fun q => State.pinAdmits (some p) q.seq).map (State.promiseView (some p))

theorem promiseView_open {p : ℕ} {q : Promise} (h : q.status = .opened) :
    State.promiseView (some p) q = { q with status := .opened, fulfilledSeq := none } := by
  have hs : statusAsOf q (some p) = .opened := by
    unfold statusAsOf
    cases q.fulfilledSeq <;> simp [h]
  simp [State.promiseView, hs]

/-- A promise fulfilled after the pin reads as the open one it was. -/
theorem promiseView_fulfilled_later {p seq : ℕ} {q : Promise} (h : q.status = .opened)
    (hseq : p < seq) :
    State.promiseView (some p) { q with status := .fulfilled, fulfilledSeq := some seq } =
      State.promiseView (some p) q := by
  rw [promiseView_open h]
  simp [State.promiseView, statusAsOf, hseq]

theorem pinnedPromises_cons (p : ℕ) (q : Promise) (rest : List Promise) :
    pinnedPromises p (q :: rest) =
      if q.seq ≤ p then State.promiseView (some p) q :: pinnedPromises p rest
      else pinnedPromises p rest := by
  unfold pinnedPromises
  rw [List.filter_cons]
  split_ifs with h₁ h₂ h₂ <;> simp_all [State.pinAdmits]

/-- Fulfilling past the pin, or a promise past the pin, leaves the view as it was. -/
theorem pinnedPromises_fulfillFirst {key : String} {p seq : ℕ} {ps : List Promise}
    (h : p < seq ∨ ∀ q, ps.find? (State.isOpenPromise key) = some q → p < q.seq) :
    pinnedPromises p (State.fulfillFirst key seq ps) = pinnedPromises p ps := by
  induction ps with
  | nil => rfl
  | cons q rest ih =>
    unfold State.fulfillFirst
    split_ifs with hq
    · have hopen : q.status = .opened := by
        simp only [State.isOpenPromise, Bool.and_eq_true, beq_iff_eq] at hq
        exact hq.2
      rw [pinnedPromises_cons, pinnedPromises_cons]
      rcases h with hlater | hhidden
      · rw [promiseView_fulfilled_later hopen hlater]
      · have hpast : ¬q.seq ≤ p := not_le.mpr (hhidden q (by simp [hq]))
        simp [hpast]
    · rw [pinnedPromises_cons, pinnedPromises_cons, ih]
      refine h.imp_right fun hhidden x hx => hhidden x ?_
      simpa [List.find?_cons, hq] using hx

section
variable [Unicode] [Platform] [IdGenerator]

/-- The row a fulfilment through `u` lands on: its version and the promise. -/
def State.fulfillTarget (s : State) (u key : String) : Option (String × Promise) :=
  match s.lineageOf u with
  | .error _ => none
  | .ok lineage =>
      (lineage.find? fun w => (s.promises w).any (State.isOpenPromise key)).bind fun w =>
        ((s.promises w).find? (State.isOpenPromise key)).map fun q => (w, q)

/-- A promise is registered in a proper ancestor of `v` only once that ancestor's own clock
has reached the pin, and a fulfilment through a branch whose clock has not reached it
lands on no promise of the lineage that the pin admits. -/
def KeepsPromises (v : String) (p : ℕ) (s : State) (c : Command) : Prop :=
  ∀ lineage, s.lineageOf v = .ok lineage →
    (∀ w ∈ lineage, w ≠ v → c.promiseTarget = some w →
      ∀ head, s.headOf w = .ok head → p ≤ head) ∧
    ∀ u key, c = .fulfillPromise u key → ∀ head, s.headOf u = .ok head → head < p →
      ∀ w q, s.fulfillTarget u key = some (w, q) → w ∈ lineage → p < q.seq

/-- What a version's promises read at a pin is the same in both states. -/
structure SamePromisesAt (v : String) (p : ℕ) (s s' : State) : Prop where
  lineage : ∀ lineage, s.lineageOf v = .ok lineage → s'.lineageOf v = .ok lineage
  promises : ∀ lineage, s.lineageOf v = .ok lineage → ∀ w ∈ lineage,
    pinnedPromises p (s'.promises w) = pinnedPromises p (s.promises w)

omit [Unicode] [IdGenerator] in
theorem SamePromisesAt.refl (v : String) (p : ℕ) (s : State) : SamePromisesAt v p s s :=
  ⟨fun _ hl => hl, fun _ _ _ _ => rfl⟩

omit [Unicode] [IdGenerator] in
theorem SamePromisesAt.trans {s t u : State} {v : String} {p : ℕ} (h₁ : SamePromisesAt v p s t)
    (h₂ : SamePromisesAt v p t u) : SamePromisesAt v p s u where
  lineage lineage hl := h₂.lineage lineage (h₁.lineage lineage hl)
  promises lineage hl w hw := (h₂.promises lineage (h₁.lineage lineage hl) w hw).trans
    (h₁.promises lineage hl w hw)

omit [Unicode] [IdGenerator] in
theorem SamePromisesAt.promisesAt {s s' : State} {v : String} {p : ℕ}
    (h : SamePromisesAt v p s s') {lineage : List String} (hl : s.lineageOf v = .ok lineage) :
    s'.promisesAt v (some p) = s.promisesAt v (some p) := by
  have hview (f : String → List Promise) :
      ((lineage.flatMap f).filter fun q => State.pinAdmits (some p) q.seq).map
        (State.promiseView (some p)) = lineage.flatMap fun w => pinnedPromises p (f w) := by
    rw [List.filter_flatMap, List.map_flatMap]
    rfl
  have hrows := List.flatMap_congr (h.promises lineage hl)
  simp only [State.promisesAt, hl, h.lineage lineage hl, bind, Except.bind, hview, hrows]

theorem Effect.samePromisesAt {s s' : State} {c : Command} (he : Effect s c s') (h : Sound s)
    {v : String} {p head : ℕ} (hh : s.headOf v = .ok head) (hp : p ≤ head)
    (hc : KeepsPromises v p s c) : SamePromisesAt v p s s' := by
  refine ⟨fun lineage hl => he.lineageOf_eq h hl, fun lineage hl w hw => ?_⟩
  obtain ⟨hregister, hfulfill⟩ := hc lineage hl
  cases he with
  | @promise u head' q hcmd hh' hq ho hf =>
    by_cases hwu : w = u
    · subst hwu
      have hpast : p ≤ head' := by
        by_cases hv : w = v
        · subst hv
          rw [hh] at hh'
          cases hh'
          exact hp
        · exact hregister w hw hv hcmd head' hh'
      have hhidden : ∀ r ∈ [q], p < r.seq := by
        intro r hr
        rw [List.mem_singleton.mp hr, hq]
        omega
      have hadmits : ∀ a : Promise, State.pinAdmits (some p) a.seq = true → a.seq ≤ p := by
        intro a ha
        simpa [State.pinAdmits] using ha
      have hfilter : (s.promises w ++ [q]).filter (fun a => State.pinAdmits (some p) a.seq) =
          (s.promises w).filter fun a => State.pinAdmits (some p) a.seq :=
        filter_append_of_lt (·.seq) hadmits hhidden
      simp only [Function.update_self, pinnedPromises, hfilter]
    · simp only [Function.update_of_ne hwu]
  | @fulfilled u w' key head' lineage' hcmd hh' hl' hfind =>
    by_cases hww : w = w'
    · subst hww
      simp only [Function.update_self]
      refine pinnedPromises_fulfillFirst ?_
      by_cases hpast : p ≤ head'
      · exact .inl (by omega)
      · refine .inr fun q hq => ?_
        refine hfulfill u key hcmd head' hh' (not_le.mp hpast) w q ?_ hw
        simp [State.fulfillTarget, hl', hfind, hq]
    · simp only [Function.update_of_ne hww]
  | _ => rfl

/-- The pinned promise view is reproducible on every branch, in every run whose
registrations and fulfilments keep clear of the pin. -/
theorem pinned_promises_reproducible {s s' : State} {v : String} {p head : ℕ}
    (hs : Reachable s) (hh : s.headOf v = .ok head) (hp : p ≤ head)
    (hrun : RunWhere (KeepsPromises v p) s s') :
    s'.promisesAt v (some p) = s.promisesAt v (some p) := by
  obtain ⟨lineage, hl⟩ := State.lineage_of_head hh
  have hsame : SamePromisesAt v p s s' := by
    refine RunWhere.pinned (fun _ => SamePromisesAt.refl _ _ _) SamePromisesAt.trans ?_ hs.sound
      hh hp hrun
    intro t t' c head' ht hh' hp' hc hx
    exact (Command.exec_effect hx).samePromisesAt ht hh' hp' hc
  exact hsame.promisesAt hl

end

section
attribute [local instance] asciiUnicode samplePlatform unaryIds

/-- A promise in a root and two branches, the second one three facts ahead. -/
def promisedCommands : List Command :=
  [.createVersion none none, .registerPromise "memv-" "reveal" "setup" "" none none,
    .createVersion (some "memv-") none, .createVersion (some "memv-") none,
    .appendClaims "memv-xxx"
      [.fact "hero" "eyes" "blue", .fact "hero" "hair" "red", .fact "hero" "age" "12"] none]

/-- Fulfilling through the branch that is ahead keeps that branch's own pinned view. -/
theorem pinned_promises_survive_own_fulfilment :
    let s := Command.run {} promisedCommands
    let s' := Command.step s (.fulfillPromise "memv-xxx" "reveal")
    s'.promisesAt "memv-xxx" (some 4) = s.promisesAt "memv-xxx" (some 4) := by
  refine pinned_promises_reproducible (RunWhere.of_run {} promisedCommands)
    (by decide : State.headOf _ "memv-xxx" = .ok 4) le_rfl (.single ⟨_, ?_, rfl⟩)
  intro lineage hl
  refine ⟨fun w _ _ ht => absurd ht (by simp [Command.promiseTarget]), ?_⟩
  intro u key hc head hh hlt
  cases hc
  have hhead : State.headOf (Command.run {} promisedCommands) "memv-xxx" = .ok 4 := by decide
  rw [hhead] at hh
  cases hh
  omega

/-- Fulfilling through the other branch, whose clock stands at 1, is stamped 2 and shows
under the pin 4 of the branch that is ahead. -/
theorem sibling_fulfilment_shifts_pinned_promises :
    ¬∀ (s s' : State) (v : String) (p head : ℕ), Reachable s → s.headOf v = .ok head →
      p ≤ head → RunWhere (fun _ _ => True) s s' →
      s'.promisesAt v (some p) = s.promisesAt v (some p) := by
  intro h
  have hsame := h (Command.run {} promisedCommands) _ "memv-xxx" 4 4
    (RunWhere.of_run {} promisedCommands) (by decide) le_rfl
    (RunWhere.of_run _ [.fulfillPromise "memv-xx" "reveal"])
  have hstatus := congrArg (fun r => r.toOption.map fun ps => ps.map (·.status)) hsame
  revert hstatus
  decide

end
end Munarium

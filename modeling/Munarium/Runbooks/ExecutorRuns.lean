import Munarium.Runbooks.Walks

/-! What holds at every statement of every interleaving: one call at a time walks a run, and no call
passes a gate that it did not find open. -/
namespace Munarium

/-- What an event can do, and in which state of the calls. -/
inductive RunbookSystem.Stepped (s : RunbookSystem) : RunbookEvent → RunbookSystem → Prop
  | stays (e : RunbookEvent) : Stepped s e s
  | applies (doc : RunbookDoc) (rows : List RunbookRow) :
      Stepped s (.apply doc) { s with runbooks := rows }
  | removes (runbookRef : String) (rows : List RunbookRow) :
      Stepped s (.remove runbookRef) { s with runbooks := rows }
  | refuses (e : RunbookEvent) (error : KernelError) :
      Stepped s e { s with calls := s.calls ++ [.ended none (.error error)] }
  | asks {nameOrRef : String} {versionId : Option String} {doc : RunbookDoc}
      (hdoc : loadRunbook s.runbooks nameOrRef = .ok doc) :
      Stepped s (.run nameOrRef versionId) { s with calls := s.calls ++ [.planning doc versionId] }
  | approves {runId : String} {run ordinal : ℕ} (hrun : run < s.runs.length) :
      Stepped s (.approve runId ordinal) { s with calls := s.calls ++
        [.requesting run ordinal ((s.runs[run]?).bind RunbookRun.versionId)] }
  | dies (i : ℕ) : Stepped s (.crash i) (s.setCall i .crashed)
  | ends {i : ℕ} {env : Env} {old : RunbookCall} {error : KernelError}
      (hold : s.calls[i]? = some old)
      (hlock : ∀ run versionId doc, old = .locking run versionId doc →
        s.acquireRunLock run env = .error error)
      (hidle : ∀ x, old ≠ .executing x) :
      Stepped s (.advance i env) (s.setCall i (.ended none (.error error)))
  | plans {i : ℕ} {env : Env} {doc : RunbookDoc} {versionId : Option String}
      (hold : s.calls[i]? = some (.planning doc versionId)) :
      Stepped s (.advance i env) { s.setCall i (.locking s.runs.length versionId doc) with
        runs := s.runs ++ [plannedRun doc versionId env.runId] }
  | locks {i run : ℕ} {env : Env} {doc : RunbookDoc} {versionId : Option String}
      (hold : s.calls[i]? = some (.locking run versionId doc)) (hfree : s.locked run = false) :
      Stepped s (.advance i env)
        (s.setCall i (.executing ⟨run, versionId, doc, none, [], 0, .starting⟩))
  | enters {i run ordinal : ℕ} {env : Env} {versionId : Option String}
      (hold : s.calls[i]? = some (.requesting run ordinal versionId))
      (hfree : s.locked run = false) :
      Stepped s (.advance i env) (s.setCall i (.checking run ordinal versionId))
  | finds {i run ordinal : ℕ} {env : Env} {versionId : Option String} {r : RunbookRun}
      {step : StoredStep} (hold : s.calls[i]? = some (.checking run ordinal versionId))
      (hr : s.runs[run]? = some r) (hstep : r.steps[ordinal]? = some step)
      (hwaits : step.state = .awaitingApproval) :
      Stepped s (.advance i env) { s.setCall i (.loading run ordinal versionId) with
        found := s.found ++ [(i, run, ordinal)] }
  | loads {i run ordinal : ℕ} {env : Env} {versionId : Option String} {doc : RunbookDoc}
      (hold : s.calls[i]? = some (.loading run ordinal versionId))
      (hdoc : loadRunbook s.runbooks (((s.runs[run]?).map RunbookRun.runbookRef).getD "") =
        .ok doc) :
      Stepped s (.advance i env)
        (s.setCall i (.executing ⟨run, versionId, doc, some ordinal, [], 0, .marking⟩))
  | moves {i : ℕ} {env : Env} {x : Execution} {r : RunbookRun}
      (hold : s.calls[i]? = some (.executing x)) (hr : s.runs[x.run]? = some r) :
      Stepped s (.advance i env) (s.moved i x.run (x.move i env r))

namespace RunbookSystem
variable (s : RunbookSystem)

theorem acquireRunLock_ok {s : RunbookSystem} {run : ℕ} {env : Env} {u : Unit}
    (h : s.acquireRunLock run env = .ok u) : s.locked run = false := by
  unfold acquireRunLock at h
  split at h
  · cases h
  · split_ifs at h with hlocked
    exact Bool.eq_false_iff.mpr hlocked

theorem stepped_advance (i : ℕ) (env : Env) : s.Stepped (.advance i env) (s.advance i env) := by
  unfold RunbookSystem.advance
  cases hold : s.calls[i]? with
  | none => exact .stays _
  | some old =>
    cases old with
    | planning doc versionId =>
      simp only [RunbookSystem.plan]
      split
      · exact .ends hold (by simp) (by simp)
      · split_ifs
        · exact .ends hold (by simp) (by simp)
        · exact .plans hold
    | locking run versionId doc =>
      simp only
      split
      · rename_i e hlock
        apply Stepped.ends hold
        · rintro _ _ _ ⟨⟩
          exact hlock
        · simp
      · rename_i hlock
        exact .locks hold (acquireRunLock_ok hlock)
    | requesting run ordinal versionId =>
      simp only
      split
      · exact .ends hold (by simp) (by simp)
      · rename_i hlock
        exact .enters hold (acquireRunLock_ok hlock)
    | checking run ordinal versionId =>
      simp only [RunbookSystem.check]
      split
      · exact .ends hold (by simp) (by simp)
      · split
        · exact .ends hold (by simp) (by simp)
        · rename_i state hstate
          split_ifs with hwaits
          · obtain ⟨step, hstep, rfl⟩ := Option.map_eq_some_iff.mp hstate
            obtain ⟨r, hr, hstep⟩ := Option.bind_eq_some_iff.mp hstep
            exact .finds hold hr hstep hwaits
          · exact .ends hold (by simp) (by simp)
    | loading run ordinal versionId =>
      simp only [RunbookSystem.load]
      split
      · exact .ends hold (by simp) (by simp)
      · split
        · exact .ends hold (by simp) (by simp)
        · rename_i doc hdoc
          exact .loads hold hdoc
    | executing x =>
      simp only
      split
      · exact .stays _
      · rename_i r hr
        exact .moves hold hr
    | ended | crashed => exact .stays _

theorem stepped (e : RunbookEvent) : s.Stepped e (s.step e) := by
  cases e with
  | apply doc =>
    simp only [RunbookSystem.step, RunbookSystem.applyRunbook]
    split_ifs
    · exact .stays _
    · split
      · exact .applies doc _
      · split_ifs
        · exact .stays _
        · exact .applies doc _
  | remove runbookRef => exact .removes runbookRef _
  | run nameOrRef versionId =>
    simp only [RunbookSystem.step, RunbookSystem.startRun]
    split
    · exact .refuses _ _
    · rename_i doc hdoc
      exact .asks hdoc
  | approve runId ordinal =>
    simp only [RunbookSystem.step, RunbookSystem.startApproval]
    split_ifs
    · exact .refuses _ _
    · split
      · exact .refuses _ _
      · rename_i run hrun
        exact .approves (List.findIdx?_eq_some_iff_getElem.mp hrun).1
  | advance i env => exact s.stepped_advance i env
  | crash i => exact .dies i

end RunbookSystem

/-- The run that a call is about, once it has one. -/
def RunbookCall.run? : RunbookCall → Option ℕ
  | locking run _ _ => some run
  | requesting run _ _ => some run
  | checking run _ _ => some run
  | loading run _ _ => some run
  | executing x => some x.run
  | _ => none

/-- The ordinals that a call's execution has passed. -/
def RunbookCall.Passed (o : ℕ) : RunbookCall → Prop
  | executing x => x.Passed o
  | ended _ _ => True
  | crashed => True
  | _ => False

/-- What a call was approved for, it found. -/
def RunbookCall.Approved (found : List (ℕ × ℕ × ℕ)) (i : ℕ) : RunbookCall → Prop
  | loading run ordinal _ => (i, run, ordinal) ∈ found
  | executing x => ∀ o, x.approved = some o → (i, x.run, o) ∈ found
  | _ => True

/-- What every interleaving keeps. -/
structure RunbookSystem.Steady (s : RunbookSystem) : Prop where
  order : ∀ (k : ℕ) (r : RunbookRun), s.runs[k]? = some r → InOrder r.steps
  known : ∀ (i : ℕ) (call : RunbookCall), s.calls[i]? = some call →
    ∀ k, call.run? = some k → k < s.runs.length
  locks : ∀ (i j : ℕ) (a b : RunbookCall) (k : ℕ), s.calls[i]? = some a →
    s.calls[j]? = some b → a.lockedRun = some k → b.lockedRun = some k → i = j
  walks : ∀ (i : ℕ) (x : Execution) (r : RunbookRun), s.calls[i]? = some (.executing x) →
    s.runs[x.run]? = some r → Walks r x
  approvals : ∀ (i : ℕ) (call : RunbookCall), s.calls[i]? = some call → call.Approved s.found i
  passed : ∀ c ∈ s.cutovers, ∃ call, s.calls[c.call]? = some call ∧ call.Passed c.ordinal
  gates : ∀ c ∈ s.cutovers, c.unit.step.requiresApproval = true →
    (c.call, c.run, c.ordinal) ∈ s.found
  once : (s.cutovers.map fun c => (c.call, c.ordinal)).Nodup

theorem lockedRun_run? {call : RunbookCall} {k : ℕ} (h : call.lockedRun = some k) :
    call.run? = some k := by
  cases call with
  | checking | loading | executing => exact h
  | planning | locking | requesting | ended | crashed => cases h

namespace RunbookSystem.Steady
variable {s : RunbookSystem} {i : ℕ} {old call : RunbookCall}

theorem not_locked {k j : ℕ} (hfree : s.locked k = false) {other : RunbookCall}
    (hj : s.calls[j]? = some other) : other.lockedRun ≠ some k := by
  intro hk
  have hany : s.locked k = true :=
    List.any_eq_true.mpr ⟨other, List.mem_of_getElem? hj, by simp [hk]⟩
  rw [hfree] at hany
  cases hany

theorem setCall (h : s.Steady) (call : RunbookCall) (hold : s.calls[i]? = some old)
    (hknown : ∀ k, call.run? = some k → k < s.runs.length)
    (hlock : ∀ k, call.lockedRun = some k → old.lockedRun = some k ∨ s.locked k = false)
    (hwalks : ∀ x r, call = .executing x → s.runs[x.run]? = some r → Walks r x)
    (happroved : call.Approved s.found i)
    (hpassed : ∀ o, old.Passed o → call.Passed o) : (s.setCall i call).Steady where
  order := h.order
  known := Positions.forall_set h.known hknown
  locks j j' a b k hj hj' ha hb := by
    rcases Positions.getElem?_set_cases hj with ⟨rfl, rfl⟩ | ⟨-, hother⟩
    · rcases Positions.getElem?_set_cases hj' with ⟨rfl, -⟩ | ⟨-, hother'⟩
      · rfl
      · rcases hlock k ha with hsame | hfree
        · exact h.locks _ _ _ _ k hold hother' hsame hb
        · exact absurd hb (not_locked hfree hother')
    · rcases Positions.getElem?_set_cases hj' with ⟨rfl, rfl⟩ | ⟨-, hother'⟩
      · rcases hlock k hb with hsame | hfree
        · exact h.locks _ _ _ _ k hother hold ha hsame
        · exact absurd ha (not_locked hfree hother)
      · exact h.locks _ _ _ _ k hother hother' ha hb
  walks j x r hj hr := by
    rcases Positions.getElem?_set_cases hj with ⟨rfl, heq⟩ | ⟨-, hj⟩
    · exact hwalks x r heq.symm hr
    · exact h.walks j x r hj hr
  approvals := Positions.forall_set h.approvals happroved
  passed c hc := by
    obtain ⟨other, hother, hpast⟩ := h.passed c hc
    by_cases heq : i = c.call
    · subst heq
      rw [hold] at hother
      cases hother
      exact ⟨call, Positions.getElem?_set_some hold, hpassed _ hpast⟩
    · exact ⟨other, by rw [RunbookSystem.setCall, List.getElem?_set_ne heq, hother], hpast⟩
  gates := h.gates
  once := h.once

/-- A call that ends, or dies, gives up what it holds. -/
theorem quiet (h : s.Steady) (hquiet : call.run? = none) (hpast : ∀ o, call.Passed o) :
    (s.setCall i call).Steady := by
  cases hold : s.calls[i]? with
  | none =>
    have hset : s.setCall i call = s := by
      rw [RunbookSystem.setCall, List.set_eq_of_length_le (List.getElem?_eq_none_iff.mp hold)]
    rw [hset]
    exact h
  | some old =>
    apply h.setCall _ hold
    · intro k hk
      rw [hquiet] at hk
      cases hk
    · intro k hk
      rw [lockedRun_run? hk] at hquiet
      cases hquiet
    · intro x r hx _
      rw [hx] at hquiet
      cases hquiet
    · cases call with
      | executing | loading => cases hquiet
      | planning | locking | requesting | checking | ended | crashed => trivial
    · intro o _
      exact hpast o

/-- A new call holds nothing. -/
theorem starts (h : s.Steady) (hlock : call.lockedRun = none)
    (hknown : ∀ k, call.run? = some k → k < s.runs.length) :
    Steady { s with calls := s.calls ++ [call] } where
  order := h.order
  known := Positions.forall_append h.known hknown
  locks j j' a b k hj hj' ha hb := by
    rcases Positions.getElem?_append_cases hj with ⟨-, hj⟩ | ⟨-, rfl⟩
    · rcases Positions.getElem?_append_cases hj' with ⟨-, hj'⟩ | ⟨-, rfl⟩
      · exact h.locks _ _ _ _ k hj hj' ha hb
      · rw [hlock] at hb
        cases hb
    · rw [hlock] at ha
      cases ha
  walks j x r hj hr := by
    rcases Positions.getElem?_append_cases hj with ⟨-, hj⟩ | ⟨-, rfl⟩
    · exact h.walks j x r hj hr
    · cases hlock
  approvals := by
    apply Positions.forall_append h.approvals
    cases call with
    | executing | loading => cases hlock
    | planning | locking | requesting | checking | ended | crashed => trivial
  passed c hc := by
    obtain ⟨other, hother, hpast⟩ := h.passed c hc
    exact ⟨other, by rw [List.getElem?_append_left (List.getElem?_eq_some_iff.mp hother).1, hother],
      hpast⟩
  gates := h.gates
  once := h.once

theorem finds (h : s.Steady) (entry : ℕ × ℕ × ℕ) :
    Steady { s with found := s.found ++ [entry] } where
  order := h.order
  known := h.known
  locks := h.locks
  walks := h.walks
  approvals j other hj := by
    have happroved := h.approvals j other hj
    cases other with
    | loading => exact List.mem_append_left _ happroved
    | executing x => exact fun o ho => List.mem_append_left _ (happroved o ho)
    | planning | locking | requesting | checking | ended | crashed => trivial
  passed := h.passed
  gates c hc hrequires := List.mem_append_left _ (h.gates c hc hrequires)
  once := h.once

/-- A run that is planned starts with every step pending. -/
theorem inOrder_planned (doc : RunbookDoc) (versionId : Option String) (id : String) :
    InOrder (plannedRun doc versionId id).steps := by
  intro i j a b _ _ hb _
  simp only [plannedRun, List.getElem?_map] at hb
  obtain ⟨u, -, rfl⟩ := Option.map_eq_some_iff.mp hb
  exact ⟨rfl, rfl⟩

theorem plans (h : s.Steady) (id : String) {doc : RunbookDoc} {versionId : Option String}
    (hold : s.calls[i]? = some (.planning doc versionId)) :
    Steady { s.setCall i (.locking s.runs.length versionId doc) with
      runs := s.runs ++ [plannedRun doc versionId id] } := by
  have hgrown : Steady { s with runs := s.runs ++ [plannedRun doc versionId id] } := by
    refine ⟨?_, ?_, h.locks, ?_, h.approvals, h.passed, h.gates, h.once⟩
    · exact Positions.forall_append h.order (inOrder_planned doc versionId id)
    · intro j other hj k hk
      have hlt := h.known j other hj k hk
      simp only [List.length_append, List.length_singleton]
      omega
    · intro j x r hj hr
      have hlt := h.known j _ hj x.run rfl
      rw [List.getElem?_append_left hlt] at hr
      exact h.walks j x r hj hr
  apply hgrown.setCall (.locking s.runs.length versionId doc) hold
  · intro k hk
    cases hk
    simp
  · intro k hk
    cases hk
  · intro x r hx _
    cases hx
  · trivial
  · intro o ho
    exact ho

/-- A statement of an execution, which alone has its run's lock. -/
theorem executes (h : s.Steady) (env : Env) {x : Execution} {r : RunbookRun}
    (hold : s.calls[i]? = some (.executing x)) (hr : s.runs[x.run]? = some r) :
    (s.moved i x.run (x.move i env r)).Steady := by
  have hkeeps := move_keeps i env (h.walks i x r hold hr) (h.order x.run r hr)
  have hlast : ∀ call, (x.move i env r).call = call → call.run? = none ∨
      ∃ x', call = .executing x' ∧ Continues (x.move i env r).run x x' := by
    rintro call rfl
    rcases hkeeps.call with ⟨answer, hcall⟩ | hcall
    · exact Or.inl (by rw [hcall]; rfl)
    · exact Or.inr hcall
  have hrun : ∀ k, (x.move i env r).call.run? = some k → k = x.run := by
    intro k hk
    rcases hlast _ rfl with hnone | ⟨x', hcall, hcont⟩
    · rw [hnone] at hk
      cases hk
    · rw [hcall] at hk
      cases hk
      exact hcont.run
  have hpassed : ∀ o, (∀ x', (x.move i env r).call = .executing x' → x'.Passed o) →
      (x.move i env r).call.Passed o := by
    intro o hpast
    rcases hkeeps.call with ⟨answer, hcall⟩ | ⟨x', hcall, -⟩
    · rw [hcall]
      trivial
    · rw [hcall]
      exact hpast x' hcall
  have hlt := h.known i _ hold x.run rfl
  constructor
  · exact Positions.forall_set h.order hkeeps.order
  · simp only [RunbookSystem.moved, List.length_set]
    apply Positions.forall_set h.known
    intro k hk
    rw [hrun k hk]
    exact hlt
  · intro j j' a b k hj hj' ha hb
    rcases Positions.getElem?_set_cases hj with ⟨rfl, rfl⟩ | ⟨-, hother⟩
    · rcases Positions.getElem?_set_cases hj' with ⟨rfl, -⟩ | ⟨-, hother'⟩
      · rfl
      · have hk := hrun k (lockedRun_run? ha)
        exact h.locks _ _ _ _ k hold hother' (by rw [hk]; rfl) hb
    · rcases Positions.getElem?_set_cases hj' with ⟨rfl, rfl⟩ | ⟨-, hother'⟩
      · have hk := hrun k (lockedRun_run? hb)
        exact h.locks _ _ _ _ k hother hold ha (by rw [hk]; rfl)
      · exact h.locks _ _ _ _ k hother hother' ha hb
  · intro j y r' hj hr'
    rcases Positions.getElem?_set_cases hj with ⟨rfl, hy⟩ | ⟨hne, hother⟩
    · rcases hlast _ rfl with hnone | ⟨x', hcall, hcont⟩
      · rw [← hy] at hnone
        cases hnone
      · rw [hcall] at hy
        cases hy
        rcases Positions.getElem?_set_cases hr' with ⟨-, rfl⟩ | ⟨hnot, -⟩
        · exact hcont.walks
        · exact absurd hcont.run hnot
    · rcases Positions.getElem?_set_cases hr' with ⟨hsame, -⟩ | ⟨-, hr'⟩
      · exact absurd (h.locks j i _ _ x.run hother hold (by rw [← hsame]; rfl) rfl) hne
      · exact h.walks j y r' hother hr'
  · apply Positions.forall_set h.approvals
    rcases hlast _ rfl with hnone | ⟨x', hcall, hcont⟩
    · cases hm : (x.move i env r).call with
      | loading | executing => rw [hm] at hnone; cases hnone
      | planning | locking | requesting | checking | ended | crashed => trivial
    · rw [hcall]
      intro o ho
      rw [hcont.approved] at ho
      rw [hcont.run]
      exact h.approvals i _ hold o ho
  · intro c hc
    rcases List.mem_append.mp hc with hc | hc
    · obtain ⟨other, hother, hpast⟩ := h.passed c hc
      by_cases heq : i = c.call
      · subst heq
        rw [hold] at hother
        cases hother
        exact ⟨_, Positions.getElem?_set_some hold, hpassed _ fun x' hx' => move_passed hx' hpast⟩
      · exact ⟨other, by rw [RunbookSystem.moved, List.getElem?_set_ne heq, hother], hpast⟩
    · obtain ⟨-, ⟨u, -, -, rfl⟩, hpast⟩ := move_cutover (Option.mem_toList.mp hc)
      exact ⟨_, Positions.getElem?_set_some hold, hpassed _ hpast⟩
  · intro c hc hrequires
    rcases List.mem_append.mp hc with hc | hc
    · exact h.gates c hc hrequires
    · obtain ⟨hstage, ⟨u, hunit, -, rfl⟩, -⟩ := move_cutover (Option.mem_toList.mp hc)
      have hwork := h.walks i x r hold hr
      simp only [Walks, hstage] at hwork
      obtain ⟨u', step, hunit', -, -, -, hgate⟩ := hwork.unit
      rw [hunit] at hunit'
      cases hunit'
      exact h.approvals i _ hold _ (hgate hrequires)
  · simp only [RunbookSystem.moved, List.map_append, List.nodup_append]
    refine ⟨h.once, ?_, ?_⟩
    · cases (x.move i env r).cutover <;> simp
    · intro a ha b hb hab
      obtain ⟨c, hc, rfl⟩ := List.mem_map.mp ha
      obtain ⟨d, hd, rfl⟩ := List.mem_map.mp hb
      obtain ⟨hstage, ⟨u, -, -, rfl⟩, -⟩ := move_cutover (Option.mem_toList.mp hd)
      obtain ⟨other, hother, hpast⟩ := h.passed c hc
      simp only [Prod.mk.injEq] at hab
      rw [hab.1, hold] at hother
      cases hother
      simp only [RunbookCall.Passed, Execution.Passed, hstage, hab.2] at hpast
      omega

theorem stepped {s' : RunbookSystem} {e : RunbookEvent} (h : s.Steady) (hs : s.Stepped e s') :
    s'.Steady := by
  cases hs with
  | stays => exact h
  | applies | removes => exact ⟨h.order, h.known, h.locks, h.walks, h.approvals, h.passed, h.gates,
      h.once⟩
  | refuses => exact h.starts rfl fun k hk => by cases hk
  | asks => exact h.starts rfl fun k hk => by cases hk
  | approves hrun =>
    apply h.starts rfl
    intro k hk
    cases hk
    exact hrun
  | dies => exact h.quiet rfl fun _ => trivial
  | ends => exact h.quiet rfl fun _ => trivial
  | plans hold => exact h.plans _ hold
  | locks hold hfree =>
    have hknown := h.known _ _ hold
    apply h.setCall _ hold
    · exact hknown
    · intro k hk
      cases hk
      exact Or.inr hfree
    · intro x r hx _
      cases hx
      trivial
    · intro o ho
      cases ho
    · intro o ho
      cases ho
  | enters hold hfree =>
    have hknown := h.known _ _ hold
    apply h.setCall _ hold
    · exact hknown
    · intro k hk
      cases hk
      exact Or.inr hfree
    · intro x r hx _
      cases hx
    · trivial
    · intro o ho
      exact ho
  | @finds i run ordinal _ versionId _ _ hold =>
    have hknown := h.known _ _ hold
    apply (h.finds (i, run, ordinal)).setCall (.loading run ordinal versionId) hold
    · exact hknown
    · intro k hk
      exact Or.inl hk
    · intro x r hx _
      cases hx
    · exact List.mem_append_right _ List.mem_cons_self
    · intro o ho
      exact ho
  | loads hold =>
    have hknown := h.known _ _ hold
    apply h.setCall _ hold
    · exact hknown
    · intro k hk
      exact Or.inl hk
    · intro x r hx _
      cases hx
      trivial
    · intro o ho
      cases ho
      exact h.approvals _ _ hold
    · intro o ho
      cases ho
  | moves hold hr => exact h.executes _ hold hr

theorem start : Steady {} where
  order k r h := by cases h
  known i call h := by cases h
  locks i j a b k h := by cases h
  walks i x r h := by cases h
  approvals i call h := by cases h
  passed c h := by cases h
  gates c h := by cases h
  once := List.nodup_nil

end RunbookSystem.Steady

/-- What a statement of an execution leaves of every run. -/
theorem RunbookSystem.runs_moved {s : RunbookSystem} {i : ℕ} {x : Execution} {r : RunbookRun}
    {m : Moved} {k : ℕ} {r₀ : RunbookRun}
    (hr : s.runs[x.run]? = some r) (hkeeps : KeepsRun r m.run) (hk : s.runs[k]? = some r₀) :
    ∃ r₁, (s.moved i x.run m).runs[k]? = some r₁ ∧ KeepsRun r₀ r₁ := by
  by_cases heq : x.run = k
  · subst heq
    rw [hr] at hk
    cases hk
    exact ⟨m.run, Positions.getElem?_set_some hr, hkeeps⟩
  · exact ⟨r₀, by rw [RunbookSystem.moved, List.getElem?_set_ne heq, hk], .refl r₀⟩

/-- The run that a call executes, or is about to. -/
def RunbookCall.drivenRun : RunbookCall → Option ℕ
  | locking run _ _ => some run
  | loading run _ _ => some run
  | executing x => some x.run
  | _ => none

/-- A planned run is untouched, and no other call's, until the call that planned it starts. -/
def RunbookSystem.Fresh (s : RunbookSystem) : Prop :=
  ∀ (i run : ℕ) (versionId : Option String) (doc : RunbookDoc),
    s.calls[i]? = some (.locking run versionId doc) →
    (∃ id, s.runs[run]? = some (plannedRun doc versionId id)) ∧
    ∀ (j : ℕ) (other : RunbookCall), s.calls[j]? = some other → other.drivenRun = some run → j = i

namespace RunbookSystem.Fresh
variable {s s' : RunbookSystem} {i : ℕ} {call : RunbookCall}

theorem setCall (h : s.Fresh) (hnot : ∀ run versionId doc, call ≠ .locking run versionId doc)
    (hdriven : ∀ run j versionId doc, call.drivenRun = some run →
      s.calls[j]? = some (.locking run versionId doc) → j = i) : (s.setCall i call).Fresh := by
  intro j run versionId doc hj
  rcases Positions.getElem?_set_cases hj with ⟨-, heq⟩ | ⟨hne, hlocking⟩
  · exact absurd heq.symm (hnot run versionId doc)
  · obtain ⟨hplanned, honly⟩ := h j run versionId doc hlocking
    refine ⟨hplanned, ?_⟩
    intro j' other hj' hdrives
    rcases Positions.getElem?_set_cases hj' with ⟨-, rfl⟩ | ⟨-, hj'⟩
    · exact absurd (hdriven run j versionId doc hdrives hlocking) hne
    · exact honly j' other hj' hdrives

theorem quiet (h : s.Fresh) (hquiet : call.drivenRun = none) : (s.setCall i call).Fresh := by
  apply h.setCall
  · rintro run versionId doc rfl
    cases hquiet
  · intro run j versionId doc hdrives _
    rw [hquiet] at hdrives
    cases hdrives

theorem starts (h : s.Fresh) (hquiet : call.drivenRun = none) :
    Fresh { s with calls := s.calls ++ [call] } := by
  intro j run versionId doc hj
  rcases Positions.getElem?_append_cases hj with ⟨-, hj⟩ | ⟨-, rfl⟩
  · obtain ⟨hplanned, honly⟩ := h j run versionId doc hj
    refine ⟨hplanned, ?_⟩
    intro j' other hj' hdrives
    rcases Positions.getElem?_append_cases hj' with ⟨-, hj'⟩ | ⟨-, rfl⟩
    · exact honly j' other hj' hdrives
    · rw [hquiet] at hdrives
      cases hdrives
  · cases hquiet

theorem plans (h : s.Fresh) (hsteady : s.Steady) (id : String) {doc : RunbookDoc}
    {versionId : Option String} (hold : s.calls[i]? = some (.planning doc versionId)) :
    Fresh { s.setCall i (.locking s.runs.length versionId doc) with
      runs := s.runs ++ [plannedRun doc versionId id] } := by
  intro j run versionId' doc' hj
  rcases Positions.getElem?_set_cases hj with ⟨rfl, heq⟩ | ⟨hne, hj⟩
  · cases heq
    refine ⟨⟨id, by simp⟩, ?_⟩
    intro j' other hj' hdrives
    rcases Positions.getElem?_set_cases hj' with ⟨heq, -⟩ | ⟨-, hj'⟩
    · exact heq
    · have hrun : other.run? = some s.runs.length := by
        cases other with
        | locking | loading | executing => exact hdrives
        | planning | requesting | checking | ended | crashed => cases hdrives
      exact absurd (hsteady.known j' other hj' _ hrun) (Nat.lt_irrefl _)
  · obtain ⟨⟨id', hplanned⟩, honly⟩ := h j run versionId' doc' hj
    have hlt := hsteady.known j _ hj run rfl
    refine ⟨⟨id', by rw [List.getElem?_append_left hlt, hplanned]⟩, ?_⟩
    intro j' other hj' hdrives
    rcases Positions.getElem?_set_cases hj' with ⟨-, rfl⟩ | ⟨-, hj'⟩
    · cases hdrives
      exact absurd hlt (Nat.lt_irrefl _)
    · exact honly j' other hj' hdrives

theorem moves (h : s.Fresh) (hsteady : s.Steady) (env : Env) {x : Execution} {r : RunbookRun}
    (hold : s.calls[i]? = some (.executing x)) (hr : s.runs[x.run]? = some r) :
    (s.moved i x.run (x.move i env r)).Fresh := by
  have hcall := (move_keeps i env (hsteady.walks i x r hold hr) (hsteady.order x.run r hr)).call
  intro j run versionId doc hj
  rcases Positions.getElem?_set_cases hj with ⟨-, heq⟩ | ⟨hne, hj⟩
  · rcases hcall with ⟨answer, hcall⟩ | ⟨x', hcall, -⟩
    · rw [hcall] at heq
      cases heq
    · rw [hcall] at heq
      cases heq
  · obtain ⟨⟨id, hplanned⟩, honly⟩ := h j run versionId doc hj
    have hother : x.run ≠ run := fun heq => hne (honly i _ hold (congrArg some heq)).symm
    refine ⟨⟨id, by rw [RunbookSystem.moved, List.getElem?_set_ne hother, hplanned]⟩, ?_⟩
    intro j' other hj' hdrives
    rcases Positions.getElem?_set_cases hj' with ⟨-, rfl⟩ | ⟨-, hj'⟩
    · rcases hcall with ⟨answer, hcall⟩ | ⟨x', hcall, hcont⟩
      · rw [hcall] at hdrives
        cases hdrives
      · rw [hcall] at hdrives
        exact absurd (hcont.run.symm.trans (Option.some.inj hdrives)) hother
    · exact honly j' other hj' hdrives

theorem stepped {e : RunbookEvent} (h : s.Fresh) (hsteady : s.Steady) (hs : s.Stepped e s') :
    s'.Fresh := by
  cases hs with
  | stays | applies | removes => exact h
  | refuses | asks | approves => exact h.starts rfl
  | dies | ends | enters => exact h.quiet rfl
  | plans hold => exact h.plans hsteady _ hold
  | locks hold =>
    apply h.setCall
    · intro run versionId doc heq
      cases heq
    · intro run j versionId doc hdrives hj
      exact ((h j run versionId doc hj).2 _ _ hold hdrives).symm
  | @finds i run ordinal _ versionId r step hold hr hstep hwaits =>
    have hset : (s.setCall i (.loading run ordinal versionId)).Fresh := by
      apply h.setCall
      · intro run versionId doc heq
        cases heq
      · intro run' j versionId' doc hdrives hj
        cases hdrives
        obtain ⟨⟨id, hplanned⟩, -⟩ := h j run versionId' doc hj
        rw [hr] at hplanned
        cases hplanned
        simp only [plannedRun, List.getElem?_map] at hstep
        obtain ⟨u, -, rfl⟩ := Option.map_eq_some_iff.mp hstep
        cases hwaits
    exact hset
  | loads hold =>
    apply h.setCall
    · intro run versionId doc heq
      cases heq
    · intro run j versionId doc hdrives hj
      exact ((h j run versionId doc hj).2 _ _ hold hdrives).symm
  | moves hold hr => exact h.moves hsteady _ hold hr

end RunbookSystem.Fresh

end Munarium

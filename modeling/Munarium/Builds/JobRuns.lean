import Munarium.Builds.Jobs
import Munarium.Lib.GuardedRun

/-! Every interleaving of enqueues, claims, heartbeats, completions and cancellations of build
jobs, with the claims that were made. A claim's number is the row's attempt count after it. -/
namespace Munarium

structure JobClaim where
  tenantId : String
  jobId : String
  nodeId : String
  number : ℕ
  deriving DecidableEq

def JobClaim.key (c : JobClaim) : JobKey := toLex (c.tenantId, c.jobId)

/-- The job table and every claim made so far, in their order. -/
structure JobRun where
  table : JobTable := {}
  claims : List JobClaim := []

/-- A completion comes from one of the claims made. -/
inductive JobEvent where
  | enqueue (e : Enqueue)
  | claimAny (nodeId : String) (leaseSecs maxAttempts : ℤ) (locked : List JobKey) (now : ℤ)
  | heartbeat (tenantId jobId nodeId : String) (now : ℤ)
  | complete (claim : ℕ) (outcome : Except String Json) (attemptId : Option String)
  | cancel (tenantId jobId : String)

namespace JobRun

def step (s : JobRun) : JobEvent → JobRun
  | .enqueue e => { s with table := (s.table.enqueue e).2 }
  | .claimAny nodeId leaseSecs maxAttempts locked now =>
      match s.table.claimAny nodeId leaseSecs maxAttempts locked now with
      | (none, t) => { s with table := t }
      | (some j, t) =>
          { table := t, claims := s.claims ++ [⟨j.tenantId, j.jobId, nodeId, j.attempts⟩] }
  | .heartbeat tenantId jobId nodeId now =>
      { s with table := (s.table.heartbeat tenantId jobId nodeId now).2 }
  | .complete i outcome attemptId =>
      match s.claims[i]? with
      | some c =>
          { s with table := (s.table.complete c.tenantId c.jobId c.nodeId outcome attemptId).2 }
      | none => s
  | .cancel tenantId jobId => { s with table := (s.table.cancel tenantId jobId).2 }

/-- What a heartbeat, a completion or a cancellation does to an open row. -/
structure Touched (j j' : BuildJob) : Prop where
  key : j'.key = j.key
  target : j'.target = j.target
  attempts : j'.attempts = j.attempts
  claimedBy : j'.claimedBy = j.claimedBy
  state : j'.state = .running ∧ j.state = .running ∧ j'.claimedAt.isSome ∨ j'.state.isOpen = false

/-- What one event can do. -/
inductive Change (s : JobRun) : JobEvent → JobRun → Prop
  | same (e : JobEvent) : Change s e s
  | enqueued {e : Enqueue} (hopen : s.table.openFor e.row = [])
      (hfresh : s.table.jobs.get? e.row.key = none) :
      Change s (.enqueue e) { s with table := ⟨s.table.jobs.insert e.row.key e.row⟩ }
  | claimed {nodeId : String} {leaseSecs maxAttempts : ℤ} {locked : List JobKey} {now : ℤ}
      {j : BuildJob} (hnext : s.table.nextJob leaseSecs maxAttempts locked now = some j) :
      Change s (.claimAny nodeId leaseSecs maxAttempts locked now)
        { table := ⟨s.table.jobs.insert j.key (JobTable.claimed nodeId now j)⟩
          claims := s.claims ++ [⟨j.tenantId, j.jobId, nodeId, j.attempts + 1⟩] }
  | touched {e : JobEvent} {k : JobKey} {j j' : BuildJob} (hrow : s.table.jobs.get? k = some j)
      (hopen : j.state.isOpen) (htouched : Touched j j') :
      Change s e { s with table := ⟨s.table.jobs.insert k j'⟩ }

theorem change_updateWhere {s : JobRun} {e : JobEvent} {tenantId jobId : String}
    {guard : BuildJob → Bool} {f : BuildJob → BuildJob}
    (hguard : ∀ j, guard j → j.state.isOpen ∧ Touched j (f j)) :
    Change s e { s with table := (s.table.updateWhere tenantId jobId guard f).2 } := by
  rw [JobTable.updateWhere]
  split
  · rename_i j hrow
    split_ifs with hmet
    · obtain ⟨hopen, htouched⟩ := hguard j hmet
      exact .touched hrow hopen htouched
    · exact .same e
  · exact .same e

theorem heldBy_iff {nodeId : String} {j : BuildJob} :
    JobTable.heldBy nodeId j ↔ j.state = .running ∧ j.claimedBy = some nodeId := by
  simp [JobTable.heldBy]

theorem change_step (s : JobRun) (e : JobEvent) : Change s e (s.step e) := by
  cases e with
  | enqueue e =>
    have hsame : Change s (.enqueue e) { s with table := (s.table.insertJob e).2 } := by
      rw [JobTable.insertJob]
      split_ifs with hopen hfresh
      · exact .same _
      · exact .same _
      · exact .enqueued (not_not.mp hopen) (Option.not_isSome_iff_eq_none.mp hfresh)
    have htable : (s.table.enqueue e).2 = (s.table.insertJob e).2 := by
      rw [JobTable.enqueue]
      split <;> rename_i h <;> rw [h]
    rw [step, htable]
    exact hsame
  | claimAny nodeId leaseSecs maxAttempts locked now =>
    rw [step, JobTable.claimAny]
    split
    · rename_i t h
      split at h
      · cases h
        exact .same _
      · cases h
    · rename_i j' t h
      split at h
      · cases h
      · rename_i j hnext
        cases h
        exact .claimed hnext
  | heartbeat tenantId jobId nodeId now =>
    apply change_updateWhere
    intro j hj
    obtain ⟨hrunning, -⟩ := heldBy_iff.mp hj
    exact ⟨by rw [hrunning]; rfl, rfl, rfl, rfl, rfl, .inl ⟨hrunning, hrunning, rfl⟩⟩
  | complete i outcome attemptId =>
    rw [step]
    split
    · apply change_updateWhere
      intro j hj
      obtain ⟨hrunning, -⟩ := heldBy_iff.mp hj
      refine ⟨by rw [hrunning]; rfl, rfl, rfl, rfl, rfl, .inr ?_⟩
      cases outcome <;> rfl
    · exact .same _
  | cancel tenantId jobId =>
    apply change_updateWhere
    intro j hj
    exact ⟨hj, rfl, rfl, rfl, rfl, .inr rfl⟩

/-- Two open jobs of one target are one job. -/
def OneOpenPerTarget (s : JobRun) : Prop :=
  ∀ k k' j j', s.table.jobs.get? k = some j → s.table.jobs.get? k' = some j' →
    j.state.isOpen → j'.state.isOpen → j.target = j'.target → k = k'

/-- A running row is held by the claim that its columns name. -/
def Held (s : JobRun) (k : JobKey) (j : BuildJob) : Prop :=
  ∃ c ∈ s.claims, c.key = k ∧ j.claimedBy = some c.nodeId ∧ c.number = j.attempts

structure Sound (s : JobRun) : Prop where
  key : ∀ k j, s.table.jobs.get? k = some j → j.key = k
  one : s.OneOpenPerTarget
  leased : ∀ k j, s.table.jobs.get? k = some j → j.state = .running → j.claimedAt.isSome
  held : ∀ k j, s.table.jobs.get? k = some j → j.state = .running → s.Held k j
  number : ∀ c ∈ s.claims, ∃ j, s.table.jobs.get? c.key = some j ∧ c.number ≤ j.attempts

theorem sound_empty : ({} : JobRun).Sound where
  key k j h := by simp at h
  one k k' j j' h := by simp at h
  leased k j h := by simp at h
  held k j h := by simp at h
  number c h := by simp at h

theorem openFor_eq_nil {t : JobTable} {row : BuildJob} (h : t.openFor row = []) {k : JobKey}
    {j : BuildJob} (hrow : t.jobs.get? k = some j) (hopen : j.state.isOpen) :
    j.target ≠ row.target := by
  intro htarget
  have hmem : j ∈ t.openFor row := by
    apply (List.perm_insertionSort _ _).mem_iff.mpr
    rw [List.mem_filter, SortedMap.mem_values_iff]
    exact ⟨⟨k, hrow⟩, by simp [hopen, htarget]⟩
  rw [h] at hmem
  cases hmem

theorem nextJob_spec {t : JobTable} {leaseSecs maxAttempts now : ℤ} {locked : List JobKey}
    {j : BuildJob} (h : t.nextJob leaseSecs maxAttempts locked now = some j) :
    (∃ k, t.jobs.get? k = some j) ∧ j.offered leaseSecs maxAttempts now := by
  have hmem := List.mem_of_mem_head? (Option.mem_def.mpr h)
  have hkept := List.mem_filter.mp ((List.perm_insertionSort _ _).mem_iff.mp hmem)
  rw [SortedMap.mem_values_iff, Bool.and_eq_true] at hkept
  exact ⟨hkept.1, hkept.2.1⟩

theorem offered_isOpen {j : BuildJob} {leaseSecs maxAttempts now : ℤ}
    (h : j.offered leaseSecs maxAttempts now) : j.state.isOpen := by
  cases hstate : j.state <;> simp [BuildJob.offered, hstate, JobState.isOpen] at h ⊢

/-- The rows after one row of the table was written over. -/
theorem get?_write {t : JobTable} {k k' : JobKey} {j j' : BuildJob}
    (h : (t.jobs.insert k j').get? k' = some j) :
    k' = k ∧ j = j' ∨ k' ≠ k ∧ t.jobs.get? k' = some j := by
  rw [SortedMap.get?_insert] at h
  split_ifs at h with hk
  · exact .inl ⟨hk, (Option.some.inj h).symm⟩
  · exact .inr ⟨hk, h⟩

/-- One open job per target, after a row was written that was open or stands alone. -/
theorem OneOpenPerTarget.write {s : JobRun} (hs : s.OneOpenPerTarget) {k : JobKey}
    {j' : BuildJob} {claims : List JobClaim}
    (halone : ∀ k₁ j₁, k₁ ≠ k → s.table.jobs.get? k₁ = some j₁ → j₁.state.isOpen →
      j'.state.isOpen → j₁.target ≠ j'.target) :
    OneOpenPerTarget { table := ⟨s.table.jobs.insert k j'⟩, claims } := by
  intro k₁ k₂ j₁ j₂ h₁ h₂ hopen₁ hopen₂ htarget
  rcases get?_write h₁ with ⟨hk₁, rfl⟩ | ⟨hk₁, hold₁⟩
  · rcases get?_write h₂ with ⟨hk₂, rfl⟩ | ⟨hk₂, hold₂⟩
    · rw [hk₁, hk₂]
    · exact absurd htarget.symm (halone k₂ j₂ hk₂ hold₂ hopen₂ hopen₁)
  · rcases get?_write h₂ with ⟨hk₂, rfl⟩ | ⟨hk₂, hold₂⟩
    · exact absurd htarget (halone k₁ j₁ hk₁ hold₁ hopen₁ hopen₂)
    · exact hs k₁ k₂ j₁ j₂ hold₁ hold₂ hopen₁ hopen₂ htarget

/-- Claims stand by their rows when a row's attempt count does not fall. -/
theorem number_write {s : JobRun} {k : JobKey} {j' : BuildJob}
    (hs : ∀ c ∈ s.claims, ∃ j, s.table.jobs.get? c.key = some j ∧ c.number ≤ j.attempts)
    (hle : ∀ j, s.table.jobs.get? k = some j → j.attempts ≤ j'.attempts) {c : JobClaim}
    (hc : c ∈ s.claims) :
    ∃ j, (s.table.jobs.insert k j').get? c.key = some j ∧ c.number ≤ j.attempts := by
  obtain ⟨j, hrow, hnumber⟩ := hs c hc
  rw [SortedMap.get?_insert]
  split_ifs with hk
  · exact ⟨j', rfl, hnumber.trans (hle j (hk ▸ hrow))⟩
  · exact ⟨j, hrow, hnumber⟩

theorem Sound.enqueued {s : JobRun} (hs : s.Sound) {e : Enqueue}
    (hopen : s.table.openFor e.row = []) (hfresh : s.table.jobs.get? e.row.key = none) :
    Sound { s with table := ⟨s.table.jobs.insert e.row.key e.row⟩ } where
  key k j h := by
    rcases get?_write h with ⟨rfl, rfl⟩ | ⟨-, h⟩
    · rfl
    · exact hs.key k j h
  one := hs.one.write fun k₁ j₁ _ h₁ hopen₁ _ => openFor_eq_nil hopen h₁ hopen₁
  leased k j h hrunning := by
    rcases get?_write h with ⟨rfl, rfl⟩ | ⟨-, h⟩
    · cases hrunning
    · exact hs.leased k j h hrunning
  held k j h hrunning := by
    rcases get?_write h with ⟨rfl, rfl⟩ | ⟨-, h⟩
    · cases hrunning
    · exact hs.held k j h hrunning
  number c hc := number_write hs.number (fun j hj => by rw [hfresh] at hj; cases hj) hc

theorem Sound.claimed {s : JobRun} (hs : s.Sound) {nodeId : String}
    {leaseSecs maxAttempts now : ℤ} {locked : List JobKey} {j : BuildJob}
    (hnext : s.table.nextJob leaseSecs maxAttempts locked now = some j) :
    Sound { table := ⟨s.table.jobs.insert j.key (JobTable.claimed nodeId now j)⟩
            claims := s.claims ++ [⟨j.tenantId, j.jobId, nodeId, j.attempts + 1⟩] } := by
  obtain ⟨⟨k₀, hrow⟩, hoffered⟩ := nextJob_spec hnext
  obtain rfl := hs.key k₀ j hrow
  have hopen := offered_isOpen hoffered
  constructor
  · intro k j₁ h
    rcases get?_write h with ⟨rfl, rfl⟩ | ⟨-, h⟩
    · rfl
    · exact hs.key k j₁ h
  · apply hs.one.write
    intro k₁ j₁ hk₁ h₁ hopen₁ _ htarget
    exact hk₁ (hs.one k₁ j.key j₁ j h₁ hrow hopen₁ hopen htarget)
  · intro k j₁ h hrunning
    rcases get?_write h with ⟨rfl, rfl⟩ | ⟨-, h⟩
    · rfl
    · exact hs.leased k j₁ h hrunning
  · intro k j₁ h hrunning
    rcases get?_write h with ⟨rfl, rfl⟩ | ⟨-, h⟩
    · exact ⟨_, List.mem_append_right _ (List.mem_singleton_self _), rfl, rfl, rfl⟩
    · obtain ⟨c, hc, hheld⟩ := hs.held k j₁ h hrunning
      exact ⟨c, List.mem_append_left _ hc, hheld⟩
  · intro c hc
    rcases List.mem_append.mp hc with hc | hc
    · apply number_write hs.number _ hc
      intro j₁ h₁
      rw [hrow] at h₁
      obtain rfl := Option.some.inj h₁
      exact Nat.le_succ _
    · rw [List.mem_singleton.mp hc]
      exact ⟨_, SortedMap.get?_insert_self _ _ _, le_rfl⟩

theorem Sound.touched {s : JobRun} (hs : s.Sound) {k : JobKey} {j j' : BuildJob}
    (hrow : s.table.jobs.get? k = some j) (hopen : j.state.isOpen) (htouched : Touched j j') :
    Sound { s with table := ⟨s.table.jobs.insert k j'⟩ } where
  key k₁ j₁ h := by
    rcases get?_write h with ⟨rfl, rfl⟩ | ⟨-, h⟩
    · exact htouched.key.trans (hs.key k₁ j hrow)
    · exact hs.key k₁ j₁ h
  one := by
    apply hs.one.write
    intro k₁ j₁ hk₁ h₁ hopen₁ _ htarget
    exact hk₁ (hs.one k₁ k j₁ j h₁ hrow hopen₁ hopen (htarget.trans htouched.target))
  leased k₁ j₁ h hrunning := by
    rcases get?_write h with ⟨rfl, rfl⟩ | ⟨-, h⟩
    · rcases htouched.state with ⟨-, -, hleased⟩ | hclosed
      · exact hleased
      · rw [hrunning] at hclosed
        cases hclosed
    · exact hs.leased k₁ j₁ h hrunning
  held k₁ j₁ h hrunning := by
    rcases get?_write h with ⟨rfl, rfl⟩ | ⟨-, h⟩
    · rcases htouched.state with ⟨-, hwas, -⟩ | hclosed
      · obtain ⟨c, hc, hkey, hnode, hnumber⟩ := hs.held k₁ j hrow hwas
        exact ⟨c, hc, hkey, htouched.claimedBy.trans hnode, hnumber.trans htouched.attempts.symm⟩
      · rw [hrunning] at hclosed
        cases hclosed
    · exact hs.held k₁ j₁ h hrunning
  number c hc := by
    apply number_write hs.number _ hc
    intro j₁ h₁
    rw [hrow] at h₁
    obtain rfl := Option.some.inj h₁
    exact htouched.attempts.ge

theorem Sound.step {s : JobRun} (hs : s.Sound) (e : JobEvent) : (s.step e).Sound := by
  have hchange := change_step s e
  generalize s.step e = s' at hchange
  cases hchange with
  | same => exact hs
  | enqueued hopen hfresh => exact hs.enqueued hopen hfresh
  | claimed hnext => exact hs.claimed hnext
  | touched hrow hopen htouched => exact hs.touched hrow hopen htouched

/-- A row in a terminal state stays as it is. -/
theorem Sound.terminal_step {s : JobRun} (hs : s.Sound) (e : JobEvent) {k : JobKey}
    {j : BuildJob} (hrow : s.table.jobs.get? k = some j) (hclosed : j.state.isOpen = false) :
    (s.step e).table.jobs.get? k = some j := by
  have hwrite {k' : JobKey} {j₁ j' : BuildJob} (hrow' : s.table.jobs.get? k' = some j₁)
      (hopen : j₁.state.isOpen) : (s.table.jobs.insert k' j').get? k = some j := by
    rw [SortedMap.get?_insert_of_ne, hrow]
    rintro rfl
    rw [hrow] at hrow'
    obtain rfl := Option.some.inj hrow'
    rw [hclosed] at hopen
    cases hopen
  have hchange := change_step s e
  generalize s.step e = s' at hchange
  cases hchange with
  | same => exact hrow
  | @enqueued e _ hfresh =>
    show (s.table.jobs.insert _ _).get? k = some j
    rw [SortedMap.get?_insert_of_ne, hrow]
    rintro rfl
    rw [hfresh] at hrow
    cases hrow
  | claimed hnext =>
    obtain ⟨⟨k₀, hrow₀⟩, hoffered⟩ := nextJob_spec hnext
    obtain rfl := hs.key k₀ _ hrow₀
    exact hwrite hrow₀ (offered_isOpen hoffered)
  | touched hrow' hopen _ => exact hwrite hrow' hopen

/-- The claim's node has not claimed the job again. -/
def NotReclaimed (s : JobRun) (c : JobClaim) : Prop :=
  ∀ c' ∈ s.claims, c'.key = c.key → c'.nodeId = c.nodeId → c'.number ≤ c.number

/-- The claim holds the job. -/
def Holds (s : JobRun) (c : JobClaim) : Prop :=
  ∃ j, s.table.jobs.get? c.key = some j ∧ j.state = .running ∧ j.claimedBy = some c.nodeId ∧
    j.attempts = c.number

/-- A recorded completion is the holder's exactly when its node has not claimed again. -/
theorem Sound.complete_holds {s : JobRun} (hs : s.Sound) {c : JobClaim} (hc : c ∈ s.claims)
    {outcome : Except String Json} {attemptId : Option String}
    (hrecorded : (s.table.complete c.tenantId c.jobId c.nodeId outcome attemptId).1 = true) :
    s.Holds c ↔ s.NotReclaimed c := by
  rw [JobTable.complete, JobTable.updateWhere] at hrecorded
  split at hrecorded
  · rename_i j hrow
    split_ifs at hrecorded with hmet
    · obtain ⟨hrunning, hnode⟩ := heldBy_iff.mp hmet
      have hle {c' : JobClaim} (hc' : c' ∈ s.claims) (hkey : c'.key = c.key) :
          c'.number ≤ j.attempts := by
        obtain ⟨j', hrow', hnumber⟩ := hs.number c' hc'
        rw [hkey, show c.key = toLex (c.tenantId, c.jobId) from rfl, hrow] at hrow'
        obtain rfl := Option.some.inj hrow'
        exact hnumber
      constructor
      · rintro ⟨j', hrow', -, -, hnumber⟩ c' hc' hkey -
        rw [show c.key = toLex (c.tenantId, c.jobId) from rfl, hrow] at hrow'
        obtain rfl := Option.some.inj hrow'
        rw [← hnumber]
        exact hle hc' hkey
      · intro hlast
        refine ⟨j, hrow, hrunning, hnode, ?_⟩
        -- the claim that the row names is of this node, so it is not after this one
        obtain ⟨c', hc', hkey, hnode', hnumber⟩ := hs.held _ j hrow hrunning
        have hsame : c'.nodeId = c.nodeId := Option.some.inj (hnode'.symm.trans hnode)
        have hbefore := hlast c' hc' hkey hsame
        have hafter := hle hc rfl
        omega
  · cases hrecorded

/-- Every open job is pending, leased, or offered to a claim. -/
def Served (leaseSecs ceiling now : ℤ) (s : JobRun) : Prop :=
  ∀ k j, s.table.jobs.get? k = some j → j.state.isOpen →
    j.state = .pending ∨ (∃ t, j.claimedAt = some t ∧ now - leaseSecs * 1000000 ≤ t) ∨
      j.offered leaseSecs ceiling now

/-- No running job has been claimed up to the ceiling. -/
def Below (ceiling : ℤ) (s : JobRun) : Prop :=
  ∀ k j, s.table.jobs.get? k = some j → j.state = .running → (j.attempts : ℤ) < ceiling

/-- Jobs are served at every time and lease exactly when they stay below the ceiling. -/
theorem Sound.served_iff_below {s : JobRun} (hs : s.Sound) {ceiling : ℤ} :
    (∀ leaseSecs now, s.Served leaseSecs ceiling now) ↔ s.Below ceiling := by
  constructor
  · intro hserved k j hrow hrunning
    obtain ⟨t, ht⟩ := Option.isSome_iff_exists.mp (hs.leased k j hrow hrunning)
    rcases hserved 0 (t + 1) k j hrow (by rw [hrunning]; rfl) with hpending | ⟨t', ht', hle⟩ | hoff
    · rw [hrunning] at hpending
      cases hpending
    · rw [ht] at ht'
      have hsame := Option.some.inj ht'
      omega
    · have hlapsed : t < t + 1 ∧ (j.attempts : ℤ) < ceiling := by
        simpa [BuildJob.offered, hrunning, BuildJob.lapsed, ht] using hoff
      exact hlapsed.2
  · intro hbelow leaseSecs now k j hrow hopen
    cases hstate : j.state with
    | pending => exact .inl rfl
    | running =>
      obtain ⟨t, ht⟩ := Option.isSome_iff_exists.mp (hs.leased k j hrow hstate)
      have hlt := hbelow k j hrow hstate
      by_cases hlapsed : t < now - leaseSecs * 1000000
      · exact .inr (.inr (by simp [BuildJob.offered, hstate, BuildJob.lapsed, ht, hlapsed, hlt]))
      · exact .inr (.inl ⟨t, ht, not_lt.mp hlapsed⟩)
    | succeeded => rw [hstate] at hopen; cases hopen
    | failed => rw [hstate] at hopen; cases hopen
    | cancelled => rw [hstate] at hopen; cases hopen

/-- No claim takes a job up to the ceiling. -/
def SparesAttempt (ceiling : ℤ) (s : JobRun) : JobEvent → Prop
  | .claimAny _ leaseSecs maxAttempts locked now =>
      ∀ j, s.table.nextJob leaseSecs maxAttempts locked now = some j →
        (j.attempts : ℤ) + 1 < ceiling
  | _ => True

theorem Below.step {s : JobRun} {ceiling : ℤ} (hbelow : s.Below ceiling)
    {e : JobEvent} (hok : s.SparesAttempt ceiling e) : (s.step e).Below ceiling := by
  have hchange := change_step s e
  generalize s.step e = s' at hchange
  cases hchange with
  | same => exact hbelow
  | enqueued _ _ =>
    intro k j h hrunning
    rcases get?_write h with ⟨rfl, rfl⟩ | ⟨-, h⟩
    · cases hrunning
    · exact hbelow k j h hrunning
  | claimed hnext =>
    intro k j h hrunning
    rcases get?_write h with ⟨rfl, rfl⟩ | ⟨-, h⟩
    · simpa [JobTable.claimed] using hok _ hnext
    · exact hbelow k j h hrunning
  | @touched _ k₀ j₀ j' hrow _ htouched =>
    intro k j h hrunning
    rcases get?_write h with ⟨rfl, rfl⟩ | ⟨-, h⟩
    · rcases htouched.state with ⟨-, hwas, -⟩ | hclosed
      · rw [htouched.attempts]
        exact hbelow k j₀ hrow hwas
      · rw [hrunning] at hclosed
        cases hclosed
    · exact hbelow k j h hrunning

/-- After a step every job is served exactly when the step spared an attempt. -/
theorem Sound.served_step {s : JobRun} (hs : s.Sound) {ceiling : ℤ} (hbelow : s.Below ceiling)
    (e : JobEvent) :
    (∀ leaseSecs now, (s.step e).Served leaseSecs ceiling now) ↔ s.SparesAttempt ceiling e := by
  rw [(hs.step e).served_iff_below]
  constructor
  · intro hafter
    cases e with
    | claimAny nodeId leaseSecs maxAttempts locked now =>
      intro j hnext
      have hrow : (s.step (.claimAny nodeId leaseSecs maxAttempts locked now)).table.jobs.get?
          j.key = some (JobTable.claimed nodeId now j) := by
        simp only [JobRun.step, JobTable.claimAny, hnext]
        exact SortedMap.get?_insert_self _ _ _
      simpa [JobTable.claimed] using hafter _ _ hrow rfl
    | enqueue e => trivial
    | heartbeat tenantId jobId nodeId now => trivial
    | complete i outcome attemptId => trivial
    | cancel tenantId jobId => trivial
  · exact hbelow.step

/-- In every run a target has one open job and a terminal row never changes, and a recorded
completion is the holder's exactly when its node has not claimed the job again. Where no claim
takes a job up to the ceiling, every open job is pending, leased or offered; and a claim that
does ends this. -/
theorem build_jobs_are_leases {s : JobRun} (hreach : Reached step anyLabel {} s) :
    s.OneOpenPerTarget ∧
      (∀ e k j, s.table.jobs.get? k = some j → j.state.isOpen = false →
        (s.step e).table.jobs.get? k = some j) ∧
      (∀ c ∈ s.claims, ∀ outcome attemptId,
        (s.table.complete c.tenantId c.jobId c.nodeId outcome attemptId).1 = true →
          (s.Holds c ↔ s.NotReclaimed c)) ∧
      ∀ ceiling, Reached step (SparesAttempt ceiling) {} s →
        (∀ leaseSecs now, s.Served leaseSecs ceiling now) ∧
          ∀ e, (∀ leaseSecs now, (s.step e).Served leaseSecs ceiling now) ↔
            s.SparesAttempt ceiling e := by
  have hs : s.Sound := hreach.invariant sound_empty fun _ e hs _ => hs.step e
  refine ⟨hs.one, fun e k j => hs.terminal_step e, fun c hc _ _ => hs.complete_holds hc, ?_⟩
  intro ceiling hspared
  have hbelow : s.Below ceiling := by
    apply hspared.invariant
    · intro k j h
      simp at h
    · intro s e hbelow hok
      exact hbelow.step hok
  exact ⟨hs.served_iff_below.mpr hbelow, hs.served_step hbelow⟩

end JobRun

section Runs
open JobRun

def rebuildOne : Enqueue := ⟨"t", .rebuild, .version "idx-1", .null, "ops", none, "bjob-1", 0⟩

/-- One job, claimed at a time by a node under a lease of ten minutes. -/
def claimOne (nodeId : String) (now : ℤ) : JobEvent := .claimAny nodeId 600 3 [] now

def playJobs (events : List JobEvent) : JobRun := events.foldl JobRun.step {}

theorem build_jobs_are_leases_once :
    (∀ leaseSecs now, (playJobs [.enqueue rebuildOne, claimOne "n" 0]).Served leaseSecs 3 now) ∧
      (playJobs [.enqueue rebuildOne, claimOne "n" 0]).OneOpenPerTarget := by
  have hlaws := build_jobs_are_leases
    (Reached.of_labels JobRun.step {} [.enqueue rebuildOne, claimOne "n" 0])
  refine ⟨(hlaws.2.2.2 3 (Reached.of_meets ⟨trivial, ?_, trivial⟩)).1, hlaws.1⟩
  intro j hnext
  obtain rfl : rebuildOne.row = j := Option.some.inj hnext
  decide

/-- Three claims, ten minutes and more apart. -/
def thriceClaimed : JobRun :=
  playJobs [.enqueue rebuildOne, claimOne "n" 0, claimOne "n" 700000000, claimOne "m" 1400000000]

/-- One job, claimed twice by one node. -/
def twiceClaimed : JobRun :=
  playJobs [.enqueue rebuildOne, claimOne "n" 0, claimOne "n" 700000000]

theorem lapsed_claims_complete_and_block :
    (Reached JobRun.step anyLabel {} twiceClaimed ∧
      ∃ c ∈ twiceClaimed.claims,
        (twiceClaimed.table.complete c.tenantId c.jobId c.nodeId (.ok .null) none).1 = true ∧
          ¬twiceClaimed.Holds c) ∧
    Reached JobRun.step anyLabel {} thriceClaimed ∧
      ¬thriceClaimed.Served 600 3 2100000000 ∧
      (thriceClaimed.table.enqueue { rebuildOne with jobId := "bjob-2", now := 2100000000 }).1 =
        .ok (.alreadyOpen "bjob-1") := by
  obtain ⟨hfirst, hdone, htwice, hopen⟩ :
      (⟨"t", "bjob-1", "n", 1⟩ : JobClaim) ∈ twiceClaimed.claims ∧
      (twiceClaimed.table.complete "t" "bjob-1" "n" (.ok .null) none).1 = true ∧
      (twiceClaimed.table.jobs.get? (toLex ("t", "bjob-1"))).map BuildJob.attempts = some 2 ∧
      (thriceClaimed.table.enqueue { rebuildOne with jobId := "bjob-2", now := 2100000000 }).1 =
        .ok (.alreadyOpen "bjob-1") := by decide +kernel
  refine ⟨⟨Reached.of_labels _ _ _, _, hfirst, hdone, ?_⟩, Reached.of_labels _ _ _, ?_, hopen⟩
  · rintro ⟨j, hrow, -, -, hnumber⟩
    rw [show twiceClaimed.table.jobs.get? (toLex ("t", "bjob-1")) = some j from hrow,
      Option.map_some, hnumber] at htwice
    exact absurd htwice (by decide)
  · intro hserved
    have hrow : ((thriceClaimed.table.jobs.get? (toLex ("t", "bjob-1"))).any fun j =>
        j.state == .running && j.claimedAt == some 1400000000 &&
          !j.offered 600 3 2100000000) = true := by decide +kernel
    rw [Option.any_eq_true] at hrow
    obtain ⟨j, hget, hfacts⟩ := hrow
    simp only [Bool.and_eq_true, beq_iff_eq, Bool.not_eq_true'] at hfacts
    obtain ⟨⟨hrunning, hclaimed⟩, hnot⟩ := hfacts
    rcases hserved _ j hget (by rw [hrunning]; rfl) with hpending | ⟨t, ht, hle⟩ | hoffered
    · rw [hrunning] at hpending
      cases hpending
    · rw [hclaimed] at ht
      have hsame := Option.some.inj ht
      omega
    · rw [hnot] at hoffered
      cases hoffered

end Runs
end Munarium

import Munarium.Platform.ActionRows
import Munarium.Platform.Transaction

/-! Runs of the action ledger: archives, appends and activations by any callers, each under
a policy of its own, interleave with each other and with other writers of the store, and
every record of the ledger stands on what it needs. -/
namespace Munarium

namespace PlatformAction

section
variable [SerdeJson] [Sha256] [ActionSchema]

/-- What every run keeps of the rows of the ledger's version. -/
structure Orderly (rows : List Claim) : Prop where
  plain : ∀ c ∈ rows, c.supersedesId = none
  accepted : ∀ c ∈ rows, c.subject ∈ reserved → c.status = .accepted
  readable : ∀ c ∈ rows, isRecord c = true → ∃ e, readEntry c = some e
  ledgered : Ledgered (logOf rows)
  enrolled : (rows.filter isEnrollment).length ≤ 1

/-- A claim that may join the rows: it supersedes nothing, and on a reserved subject it is
accepted and readable. -/
structure Filed (m : NewClaim) : Prop where
  plain : m.supersedesId = none
  accepted : m.subject ∈ reserved → m.status = .accepted
  readable : m.subject = ARTIFACTS ∨ m.subject = EVENTS → ∃ e, newEntry m = some e

omit [Sha256] [ActionSchema] in
theorem Records.filed {m : NewClaim} {e : Entry} (h : Records m e) : Filed m :=
  ⟨h.plain, fun _ => h.accepted, fun _ => ⟨e, h.entry⟩⟩

omit [Sha256] [ActionSchema] in
theorem filed_foreign {m : NewClaim} (hplain : m.supersedesId = none)
    (hforeign : m.subject ∉ reserved) : Filed m := by
  refine ⟨hplain, fun h => absurd h hforeign, ?_⟩
  intro h
  rcases h with h | h
  · exact absurd (by simp [h, reserved]) hforeign
  · exact absurd (by simp [h, reserved]) hforeign

omit [Sha256] [ActionSchema] in
theorem logOf_stampClaims [IdGenerator] (v : String) (seq n : ℕ) (batch : List NewClaim) :
    logOf (State.stampClaims v seq n batch) = batch.filterMap newEntry := by
  induction batch generalizing seq n with
  | nil => rfl
  | cons m rest ih =>
    show (State.storedClaim v seq n m :: State.stampClaims v (seq + 1) (n + 1) rest).filterMap
      readEntry = _
    rw [List.filterMap_cons, List.filterMap_cons]
    have hsame : readEntry (State.storedClaim v seq n m) = newEntry m := rfl
    rw [hsame]
    cases newEntry m with
    | none => exact ih (seq + 1) (n + 1)
    | some e => exact congrArg (e :: ·) (ih (seq + 1) (n + 1))

/-- Filed claims that the log admits leave the rows orderly. -/
theorem Orderly.append [IdGenerator] {rows : List Claim} (h : Orderly rows) {v : String}
    {seq n : ℕ} {batch : List NewClaim} (hfiled : ∀ m ∈ batch, Filed m)
    (hledgered : Ledgered (logOf rows ++ batch.filterMap newEntry))
    (henrolled : ((rows ++ State.stampClaims v seq n batch).filter isEnrollment).length ≤ 1) :
    Orderly (rows ++ State.stampClaims v seq n batch) := by
  have hjoin {P : Claim → Prop} (hold : ∀ c ∈ rows, P c)
      (hnew : ∀ m ∈ batch, ∀ i j, P (State.storedClaim v i j m)) :
      ∀ c ∈ rows ++ State.stampClaims v seq n batch, P c := by
    intro c hc
    rcases List.mem_append.mp hc with hc | hc
    · exact hold c hc
    · obtain ⟨m, hm, i, j, rfl⟩ := exists_of_mem_stampClaims hc
      exact hnew m hm i j
  refine ⟨?_, ?_, ?_, ?_, henrolled⟩
  · exact hjoin h.plain fun m hm _ _ => (hfiled m hm).plain
  · exact hjoin h.accepted fun m hm _ _ => (hfiled m hm).accepted
  · apply hjoin h.readable
    intro m hm i j hrecord
    apply (hfiled m hm).readable
    simpa [isRecord, State.storedClaim] using hrecord
  · rwa [logOf_append, logOf_stampClaims]

omit [SerdeJson] [Sha256] [ActionSchema] in
theorem filter_enrollment_append [IdGenerator] {rows : List Claim} {v : String} {seq n : ℕ}
    {batch : List NewClaim} (h : ∀ m ∈ batch, m.subject ≠ ENROLLMENT) :
    (rows ++ State.stampClaims v seq n batch).filter isEnrollment = rows.filter isEnrollment := by
  rw [List.filter_append, List.append_right_eq_self, List.filter_eq_nil_iff]
  intro c hc
  obtain ⟨m, hm, i, j, rfl⟩ := exists_of_mem_stampClaims hc
  simpa [isEnrollment, State.storedClaim] using h m hm

theorem Orderly.record [IdGenerator] {rows : List Claim} (h : Orderly rows) {v : String}
    {seq n : ℕ} {m : NewClaim} {e : Entry} (hm : Records m e) (he : Admits (logOf rows) e) :
    Orderly (rows ++ State.stampClaims v seq n [m]) := by
  apply h.append
  · intro m' hm'
    obtain rfl := List.mem_singleton.mp hm'
    exact hm.filed
  · rw [List.filterMap_cons_some hm.entry, List.filterMap_nil]
    exact .snoc h.ledgered he
  · rw [filter_enrollment_append]
    · exact h.enrolled
    · intro m' hm'
      obtain rfl := List.mem_singleton.mp hm'
      exact hm.foreign

omit [SerdeJson] [Sha256] [ActionSchema] in
theorem reserved_of_isRecord {c : Claim} (h : isRecord c = true) : c.subject ∈ reserved := by
  simp only [isRecord, Bool.or_eq_true, beq_iff_eq] at h
  rcases h with h | h
  · simp [h, reserved]
  · simp [h, reserved]

/-- Readers of some of the rows see all of them that are on reserved subjects. -/
theorem Orderly.slice {rows part : List Claim} (h : Orderly rows) (hpart : part ⊆ rows)
    {p : Claim → Bool} (hp : ∀ c, p c = true → c.subject ∈ reserved) :
    (acceptedSlice part).filter p = part.filter p := by
  apply acceptedSlice_filter fun c hc => h.plain c (hpart hc)
  intro c hc hkind
  exact h.accepted c (hpart hc) (hp c hkind)

theorem Orderly.record_slice {rows : List Claim} (h : Orderly rows) :
    (acceptedSlice rows).filter isRecord = rows.filter isRecord :=
  h.slice (List.Subset.refl rows) fun _ => reserved_of_isRecord

/-- Readers of the version see the whole log. -/
theorem Orderly.log_slice {rows : List Claim} (h : Orderly rows) :
    logOf (acceptedSlice rows) = logOf rows := by
  rw [← logOf_filter (acceptedSlice rows), h.record_slice, logOf_filter]

theorem Orderly.enrollment_slice {rows : List Claim} (h : Orderly rows) :
    (acceptedSlice rows).filter isEnrollment = rows.filter isEnrollment := by
  apply h.slice (List.Subset.refl rows)
  intro c hpinned
  have hsubject : c.subject = ENROLLMENT := by simpa [isEnrollment] using hpinned
  simp [hsubject, reserved]

variable [Platform] [IdGenerator]

structure Kept (v : String) (s : State) : Prop where
  root : RootVersion v s
  orderly : Orderly (s.claims v)

def Keeps (v : String) (s t : State) : Prop := Kept v s → Kept v t ∧ Later v s t

theorem rely (v : String) : Rely v (Kept v) (Keeps v) := rely_of_invariant fun _ h => h.root

/-- A transaction whose appends leave the rows orderly keeps the ledger. -/
theorem retryAtHead_keeps [Unicode] {α : Type} {v : String} {contention : KernelError}
    {judge : ℕ → List Claim → Result (Verdict α)}
    (happend : ∀ rows head claim reply seq n, Orderly rows →
      judge head (acceptedSlice rows) = .ok (.append claim reply) →
      Orderly (rows ++ State.stampClaims v seq n [claim]))
    (hsome : ∀ head facts claims reply,
      judge head facts = .ok (.appendAll claims reply) → claims ≠ [])
    (happendAll : ∀ rows head claims reply seq n, Orderly rows →
      judge head (acceptedSlice rows) = .ok (.appendAll claims reply) →
      Orderly (rows ++ State.stampClaims v seq n claims)) (n : ℕ) {s : State} (hs : Kept v s) :
    (retryAtHead v contention judge n).Ensures (Keeps v) (Keeps v) (fun _ _ => True) s := by
  apply (rely v).retryAtHead (rely v).refl (fun _ _ => trivial) (fun _ _ _ _ _ _ _ _ => trivial)
    _ hsome _ n hs
  · intro t t' head claim reply stored ht hjudge hx
    refine ⟨?_, fun _ _ => trivial⟩
    obtain ⟨hroot, hlater⟩ := ht.root.appendClaim hx
    obtain ⟨-, hstored, hrows⟩ := appendClaim_eq_ok hx
    subst hstored
    refine fun _ => ⟨⟨hroot, ?_⟩, hlater⟩
    rw [hrows]
    exact happend _ _ _ _ _ _ ht.orderly hjudge
  · intro t t' head claims reply stored ht hjudge hx
    refine ⟨?_, fun _ _ => trivial⟩
    obtain ⟨hroot, hlater⟩ := ht.root.appendClaims hx
    obtain ⟨-, hstored, hrows⟩ := appendClaims_eq_ok (hsome _ _ _ _ hjudge) hx
    subst hstored
    refine fun _ => ⟨⟨hroot, ?_⟩, hlater⟩
    rw [hrows]
    exact happendAll _ _ _ _ _ _ ht.orderly hjudge

/-- One call, each under the policy its caller holds. -/
inductive ActionCall where
  | archive (policy : ActionPolicy) (a : ActionAdmission) (raw : Bytes)
  | append (policy : ActionPolicy) (a : ActionAdmission) (raw : Bytes)
  | applyActivation (policy : ActionPolicy) (e : ActivationEnrollment) (t : Json)
      (proof : ActivationEvidence)

def program (v : String) : ActionCall → Shared State (Result Json)
  | .archive policy a raw => ActionLedger.archive { version := v, policy := policy } a raw
  | .append policy a raw => ActionLedger.append { version := v, policy := policy } a raw
  | .applyActivation policy e t proof =>
      ActionLedger.applyActivation { version := v, policy := policy } e t proof

section Promises
variable [Unicode]

theorem archive_keeps (l : ActionLedger) (a : ActionAdmission) (raw : Bytes) {s : State}
    (hs : Kept l.version s) :
    (l.archive a raw).Ensures (Keeps l.version) (Keeps l.version) (fun _ _ => True) s := by
  unfold ActionLedger.archive
  cases hprepared : l.prepareArchive a raw with
  | error e => exact fun t _ => trivial
  | ok prepared =>
    obtain ⟨value, kind, digest⟩ := prepared
    apply retryAtHead_keeps _ _ _ 32 hs
    · intro rows head claim reply seq n hrows hjudge
      obtain ⟨hadmits, hrecords, -⟩ := judgeArchive_append hprepared hjudge
      rw [hrows.log_slice] at hadmits
      exact hrows.record hrecords hadmits
    · exact fun _ _ _ _ hjudge => absurd hjudge judgeArchive_not_appendAll
    · exact fun _ _ _ _ _ _ _ hjudge => absurd hjudge judgeArchive_not_appendAll

theorem append_keeps (l : ActionLedger) (a : ActionAdmission) (raw : Bytes) {s : State}
    (hs : Kept l.version s) :
    (l.append a raw).Ensures (Keeps l.version) (Keeps l.version) (fun _ _ => True) s := by
  unfold ActionLedger.append
  cases hprepared : l.prepareAppend a raw with
  | error e => exact fun t _ => trivial
  | ok prepared =>
    obtain ⟨event, digest, recovery⟩ := prepared
    apply retryAtHead_keeps _ _ _ 32 hs
    · intro rows head claim reply seq n hrows hjudge
      have hlog : Ledgered (logOf (acceptedSlice rows)) := by
        rw [hrows.log_slice]
        exact hrows.ledgered
      obtain ⟨hadmits, hrecords⟩ := judgeAppend_append hlog hprepared hjudge
      rw [hrows.log_slice] at hadmits
      exact hrows.record hrecords hadmits
    · exact fun _ _ _ _ hjudge => absurd hjudge judgeAppend_not_appendAll
    · exact fun _ _ _ _ _ _ _ hjudge => absurd hjudge judgeAppend_not_appendAll

omit [Platform] [Unicode] in
/-- The enrollment joins rows that have none. -/
theorem Orderly.enroll {rows : List Claim} (h : Orderly rows)
    (hnone : rows.filter isEnrollment = []) {v : String} {seq n : ℕ} {content : String} :
    Orderly (rows ++ State.stampClaims v seq n [.fact ENROLLMENT "initial" content]) := by
  have hentry : newEntry (.fact ENROLLMENT "initial" content) = none := by
    simp [newEntry, entryOf, NewClaim.fact, ENROLLMENT, ARTIFACTS, EVENTS]
  apply h.append
  · intro m hm
    obtain rfl := List.mem_singleton.mp hm
    refine ⟨rfl, fun _ => rfl, ?_⟩
    simp [NewClaim.fact, ENROLLMENT, ARTIFACTS, EVENTS]
  · rw [List.filterMap_cons_none hentry, List.filterMap_nil, List.append_nil]
    exact h.ledgered
  · rw [List.filter_append, hnone, List.nil_append]
    exact List.length_filter_le _ _

theorem initializeActivation_keeps (l : ActionLedger) (e : ActivationEnrollment) {s : State}
    (hs : Kept l.version s) : (l.initializeActivation e).Ensures (Keeps l.version)
      (Keeps l.version) (fun _ _ => True) s := by
  unfold ActionLedger.initializeActivation
  cases l.activationEnrollment e with
  | error e => exact fun t _ => trivial
  | ok value =>
    apply retryAtHead_keeps _ _ _ 32 hs
    · intro rows head claim reply seq n hrows hjudge
      obtain ⟨hnone, content, -, rfl⟩ := judgeEnrollment_append hjudge
      rw [hrows.enrollment_slice] at hnone
      exact hrows.enroll hnone
    · exact fun _ _ _ _ hjudge => absurd hjudge judgeEnrollment_not_appendAll
    · exact fun _ _ _ _ _ _ _ hjudge => absurd hjudge judgeEnrollment_not_appendAll

omit [Platform] [Unicode] in
/-- The rows of an activation that goes through leave the ledger orderly. -/
theorem Orderly.activate [StreamSchema] [SerdeRoundTrip] {rows : List Claim} (h : Orderly rows)
    {l : ActionLedger} {e : ActivationEnrollment} {t r : Json} {proof : ActivationEvidence}
    {digest : String} {stream : StreamRegistration} {head : ℕ} {claims : List NewClaim}
    {reply : Result Json} (hprepared : l.prepareActivation e t proof = .ok (r, digest, stream))
    (hjudge : l.judgeApply e t proof r digest stream head (acceptedSlice rows) =
      .ok (.appendAll claims reply)) {v : String} {seq n : ℕ} :
    Orderly (rows ++ State.stampClaims v seq n claims) := by
  have hlog : Ledgered (logOf (acceptedSlice rows)) := by
    rw [h.log_slice]
    exact h.ledgered
  obtain ⟨hledgered, hclaims⟩ := judgeApply_appendAll hlog hprepared hjudge
  rw [h.log_slice] at hledgered
  apply h.append _ hledgered
  · rw [filter_enrollment_append]
    · exact h.enrolled
    · intro m hm
      rcases hclaims m hm with ⟨entry, hentry⟩ | ⟨happlied, -, -⟩
      · exact hentry.foreign
      · simp [happlied, APPLIED, ENROLLMENT]
  · intro m hm
    rcases hclaims m hm with ⟨entry, hentry⟩ | ⟨happlied, hplain, haccepted⟩
    · exact hentry.filed
    · refine ⟨hplain, fun _ => haccepted, ?_⟩
      simp [happlied, APPLIED, ARTIFACTS, EVENTS]

theorem applyActivation_keeps [StreamSchema] [SerdeRoundTrip] (l : ActionLedger)
    (e : ActivationEnrollment) (t : Json) (proof : ActivationEvidence) {s : State}
    (hs : Kept l.version s) : (l.applyActivation e t proof).Ensures (Keeps l.version)
      (Keeps l.version) (fun _ _ => True) s := by
  unfold ActionLedger.applyActivation
  apply Shared.Ensures.bind (rely l.version).refl
  have hinit := (initializeActivation_keeps l e hs).kept (rely l.version).keeps
    (fun _ _ h => h) hs
  apply hinit.weaken (fun _ _ h => h)
  rintro (e | _) u ⟨-, hu⟩
  · exact fun _ _ => trivial
  show (onOk _ (l.prepareActivation _ t proof)).Ensures _ _ _ _
  cases hprepared : l.prepareActivation e t proof with
  | error e => exact fun _ _ => trivial
  | ok prepared =>
    obtain ⟨r, digest, stream⟩ := prepared
    apply retryAtHead_keeps _ _ _ 32 hu
    · intro rows head claim reply seq n hrows hjudge
      rcases judgeApply_verdict hjudge with hreply | ⟨claims, -, hbatch⟩
      · cases hreply
      · cases hbatch
    · intro head facts claims reply hjudge
      rcases judgeApply_verdict hjudge with hreply | ⟨claims', hne, hbatch⟩
      · cases hreply
      · cases hbatch
        exact hne
    · exact fun rows head claims reply seq n hrows hjudge => hrows.activate hprepared hjudge

/-- The other writers of the store: any command that stores nothing on the ledger's subjects
in its version and supersedes nothing there. -/
def Outside (v : String) (f : State → State) : Prop :=
  ∃ c : Command, f = (fun s => c.step s) ∧ (c.claimTarget = some v →
    ∀ m ∈ c.newClaims, m.subject ∉ reserved ∧ m.supersedesId = none)

theorem Outside.keeps {v : String} {f : State → State} (hf : Outside v f) {s : State}
    (h : Kept v s) : Kept v (f s) ∧ Later v s (f s) := by
  obtain ⟨c, rfl, hc⟩ := hf
  have he := Command.step_effect s c
  refine ⟨⟨h.root.effect he, ?_⟩, he.later h.root.sound v⟩
  rcases c.step_rows s v with hsame | ⟨htarget, head, hrows⟩
  · rw [hsame]
    exact h.orderly
  · rw [hrows]
    have hentries : c.newClaims.filterMap newEntry = [] := by
      rw [List.filterMap_eq_nil_iff]
      intro m hm
      have hforeign := (hc htarget m hm).1
      simp only [reserved, List.mem_cons, not_or] at hforeign
      rw [newEntry, entryOf, if_neg hforeign.1, if_neg hforeign.2.1]
    apply h.orderly.append
    · intro m hm
      exact filed_foreign (hc htarget m hm).2 (hc htarget m hm).1
    · rw [hentries, List.append_nil]
      exact h.orderly.ledgered
    · rw [filter_enrollment_append]
      · exact h.orderly.enrolled
      · intro m hm hsubject
        exact (hc htarget m hm).1 (by simp [hsubject, reserved])

theorem bounds [StreamSchema] [SerdeRoundTrip] (v : String) :
    Pool.Bounds (program v) (Outside v) (Kept v) (Keeps v) (fun _ => Keeps v)
      (fun _ _ _ => True) where
  refl := (rely v).refl
  trans := (rely v).trans
  keeps := (rely v).keeps
  start r _ hs := by
    cases r with
    | archive policy a raw => exact archive_keeps { version := v, policy := policy } a raw hs
    | append policy a raw => exact append_keeps { version := v, policy := policy } a raw hs
    | applyActivation policy e t proof =>
      exact applyActivation_keeps { version := v, policy := policy } e t proof hs
  guarantee _ _ _ _ h := h
  outside _ hf _ _ := fun hs => hf.keeps hs

/-- The one row an activation pins before anything else. -/
def PinsEnrollment (v : String) (s t : State) : Prop := ∃ content head stored,
  s.appendClaim v (.fact ENROLLMENT "initial" content) (some head) = .ok (stored, t)

/-- What a call may change without an answer: an activation may pin the enrollment. -/
def Unanswered (v : String) (r : ActionCall) (s t : State) : Prop :=
  s = t ∨ ((∃ policy e transition proof, r = .applyActivation policy e transition proof) ∧
    PinsEnrollment v s t)

omit [Unicode] in
/-- Only an answered call changes the store, but for the enrollment. -/
theorem program_changes (v : String) (r : ActionCall) :
    (program v r).ChangesWith (Unanswered v r) fun a => ∃ j, a = .ok j := by
  have hW (s : State) : Unanswered v r s s := .inl rfl
  cases r with
  | archive policy a raw =>
    show (onOk _ (ActionLedger.prepareArchive _ a raw)).ChangesWith _ _
    cases hprepared : ActionLedger.prepareArchive { version := v, policy := policy } a raw with
    | error e => trivial
    | ok prepared =>
      obtain ⟨value, kind, digest⟩ := prepared
      apply retryAtHead_changes hW
      · intro head facts claim reply s stored t hjudge _
        exact .inr ((judgeArchive_append hprepared hjudge).2.2 stored)
      · exact fun _ _ _ _ hjudge => absurd hjudge judgeArchive_not_appendAll
  | append policy a raw =>
    show (onOk _ (ActionLedger.prepareAppend _ a raw)).ChangesWith _ _
    cases hprepared : ActionLedger.prepareAppend { version := v, policy := policy } a raw with
    | error e => trivial
    | ok prepared =>
      obtain ⟨event, digest, recovery⟩ := prepared
      apply retryAtHead_changes hW
      · intro head facts claim reply s stored t hjudge _
        exact .inr (judgeAppend_replies hprepared hjudge stored)
      · exact fun _ _ _ _ hjudge => absurd hjudge judgeAppend_not_appendAll
  | applyActivation policy e t proof =>
    apply Shared.ChangesWith.bind
    · show (onOk _ (ActionLedger.activationEnrollment _ e)).ChangesWith _ _
      cases ActionLedger.activationEnrollment { version := v, policy := policy } e with
      | error e => trivial
      | ok value =>
        apply retryAtHead_changes hW
        · intro head facts claim reply s stored t' hjudge happended
          obtain ⟨-, content, -, rfl⟩ := judgeEnrollment_append hjudge
          exact .inl (.inr ⟨⟨policy, e, t, proof, rfl⟩, content, head, stored, happended⟩)
        · exact fun _ _ _ _ hjudge => absurd hjudge judgeEnrollment_not_appendAll
    · rintro (e | _)
      · trivial
      show (onOk _ (ActionLedger.prepareActivation _ _ t proof)).ChangesWith _ _
      cases ActionLedger.prepareActivation { version := v, policy := policy } e t proof with
      | error e => trivial
      | ok prepared =>
        obtain ⟨r, digest, stream⟩ := prepared
        apply retryAtHead_changes hW
        · intro head facts claim reply s stored t' hjudge _
          rcases judgeApply_verdict hjudge with hreply | ⟨claims, -, hbatch⟩
          · cases hreply
          · cases hbatch
        · intro head facts claims reply hjudge
          rcases judgeApply_verdict hjudge with hreply | ⟨claims', -, hbatch⟩
          · cases hreply
          · cases hbatch
            exact ⟨r, rfl⟩

theorem kept_empty {v : String} {s : State} (h : Reachable s)
    (hroot : s.versions v = some none) (hempty : s.claims v = []) : Kept v s := by
  refine ⟨⟨h.sound, h.rowsSound, hroot⟩, ?_⟩
  rw [hempty]
  exact ⟨by simp, by simp, by simp, .nil, by simp⟩

omit [Unicode] [Sha256] [ActionSchema] in
/-- The enrollment is no record. -/
theorem PinsEnrollment.rows {v : String} {s t : State} (h : PinsEnrollment v s t) :
    ∃ c, t.claims v = s.claims v ++ [c] ∧ isEnrollment c = true ∧
      logOf (t.claims v) = logOf (s.claims v) := by
  obtain ⟨content, head, stored, happend⟩ := h
  obtain ⟨-, rfl, hrows⟩ := appendClaim_eq_ok happend
  refine ⟨_, hrows, by simp [isEnrollment, State.storedClaim, NewClaim.fact], ?_⟩
  have hnone : readEntry (State.storedClaim v (head + 1) s.issued
      (.fact ENROLLMENT "initial" content)) = none := by
    simp [readEntry, entryOf, State.storedClaim, NewClaim.fact, ENROLLMENT, ARTIFACTS, EVENTS]
  rw [hrows, logOf_append]
  simp [logOf, hnone]

omit [Unicode] in
/-- A pinned enrollment was the first one. -/
theorem PinsEnrollment.first {v : String} {s t : State} (h : PinsEnrollment v s t)
    (ht : Orderly (t.claims v)) : (s.claims v).filter isEnrollment = [] := by
  obtain ⟨c, hrows, hpinned, -⟩ := h.rows
  have hone := ht.enrolled
  rw [hrows, List.filter_append, List.filter_cons_of_pos hpinned, List.length_append] at hone
  apply List.eq_nil_of_length_eq_zero
  simp only [List.filter_nil, List.length_singleton] at hone
  omega

end Promises

end

section
attribute [local instance] asciiUnicode samplePlatform unaryIds

abbrev plainSha256 : Sha256 := tabledSha256 []

attribute [local instance] plainSha256

def sampleHash : String :=
  "sha256:6c932451b9102e17b8df2ed67d26bcf51493bb0bd6701e10a6805f3bccb2f4f0"

def samplePolicy : ActionPolicy where
  schemaVersion := 1
  profile := PROFILE
  scope := { domain := "d", tenant := "alpha", deployment := "dep", cell := "c" }
  streams := [
    { streamId := "gate", producer := "gate", service := "svc-gate", generation := 1,
      kinds := {"claim-created"} },
    { streamId := "council", producer := "council", service := "svc-council", generation := 1,
      kinds := {"approval-recorded"} },
    { streamId := "server", producer := "server", service := "svc-server", generation := 1,
      kinds := {"activation-applied"} }]
  readers := ∅
  recovery := []

def sampleAdmission : ActionAdmission where
  identity := { origin := "recorder", actor := "recorder", originKind := "service",
                principalDigest := sampleHash }
  service := "svc-gate"
  tenant := "alpha"
  deployment := "dep"
  now := 1000
  canRecord := true
  canRead := true

def sampleEnrollment : ActivationEnrollment where
  initialEpoch := 1
  initialArtifactSetDigest := sampleHash
  service := "svc-server"
  coordinator := "svc-council"
  streamId := "server"

def samplePin : Json := .object [("scope", samplePolicy.scope.value), ("initial_epoch", .int 1),
  ("initial_artifact_set_digest", .str sampleHash)]

/-- The digest a text has under an injective stand-in. -/
def sampleDigest (domain text : String) : String :=
  "sha256:" ++ sha256Hex (utf8 ("munarium:stage2:" ++ domain ++ ":v1") ++ [0] ++ utf8 text)

def sampleIntent : Json := .object [("actor", .str "worker"), ("attachments", .arr [])]

def sampleRequest : Json := .object
  [("type", .str "action-request"), ("operation", .object [("id", .str "op-1")]),
    ("attempt", .object [("id", .str "try-1")]), ("intent", sampleIntent),
    ("intent_digest", .str (sampleDigest "intent" "intent")),
    ("context", .object []), ("context_digest", .str (sampleDigest "context" "context"))]

abbrev sampleTexts : List (Json × String) :=
  [(samplePin, "pin"), (sampleIntent, "intent"), (.object [], "context"),
    (sampleRequest, "request")]

abbrev sampleSerde : SerdeJson := tabledSerde sampleTexts

abbrev sampleSchema : ActionSchema where
  isValid v := v == sampleRequest

attribute [local instance] sampleSerde sampleSchema

theorem sampleRoundTrip : SerdeRoundTrip where
  read_back _ _ h _ := tabledSerde_reads (by decide) (by decide) h

theorem sampleStreams : StreamSchema where
  stream v hv htype := by
    change (v == sampleRequest) = true at hv
    rw [beq_iff_eq] at hv
    subst hv
    exact absurd htype (by decide +kernel)

def sampleEvidence : ActivationEvidence where
  ratified := .null
  pause := .null
  gateHead := .null
  registryReceipt := .null
  registryHead := .null
  authorityRevision := ""
  now := 1000

/-- An activation that is no record at all is applied, and a request is archived. -/
def refusedActivation : List (Pool.Event State ActionCall) :=
  [.start (.applyActivation samplePolicy sampleEnrollment .null sampleEvidence),
    .advance 0, .advance 0, .advance 0]

def requestArchived : List (Pool.Event State ActionCall) :=
  [.start (.archive samplePolicy sampleAdmission (utf8 "request")), .advance 1, .advance 1,
    .advance 1]

def freshLedger : State := Command.run {} [.createVersion none none]

def afterRefusal : Pool State ActionCall (Result Json) :=
  Pool.play (program "memv-") { state := freshLedger } refusedActivation

def isRefused : Shared State (Result Json) → Bool
  | .done (.error _) => true
  | _ => false

def afterArchive : Pool State ActionCall (Result Json) :=
  Pool.play (program "memv-") { state := freshLedger } (refusedActivation ++ requestArchived)

end

end PlatformAction
end Munarium

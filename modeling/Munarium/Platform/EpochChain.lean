import Munarium.Platform.Enactment

/-! The applied activations of the ledger's rows form one chain: each starts from the epoch and
the artifact set of the one before it, the first one from the enrollment. -/
namespace Munarium

namespace PlatformAction
open PlatformRecord (MAX canonicalRecord canonicalRecord_ok)

/-- Where a transition starts: from the one applied before it, or from the initial head. -/
def StartsFrom (start : ℕ × String) (t : Json) : Option Json → Prop
  | none => t["prior_epoch"] = .int start.1 ∧ t["prior_artifact_set_digest"] = .str start.2
  | some last => t["prior_epoch"] = last["successor_epoch"] ∧
      t["prior_artifact_set_digest"] = last["artifact_set_digest"]

/-- A transition from one epoch to a later one. -/
def Advances (t : Json) : Prop :=
  ∃ prior successor : ℕ, t["prior_epoch"] = .int prior ∧ t["successor_epoch"] = .int successor ∧
    prior < successor

/-- A new transition that starts where the applied ones end. -/
structure Succeeds (start : ℕ × String) (before : List Json) (t : Json) : Prop where
  starts : StartsFrom start t before.getLast?
  advances : Advances t
  fresh : ∀ old ∈ before, old["transition"] ≠ t["transition"]

/-- Of two transitions the second one leads to a later epoch. -/
def EpochLt (a b : Json) : Prop :=
  ∃ m n : ℕ, a["successor_epoch"] = .int m ∧ b["successor_epoch"] = .int n ∧ m < n

theorem EpochLt.trans {a b c : Json} (hab : EpochLt a b) (hbc : EpochLt b c) : EpochLt a c := by
  obtain ⟨m, n, hm, hn, hlt⟩ := hab
  obtain ⟨n', k, hn', hk, hlt'⟩ := hbc
  have hsame : (n : ℤ) = n' := Json.int.inj (hn.symm.trans hn')
  exact ⟨m, k, hm, hk, by omega⟩

section Links
variable {start : ℕ × String} {ts : List Json}

/-- The epochs of a chain of transitions rise strictly. -/
theorem epochs_rise (h : Justified (Succeeds start) ts) : ts.Pairwise EpochLt := by
  induction h with
  | nil => exact .nil
  | @snoc before t hbefore hok ih =>
    rw [List.pairwise_append]
    refine ⟨ih, List.pairwise_singleton _ _, ?_⟩
    intro a ha b hb
    obtain rfl := List.mem_singleton.mp hb
    rcases List.eq_nil_or_concat before with rfl | ⟨init, last, rfl⟩
    · cases ha
    have hstarts := hok.starts
    rw [List.concat_eq_append, List.getLast?_concat] at hstarts
    obtain ⟨prior, successor, hprior, hsuccessor, hlt⟩ := hok.advances
    have hlast : EpochLt last b := ⟨prior, successor, hstarts.1 ▸ hprior, hsuccessor, hlt⟩
    rw [List.concat_eq_append] at ha ih
    rcases List.mem_append.mp ha with ha | ha
    · exact ((List.pairwise_append.mp ih).2.2 a ha last (List.mem_singleton_self _)).trans hlast
    · obtain rfl := List.mem_singleton.mp ha
      exact hlast

theorem initial_epoch_lt (h : Justified (Succeeds start) ts) :
    ∀ t ∈ ts, ∃ n : ℕ, t["successor_epoch"] = .int n ∧ start.1 < n := by
  induction h with
  | nil => simp
  | @snoc before t hbefore hok ih =>
    intro b hb
    rcases List.mem_append.mp hb with hb | hb
    · exact ih b hb
    obtain rfl := List.mem_singleton.mp hb
    obtain ⟨prior, successor, hprior, hsuccessor, hlt⟩ := hok.advances
    refine ⟨successor, hsuccessor, ?_⟩
    have hstarts := hok.starts
    rcases List.eq_nil_or_concat before with rfl | ⟨init, last, rfl⟩
    · have hsame : (start.1 : ℤ) = prior := Json.int.inj (hstarts.1.symm.trans hprior)
      omega
    · rw [List.concat_eq_append, List.getLast?_concat] at hstarts
      obtain ⟨n, hn, hless⟩ := ih last (by simp)
      have hsame : (prior : ℤ) = n := Json.int.inj ((hprior.symm.trans hstarts.1).trans hn)
      omega

theorem transition_inj (h : Justified (Succeeds start) ts) :
    ∀ a ∈ ts, ∀ b ∈ ts, a["transition"] = b["transition"] → a = b := by
  induction h with
  | nil => simp
  | @snoc before t hbefore hok ih =>
    intro a ha b hb hsame
    rcases List.mem_append.mp ha with ha | ha
    · rcases List.mem_append.mp hb with hb | hb
      · exact ih a ha b hb hsame
      · rw [List.mem_singleton.mp hb] at hsame
        exact absurd hsame (hok.fresh a ha)
    · rcases List.mem_append.mp hb with hb | hb
      · rw [List.mem_singleton.mp ha] at hsame
        exact absurd hsame.symm (hok.fresh b hb)
      · rw [List.mem_singleton.mp ha, List.mem_singleton.mp hb]

end Links

theorem asU64_eq {v : Json} {n : ℕ} (h : v.asU64 = some n) : v = .int n := by
  cases v with
  | int i =>
    simp only [Json.asU64] at h
    split_ifs at h with hroom
    cases h
    rw [Int.toNat_of_nonneg hroom.1]
  | _ => cases h

theorem number_eq {v : Json} {n : ℕ} (h : number v = .ok n) : v = .int n :=
  asU64_eq (number_ok h).1

/-- What the first activation starts from, as the enrollment's row has it. -/
def pinRecord (scope : Scope) (start : ℕ × String) : Json := .object
  [("scope", scope.value), ("initial_epoch", .int start.1),
    ("initial_artifact_set_digest", .str start.2)]

theorem pinRecord_start {scope scope' : Scope} {start start' : ℕ × String}
    (h : pinRecord scope start = pinRecord scope' start') : start = start' := by
  have hindex (scope : Scope) (start : ℕ × String) :
      (pinRecord scope start)["initial_epoch"] = .int start.1 ∧
        (pinRecord scope start)["initial_artifact_set_digest"] = .str start.2 :=
    ⟨Json.index_object (by simp) (by simp), Json.index_object (by simp) (by simp)⟩
  have hepoch : (.int start.1 : Json) = .int start'.1 := by
    rw [← (hindex scope start).1, h, (hindex scope' start').1]
  have hset : (.str start.2 : Json) = .str start'.2 := by
    rw [← (hindex scope start).2, h, (hindex scope' start').2]
  exact Prod.ext (Int.ofNat.inj (Json.int.inj hepoch)) (Json.str.inj hset)

theorem pinRecord_scope {scope scope' : Scope} {start start' : ℕ × String}
    (h : pinRecord scope start = pinRecord scope' start') : scope.value = scope'.value := by
  have hindex (scope : Scope) (start : ℕ × String) :
      (pinRecord scope start)["scope"] = scope.value := Json.index_object (by simp) (by simp)
  rw [← hindex scope start, h, hindex]

theorem activationEnrollment_ok {l : ActionLedger} {e : ActivationEnrollment} {value : Json}
    (h : l.activationEnrollment e = .ok value) :
    value = pinRecord l.policy.scope (e.initialEpoch, e.initialArtifactSetDigest) := by
  obtain ⟨⟨⟩, -, h⟩ := bind_eq_ok.mp h
  obtain ⟨stream', -, h⟩ := bind_eq_ok.mp h
  obtain ⟨⟨⟩, -, h⟩ := bind_eq_ok.mp h
  cases h
  rfl

/-- What an applied row records of an activation. -/
def appliedRecord (r : Json) : Json := .object [("receipt", r)]

theorem appliedRecord_receipt (r : Json) : (appliedRecord r)["receipt"] = r :=
  Json.index_object (by simp) (by simp)

theorem receiptOf_head (t : Json) (digest : String) :
    (receiptOf t "server" "applied" digest)["successor_epoch"] = t["successor_epoch"] ∧
      (receiptOf t "server" "applied" digest)["artifact_set_digest"] =
        t["artifact_set_digest"] := by
  unfold receiptOf
  constructor
  · exact Json.index_object (by simp) (by simp)
  · exact Json.index_object (by simp) (by simp)

section
variable [SerdeJson] [Sha256] [ActionSchema]

theorem receipt_ok {t r : Json} (h : receipt t = .ok r) : r["transition"] = t["transition"] ∧
    r["successor_epoch"] = t["successor_epoch"] ∧
    r["artifact_set_digest"] = t["artifact_set_digest"] := by
  obtain ⟨digest, -, h⟩ := bind_eq_ok.mp h
  obtain ⟨⟨⟩, -, h⟩ := bind_eq_ok.mp h
  cases h
  exact ⟨(receiptOf_index t digest).1, receiptOf_head t digest⟩

theorem prepareActivation_receipt {l : ActionLedger} {e : ActivationEnrollment} {t r : Json}
    {proof : ActivationEvidence} {digest : String} {stream : StreamRegistration}
    (h : l.prepareActivation e t proof = .ok (r, digest, stream)) : receipt t = .ok r := by
  obtain ⟨⟨⟩, -, h⟩ := bind_eq_ok.mp h
  obtain ⟨⟨⟩, -, h⟩ := bind_eq_ok.mp h
  obtain ⟨⟨⟩, -, h⟩ := bind_eq_ok.mp h
  obtain ⟨digest', -, h⟩ := bind_eq_ok.mp h
  obtain ⟨⟨⟩, -, h⟩ := bind_eq_ok.mp h
  obtain ⟨start, -, h⟩ := bind_eq_ok.mp h
  obtain ⟨⟨⟩, -, h⟩ := bind_eq_ok.mp h
  obtain ⟨expires, -, h⟩ := bind_eq_ok.mp h
  obtain ⟨⟨⟩, -, h⟩ := bind_eq_ok.mp h
  obtain ⟨⟨⟩, -, h⟩ := bind_eq_ok.mp h
  obtain ⟨⟨⟩, -, h⟩ := bind_eq_ok.mp h
  obtain ⟨⟨⟩, -, h⟩ := bind_eq_ok.mp h
  obtain ⟨⟨⟩, -, h⟩ := bind_eq_ok.mp h
  obtain ⟨r', hr, h⟩ := bind_eq_ok.mp h
  obtain ⟨stream', -, h⟩ := bind_eq_ok.mp h
  cases h
  exact hr

/-- A valid activation leads to a later epoch. -/
theorem advances_of_valid {t : Json} (h : validateActionRecord t = .ok ())
    (htype : t["type"] = .str "activation") : Advances t := by
  obtain ⟨value, -, h⟩ := bind_eq_ok.mp h
  obtain ⟨⟨⟩, -, h⟩ := bind_eq_ok.mp h
  obtain ⟨kind, hkind, h⟩ := bind_eq_ok.mp h
  have hsame := text_ok hkind
  rw [htype, Json.str.injEq] at hsame
  subst hsame
  obtain ⟨artifacts, -, h⟩ := bind_eq_ok.mp h
  obtain ⟨successor, hsuccessor, h⟩ := bind_eq_ok.mp h
  obtain ⟨prior, hprior, h⟩ := bind_eq_ok.mp h
  obtain ⟨⟨⟩, hlt, -⟩ := bind_eq_ok.mp h
  exact ⟨prior, successor, number_eq hprior, number_eq hsuccessor,
    of_decide_eq_true (require_ok hlt)⟩

/-- What the row of an applied transition holds. -/
def appliedDoc (t : Json) : Option Json := (receipt t).toOption.map appliedRecord

/-- What the applied rows hold, in their order. -/
def appliedOf (rows : List Claim) : List (Option Json) := (rows.filter isApplied).map storedValue

theorem appliedDoc_eq_some {t old : Json} (h : appliedDoc t = some old) :
    ∃ r, receipt t = .ok r ∧ old = appliedRecord r := by
  unfold appliedDoc at h
  cases hr : receipt t with
  | error e => simp [hr, Except.toOption] at h
  | ok r =>
    rw [hr] at h
    cases h
    exact ⟨r, rfl, rfl⟩

theorem appliedDoc_of_receipt {t r : Json} (h : receipt t = .ok r) :
    appliedDoc t = some (appliedRecord r) := by rw [appliedDoc, h]; rfl

/-- The one enrollment there is. -/
def Pinned (rows : List Claim) (value : Json) : Prop :=
  ∃ c, rows.filter isEnrollment = [c] ∧ storedValue c = some value

/-- The applied rows hold the transitions of one chain, each archived and with its event. -/
structure Chained (rows : List Claim) (start : ℕ × String) (ts : List Json) : Prop where
  applied : appliedOf rows = ts.map appliedDoc
  archived : ∀ t ∈ ts, .artifact t ∈ logOf rows
  audited : ∀ t ∈ ts, ∃ event scope, .event event ∈ logOf rows ∧
    event.get "scope" = some scope ∧ receipt t = .ok event["payload"]["receipt"]
  pinned : ts ≠ [] → ∃ scope, Pinned rows (pinRecord scope start)
  links : Justified (Succeeds start) ts

/-- The rows an applied activation adds: its archived transition, unless that was archived
before, its audit event and its receipt. -/
structure Adds (rows : List Claim) (scope t r : Json) (archive : List Claim)
    (audit applied : Claim) (event : Json) : Prop where
  archive : archive = [] ∧ .artifact t ∈ logOf rows ∨
    ∃ c, archive = [c] ∧ readEntry c = some (.artifact t)
  audit : readEntry audit = some (.event event)
  scope : event.get "scope" = some scope
  receipt : event["payload"]["receipt"] = r
  generation : ∃ n, number event["source_generation"] = .ok n
  applied : isApplied applied = true ∧ storedValue applied = some (appliedRecord r)

/-- From these rows to those with a transition applied, all of its rows at once. -/
def Activates (scope t r : Json) (rows rows' : List Claim) : Prop :=
  ∃ archive audit applied event, rows' = rows ++ (archive ++ [audit, applied]) ∧
    Adds rows scope t r archive audit applied event

section Rows
variable {rows rows' more : List Claim} {start : ℕ × String} {ts : List Json}

omit [Sha256] [ActionSchema] in
theorem appliedOf_append (rows more : List Claim) :
    appliedOf (rows ++ more) = appliedOf rows ++ appliedOf more := by
  rw [appliedOf, List.filter_append, List.map_append, appliedOf, appliedOf]

omit [Sha256] [ActionSchema] in
theorem appliedOf_eq_nil (h : ∀ c ∈ rows, isApplied c = false) : appliedOf rows = [] := by
  rw [appliedOf, List.map_eq_nil_iff, List.filter_eq_nil_iff]
  intro c hc
  simp [h c hc]

/-- Rows that are neither receipts nor enrollments leave the chain as it is. -/
theorem Chained.append (h : Chained rows start ts)
    (hmore : ∀ c ∈ more, isApplied c = false ∧ isEnrollment c = false) :
    Chained (rows ++ more) start ts where
  applied := by
    rw [appliedOf_append, appliedOf_eq_nil fun c hc => (hmore c hc).1, List.append_nil, h.applied]
  archived t ht := by
    rw [logOf_append]
    exact List.mem_append_left _ (h.archived t ht)
  audited t ht := by
    obtain ⟨event, scope, hevent, hscope, hreceipt⟩ := h.audited t ht
    rw [logOf_append]
    exact ⟨event, scope, List.mem_append_left _ hevent, hscope, hreceipt⟩
  pinned hne := by
    obtain ⟨scope, c, hc, hread⟩ := h.pinned hne
    refine ⟨scope, c, ?_, hread⟩
    rw [List.filter_append, hc, List.append_right_eq_self, List.filter_eq_nil_iff]
    intro d hd
    simp [(hmore d hd).2]
  links := h.links

/-- Nothing was applied before the enrollment. -/
theorem Chained.unpinned (h : Chained rows start ts) (hnone : rows.filter isEnrollment = []) :
    ts = [] := by
  by_contra hne
  obtain ⟨scope, c, hc, -⟩ := h.pinned hne
  rw [hnone] at hc
  cases hc

theorem chained_nil (h : appliedOf rows = []) (start : ℕ × String) : Chained rows start [] :=
  ⟨h, by simp, by simp, by simp, .nil⟩

/-- The chain starts from the enrollment. -/
theorem Chained.restart (h : Chained rows start ts) {scope : Scope} {start' : ℕ × String}
    (hpin : Pinned rows (pinRecord scope start')) : Chained rows start' ts := by
  by_cases hne : ts = []
  · subst hne
    exact chained_nil h.applied start'
  · obtain ⟨scope', c, hc, hread⟩ := h.pinned hne
    obtain ⟨c', hc', hread'⟩ := hpin
    rw [hc] at hc'
    obtain rfl := List.singleton_inj.mp hc'
    rw [hread] at hread'
    obtain rfl := pinRecord_start (Option.some.inj hread')
    exact h

omit [Sha256] [ActionSchema] in
theorem Adds.entries {scope t r event : Json} {archive : List Claim} {audit applied : Claim}
    (h : Adds rows scope t r archive audit applied event) :
    .artifact t ∈ logOf (rows ++ (archive ++ [audit, applied])) ∧
      .event event ∈ logOf (rows ++ (archive ++ [audit, applied])) := by
  constructor
  · rcases h.archive with ⟨-, hold⟩ | ⟨c, rfl, hc⟩
    · rw [logOf_append]
      exact List.mem_append_left _ hold
    · exact List.mem_filterMap.mpr ⟨c, by simp, hc⟩
  · exact List.mem_filterMap.mpr ⟨audit, by simp, h.audit⟩

omit [Sha256] [ActionSchema] in
theorem subject_of_entry {c : Claim} {e : Entry} (h : readEntry c = some e) :
    isApplied c = false ∧ isEnrollment c = false := by
  have hrecord : c.subject = ARTIFACTS ∨ c.subject = EVENTS := by
    unfold readEntry entryOf at h
    split_ifs at h with hartifact hevent
    · exact .inl hartifact
    · exact .inr hevent
  rcases hrecord with hrecord | hrecord
  · simp [isApplied, isEnrollment, hrecord, ARTIFACTS, APPLIED, ENROLLMENT]
  · simp [isApplied, isEnrollment, hrecord, EVENTS, APPLIED, ENROLLMENT]

omit [Sha256] [ActionSchema] in
/-- An activation adds its transition and its event to the log, and no other entry. -/
theorem Adds.mem_log {scope t r event : Json} {archive : List Claim} {audit applied : Claim}
    (h : Adds rows scope t r archive audit applied event) {entry : Entry}
    (hentry : entry ∈ logOf (archive ++ [audit, applied])) :
    entry = .artifact t ∨ entry = .event event := by
  obtain ⟨c, hc, hread⟩ := List.mem_filterMap.mp hentry
  rcases List.mem_append.mp hc with hc | hc
  · rcases h.archive with ⟨rfl, -⟩ | ⟨d, rfl, hd⟩
    · cases hc
    · obtain rfl := List.mem_singleton.mp hc
      exact .inl (Option.some.inj (hread.symm.trans hd))
  rcases List.mem_cons.mp hc with rfl | hc
  · exact .inr (Option.some.inj (hread.symm.trans h.audit))
  · obtain rfl := List.mem_singleton.mp hc
    have happlied := (subject_of_entry hread).1
    rw [h.applied.1] at happlied
    cases happlied

omit [Sha256] [ActionSchema] in
theorem Adds.applied_rows {scope t r event : Json} {archive : List Claim} {audit applied : Claim}
    (h : Adds rows scope t r archive audit applied event) :
    appliedOf (archive ++ [audit, applied]) = [some (appliedRecord r)] := by
  have harchive : appliedOf archive = [] := by
    apply appliedOf_eq_nil
    rcases h.archive with ⟨rfl, -⟩ | ⟨c, rfl, hc⟩
    · simp
    · simpa using (subject_of_entry hc).1
  rw [appliedOf_append, harchive, List.nil_append, appliedOf]
  simp [(subject_of_entry h.audit).1, h.applied]

omit [Sha256] [ActionSchema] in
theorem Adds.not_enrollment {scope t r event : Json} {archive : List Claim}
    {audit applied : Claim} (h : Adds rows scope t r archive audit applied event) :
    (archive ++ [audit, applied]).filter isEnrollment = [] := by
  rw [List.filter_eq_nil_iff]
  intro d hd
  rw [Bool.not_eq_true]
  rcases List.mem_append.mp hd with hd | hd
  · rcases h.archive with ⟨rfl, -⟩ | ⟨c, rfl, hc⟩
    · cases hd
    · obtain rfl := List.mem_singleton.mp hd
      exact (subject_of_entry hc).2
  rcases List.mem_cons.mp hd with rfl | hd
  · exact (subject_of_entry h.audit).2
  · obtain rfl := List.mem_singleton.mp hd
    have happlied : d.subject = APPLIED := by simpa [isApplied] using h.applied.1
    simp [isEnrollment, happlied, APPLIED, ENROLLMENT]

/-- An applied transition that starts where the chain ends is its next link. -/
theorem Chained.activate (h : Chained rows start ts) {t r scope : Json} {s : Scope}
    (hadds : Activates scope t r rows rows') (hreceipt : receipt t = .ok r)
    (hnext : Succeeds start ts t) (hpin : Pinned rows (pinRecord s start)) :
    Chained rows' start (ts ++ [t]) := by
  obtain ⟨archive, audit, applied, event, rfl, hadds⟩ := hadds
  obtain ⟨hartifact, hevent⟩ := hadds.entries
  have hjoin {P : Json → Prop} (hold : ∀ x ∈ ts, P x) (hnew : P t) : ∀ x ∈ ts ++ [t], P x := by
    intro x hx
    rcases List.mem_append.mp hx with hx | hx
    · exact hold x hx
    · exact List.mem_singleton.mp hx ▸ hnew
  refine ⟨?_, hjoin ?_ hartifact, hjoin ?_ ?_, ?_, h.links.snoc hnext⟩
  · rw [appliedOf_append, hadds.applied_rows, h.applied, List.map_append, List.map_singleton,
      appliedDoc_of_receipt hreceipt]
  · intro x hx
    rw [logOf_append]
    exact List.mem_append_left _ (h.archived x hx)
  · intro x hx
    obtain ⟨event', scope', hevent', hscope, hreceipt'⟩ := h.audited x hx
    rw [logOf_append]
    exact ⟨event', scope', List.mem_append_left _ hevent', hscope, hreceipt'⟩
  · exact ⟨event, scope, hevent, hadds.scope, hadds.receipt ▸ hreceipt⟩
  · intro _
    obtain ⟨c, hc, hread⟩ := hpin
    exact ⟨s, c, by rw [List.filter_append, hadds.not_enrollment, List.append_nil, hc], hread⟩

end Rows

theorem Orderly.applied_slice {rows : List Claim} (h : Orderly rows) :
    (acceptedSlice rows).filter isApplied = rows.filter isApplied := by
  apply h.slice (List.Subset.refl rows)
  intro c happlied
  have hsubject : c.subject = APPLIED := by simpa [isApplied] using happlied
  simp [hsubject, reserved]

/-- The transition of an attempt that goes through starts where the chain ends. -/
theorem Enacts.succeeds {l : ActionLedger} {e : ActivationEnrollment} {t r : Json}
    {proof : ActivationEvidence} {digest : String} {stream : StreamRegistration}
    {rows : List Claim} {archive : List NewClaim} {audit applied : NewClaim} {event : Json}
    {ts : List Json} {start : ℕ × String} (horderly : Orderly rows)
    (hascending : rows.Pairwise fun a b => a.seq < b.seq) (hchain : Chained rows start ts)
    (hstart : start = (e.initialEpoch, e.initialArtifactSetDigest))
    (hprepared : l.prepareActivation e t proof = .ok (r, digest, stream))
    (h : Enacts l e t proof r digest (acceptedSlice rows) archive audit applied event) :
    Succeeds start ts t := by
  obtain ⟨hvalid, -, -⟩ := prepareActivation_checked hprepared
  obtain ⟨htype, -, -⟩ := prepareActivation_ok hprepared
  obtain ⟨found, epoch, set, hmatch, hcurrent, hepoch, hset⟩ := h.head
  rw [horderly.applied_slice] at hmatch
  obtain ⟨hother, hnone, hlast⟩ :=
    matchApplied_some (hascending.sublist List.filter_sublist) (by simp) hmatch
  have happlied : (rows.filter isApplied).map storedValue = ts.map appliedDoc := hchain.applied
  refine ⟨?_, advances_of_valid hvalid htype, ?_⟩
  · rcases List.eq_nil_or_concat ts with rfl | ⟨init, last, rfl⟩
    · have hempty : rows.filter isApplied = [] := by simpa using happlied
      obtain rfl := hnone hempty
      cases hcurrent
      rw [hstart]
      exact ⟨hepoch, hset⟩
    · rw [List.concat_eq_append] at happlied ⊢
      have hgetLast := congrArg List.getLast? happlied
      rw [List.getLast?_map, List.map_append, List.map_singleton, List.getLast?_concat] at hgetLast
      obtain ⟨c, hc, hread⟩ := Option.map_eq_some_iff.mp hgetLast
      obtain ⟨old, hold, rfl⟩ := hlast c hc
      rw [hold] at hread
      obtain ⟨r', hr', rfl⟩ := appliedDoc_eq_some hread.symm
      obtain ⟨-, hsuccessor, hartifacts⟩ := receipt_ok hr'
      obtain ⟨n, hn, hcurrent⟩ := bind_eq_ok.mp hcurrent
      obtain ⟨d, hd, hcurrent⟩ := bind_eq_ok.mp hcurrent
      cases hcurrent
      rw [appliedRecord_receipt] at hn hd
      rw [List.getLast?_concat]
      constructor
      · rw [hepoch, ← hsuccessor, number_eq hn]
      · rw [hset, ← hartifacts, text_ok hd]
  · intro old hold hsame
    have hmem : appliedDoc old ∈ (rows.filter isApplied).map storedValue := by
      rw [happlied]
      exact List.mem_map_of_mem hold
    obtain ⟨c, hc, hread⟩ := List.mem_map.mp hmem
    obtain ⟨doc, hdoc, hne⟩ := hother c hc
    rw [hdoc] at hread
    obtain ⟨r', hr', rfl⟩ := appliedDoc_eq_some hread.symm
    rw [appliedRecord_receipt, (receipt_ok hr').1] at hne
    exact hne hsame

end

end PlatformAction
end Munarium

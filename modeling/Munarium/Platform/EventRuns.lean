import Munarium.Platform.EventLedger

/-! Runs of the event ledger: appends by any callers interleave with each other and with
other writers of the store, and the ledger stays a set of gapless chained streams. -/
namespace Munarium

namespace EventLedger
open PlatformRecord

theorem sequence_one {event : Json} (h : event["sequence"] = .int 1) :
    sequence event = some 1 := by simp [sequence, h, Json.asU64]

/-- Two events of one operation name one request, and decide or refuse it in one way. -/
structure Agree (a b : Json) : Prop where
  request : a["operation_id"] = b["operation_id"] → a["request_digest"] = b["request_digest"]
  payload : a["operation_id"] = b["operation_id"] → a["kind"] ≠ .str "proposal" →
    b["kind"] ≠ .str "proposal" → a["payload"] = b["payload"]

instance : Std.Symm Agree where
  symm _ _ h := ⟨fun hop => (h.request hop.symm).symm,
    fun hop hb ha => (h.payload hop.symm ha hb).symm⟩

theorem agree_refl (event : Json) : Agree event event := ⟨fun _ => rfl, fun _ _ _ => rfl⟩

section
variable [SerdeJson] [Sha256]

/-- An event names the digest of the event before it. -/
def PointsAt (old event : Json) : Prop :=
  ∃ digest, eventDigest old = .ok digest ∧ event["prior_event_digest"] = .str digest

/-- A stream without gaps: numbers from one, each event pointing at the one before it. -/
abbrev Gapless (events : List Json) : Prop :=
  NumberedChain sequence (fun event => event["prior_event_digest"] = .null) PointsAt events

/-- An event that passes the check joins its stream. -/
theorem Gapless.append {events : List Json} (h : Gapless events) {event : Json}
    (hsafe : ∀ old ∈ events, check 0 old = true)
    (hnull : event["sequence"] = .int 1 → event["prior_event_digest"] = .null)
    (hcheck : checkSequence event events.getLast? = .ok ()) : Gapless (events ++ [event]) := by
  cases hlast : events.getLast? with
  | none =>
    obtain rfl : events = [] := List.getLast?_eq_none_iff.mp hlast
    simp only [List.getLast?_nil, checkSequence] at hcheck
    split_ifs at hcheck with hone
    have hone : event["sequence"] = .int 1 := not_not.mp hone
    exact NumberedChain.append h (sequence_one hone) (fun _ => hnull hone) (by simp)
  | some last =>
    simp only [hlast, checkSequence] at hcheck
    split_ifs at hcheck with hseq
    obtain ⟨digest, hdigest, hcheck⟩ := bind_eq_ok.mp hcheck
    have hprior : event["prior_event_digest"] = .str digest := by
      simpa using require_ok hcheck
    have hmem : last ∈ events := List.mem_of_getLast? hlast
    have hnumber : sequence last = some events.length := h.number_last hlast
    -- safe integers leave room for one more
    have hle : events.length ≤ MAX := asU64_le (check_index (hsafe last hmem) "sequence") hnumber
    have hroom : events.length + 1 < 2 ^ 64 := by
      unfold MAX at hle
      omega
    apply NumberedChain.append h
    · show sequence event = some (events.length + 1)
      rw [not_not.mp hseq, hnumber, Option.bind_some, checkedAdd_of_lt hroom]
    · intro hnil
      subst hnil
      cases hmem
    · intro x hx
      obtain rfl : last = x := Option.some.inj (hlast.symm.trans hx)
      exact ⟨digest, hdigest, hprior⟩

/-- The rows of the ledger. -/
def records (l : EventLedger) (s : State) : List Claim :=
  (s.claims l.version).filter fun c => c.subject == subject

def events (l : EventLedger) (s : State) : List Json := eventsOf (l.records s)

variable [Platform] [IdGenerator] [FoundationSchema]

/-- What every run keeps of the ledger. -/
structure Kept (l : EventLedger) (s : State) : Prop where
  root : RootVersion l.version s
  plain : ∀ c ∈ s.claims l.version, c.supersedesId = none
  accepted : ∀ c ∈ l.records s, c.status = .accepted
  readable : ∀ c ∈ l.records s, ∃ event, readEvent c = some event
  safe : ∀ event ∈ l.events s, check 0 event = true
  valid : ∀ event ∈ l.events s, validateRecord "event" event = .ok () ∧
    event["tenant"] = .str l.tenant
  compatible : (l.events s).Pairwise Compatible
  gapless : ∀ key, Gapless ((l.events s).filter fun event => stream event = key)

omit [Platform] [IdGenerator] [FoundationSchema] [Sha256] [SerdeJson] in
theorem records_of_claims {l : EventLedger} {s t : State} {rows : List Claim}
    (h : t.claims l.version = s.claims l.version ++ rows) :
    l.records t = l.records s ++ rows.filter fun c => c.subject == subject := by
  rw [records, h, List.filter_append, records]

/-- Readers of the ledger see every recorded event. -/
theorem Kept.slice {l : EventLedger} {s : State} (h : l.Kept s) :
    (acceptedSlice (s.claims l.version)).filter (fun c => c.subject == subject) =
      l.records s := by
  apply acceptedSlice_filter h.plain
  intro c hc hs
  exact h.accepted c (List.mem_filter.mpr ⟨hc, hs⟩)

/-- Rows of other subjects, which supersede nothing, leave the ledger as it was. -/
theorem Kept.frame {l : EventLedger} {s t : State} (h : l.Kept s)
    (hroot : RootVersion l.version t) {rows : List Claim}
    (hrows : t.claims l.version = s.claims l.version ++ rows)
    (hforeign : ∀ c ∈ rows, c.subject ≠ subject ∧ c.supersedesId = none) : l.Kept t := by
  have hnone : (rows.filter fun c => c.subject == subject) = [] := by
    rw [List.filter_eq_nil_iff]
    intro c hc
    simpa using (hforeign c hc).1
  have hrecords : l.records t = l.records s := by
    rw [records_of_claims hrows, hnone, List.append_nil]
  have hevents : l.events t = l.events s := by rw [events, events, hrecords]
  refine ⟨hroot, ?_, hrecords ▸ h.accepted, hrecords ▸ h.readable, hevents ▸ h.safe,
    hevents ▸ h.valid, hevents ▸ h.compatible, hevents ▸ h.gapless⟩
  intro c hc
  rw [hrows, List.mem_append] at hc
  rcases hc with hc | hc
  · exact h.plain c hc
  · exact (hforeign c hc).2

/-- An event judged against the recorded ones joins the ledger. -/
theorem Kept.record {l : EventLedger} {s t : State} (h : l.Kept s)
    (hroot : RootVersion l.version t) {c : RecorderContext} {raw : Bytes} {event : Json}
    {digest : String} {head : ℕ} {claim : NewClaim} {reply : Claim → Result Json}
    {stored : Claim} (hprepared : l.prepare c raw = .ok (event, digest))
    (hjudge : l.judge c raw event digest head (acceptedSlice (s.claims l.version)) =
      .ok (.append claim reply))
    (hstored : ∃ seq n, stored = State.storedClaim l.version seq n claim)
    (hrows : t.claims l.version = s.claims l.version ++ [stored]) :
    l.Kept t ∧ stored ∈ l.records t ∧ readEvent stored = some event := by
  obtain ⟨last, hscan, hcheck, hsubject, hplain, haccepted, htext, -⟩ := judge_append hjudge
  obtain ⟨hread, hsafe, hvalid, htenant⟩ := prepare_ok hprepared
  obtain ⟨seq, n, rfl⟩ := hstored
  rw [h.slice] at hscan
  obtain ⟨hcompatible, hlast⟩ := scan_through hscan
  have hreadStored : readEvent (State.storedClaim l.version seq n claim) = some event := by
    simp only [readEvent, State.storedClaim, htext, hread]
  have hrecords : l.records t = l.records s ++ [State.storedClaim l.version seq n claim] := by
    rw [records_of_claims hrows]
    simp [State.storedClaim, hsubject]
  have hevents : l.events t = l.events s ++ [event] := by
    rw [events, hrecords, eventsOf, List.filterMap_append]
    simp [hreadStored, events, eventsOf]
  have hnewest : last = ((l.events s).filter fun old => stream old = stream event).getLast? :=
    hlast.trans ((h.gapless (stream event)).newest exceeds_succ)
  have hjoin : ∀ x, x ∈ l.records t →
      x ∈ l.records s ∨ x = State.storedClaim l.version seq n claim := by
    intro x hx
    rw [hrecords, List.mem_append, List.mem_singleton] at hx
    exact hx
  have hjoinEvent : ∀ x, x ∈ l.events t → x ∈ l.events s ∨ x = event := by
    intro x hx
    rw [hevents, List.mem_append, List.mem_singleton] at hx
    exact hx
  refine ⟨⟨hroot, ?_, ?_, ?_, ?_, ?_, ?_, ?_⟩, ?_, hreadStored⟩
  · intro x hx
    rw [hrows, List.mem_append, List.mem_singleton] at hx
    rcases hx with hx | rfl
    · exact h.plain x hx
    · exact hplain
  · intro x hx
    rcases hjoin x hx with hx | rfl
    · exact h.accepted x hx
    · exact haccepted
  · intro x hx
    rcases hjoin x hx with hx | rfl
    · exact h.readable x hx
    · exact ⟨event, hreadStored⟩
  · intro x hx
    rcases hjoinEvent x hx with hx | rfl
    · exact h.safe x hx
    · exact hsafe
  · intro x hx
    rcases hjoinEvent x hx with hx | rfl
    · exact h.valid x hx
    · exact ⟨hvalid, htenant⟩
  · rw [hevents, List.pairwise_append]
    refine ⟨h.compatible, List.pairwise_singleton _ _, ?_⟩
    intro old hold x hx
    obtain rfl := List.mem_singleton.mp hx
    exact hcompatible old hold
  · intro key
    rw [hevents, List.filter_append]
    by_cases hkey : stream event = key
    · subst hkey
      have hone : [event].filter (fun e => stream e = stream event) = [event] := by simp
      rw [hone]
      apply (h.gapless (stream event)).append
      · intro old hold
        exact h.safe old (List.mem_of_mem_filter hold)
      · exact prior_null_of_first hvalid
      · rwa [← hnewest]
    · have hnone : [event].filter (fun e => stream e = key) = [] := by simp [hkey]
      rw [hnone, List.append_nil]
      exact h.gapless key
  · rw [hrecords]
    exact List.mem_append_right _ (List.mem_singleton_self _)

theorem Kept.agree {l : EventLedger} {s : State} (h : l.Kept s) :
    ∀ a ∈ l.events s, ∀ b ∈ l.events s, Agree a b := by
  have hpair : (l.events s).Pairwise Agree :=
    h.compatible.imp fun hc => ⟨hc.request, hc.payload⟩
  intro a ha b hb
  exact hpair.forall_of_forall (fun x _ => agree_refl x) ha hb

/-- How the parties of a ledger move it. -/
def Keeps (l : EventLedger) (s t : State) : Prop := l.Kept s → l.Kept t ∧ Later l.version s t

omit [Sha256] [FoundationSchema] [SerdeJson] [Platform] [IdGenerator] in
theorem records_kept {l : EventLedger} [Platform] {s t : State} (h : Later l.version s t)
    {c : Claim} (hc : c ∈ l.records s) : c ∈ l.records t := by
  obtain ⟨more, hmore, -⟩ := h.rows
  rw [records_of_claims hmore]
  exact List.mem_append_left _ hc

theorem rely (l : EventLedger) : Rely l.version l.Kept l.Keeps :=
  rely_of_invariant fun _ h => h.root

structure AppendCall where
  context : RecorderContext
  raw : Bytes

def program (l : EventLedger) (r : AppendCall) : Shared State (Result Json) :=
  l.append r.context r.raw

/-- An acknowledgement names the row that holds the event. -/
def Acknowledged (l : EventLedger) (r : AppendCall) (a : Result Json) (s : State) : Prop :=
  ∀ j, a = .ok j → ∃ event digest c, l.prepare r.context r.raw = .ok (event, digest) ∧
    c ∈ l.records s ∧ readEvent c = some event ∧ j = ack event digest l.version c.seq

/-- The other writers of the store: any command that stores no event in the ledger's version
and supersedes nothing there. -/
def Outside [Unicode] (l : EventLedger) (f : State → State) : Prop :=
  ∃ c : Command, f = (fun s => c.step s) ∧ (c.claimTarget = some l.version →
    ∀ m ∈ c.newClaims, m.subject ≠ subject ∧ m.supersedesId = none)

section
variable [Unicode]

theorem Outside.keeps {l : EventLedger} {f : State → State} (hf : l.Outside f) {s : State}
    (h : l.Kept s) : l.Kept (f s) ∧ Later l.version s (f s) := by
  obtain ⟨c, rfl, hc⟩ := hf
  have he := Command.step_effect s c
  have hroot := h.root.effect he
  refine ⟨?_, he.later h.root.sound l.version⟩
  rcases c.step_rows s l.version with hsame | ⟨htarget, head, hrows⟩
  · have hrows : (c.step s).claims l.version = s.claims l.version ++ [] := by
      rw [hsame, List.append_nil]
    exact h.frame hroot hrows (by simp)
  · apply h.frame hroot hrows
    intro x hx
    obtain ⟨m, hm, i, j, rfl⟩ := exists_of_mem_stampClaims hx
    exact hc htarget m hm

/-- What an append promises. -/
theorem append_ensures (l : EventLedger) (r : AppendCall) {s : State} (hs : l.Kept s) :
    (l.program r).Ensures l.Keeps l.Keeps (l.Acknowledged r) s := by
  have hfail (e : KernelError) (t : State) : l.Acknowledged r (.error e) t := by
    intro j hj
    cases hj
  unfold program append
  cases hprepared : l.prepare r.context r.raw with
  | error e => exact fun t _ => hfail e t
  | ok prepared =>
    obtain ⟨event, digest⟩ := prepared
    refine l.rely.retryAtHead l.rely.refl hfail ?_ ?_ ?_ ?_ 16 hs
    · intro t u head a ht htu hh hjudge j hj
      cases hj
      obtain ⟨seq, hscan, rfl⟩ := judge_reply hjudge
      rw [ht.slice] at hscan
      obtain ⟨c, hc, hread, rfl⟩ := exists_of_scan_found hscan
      exact ⟨event, digest, c, hprepared, records_kept (htu ht).2 hc, hread, rfl⟩
    · intro t t' head claim reply stored ht hjudge hx
      obtain ⟨hroot, hlater⟩ := ht.root.appendClaim hx
      obtain ⟨-, hstored, hrows⟩ := appendClaim_eq_ok hx
      obtain ⟨hkept, hmem, hread⟩ := ht.record hroot hprepared hjudge ⟨_, _, hstored⟩ hrows
      refine ⟨fun _ => ⟨hkept, hlater⟩, ?_⟩
      intro u hu j hj
      obtain ⟨-, -, -, -, -, -, -, hreply⟩ := judge_append hjudge
      rw [hreply] at hj
      cases hj
      exact ⟨event, digest, stored, hprepared, records_kept (hu hkept).2 hmem, hread, rfl⟩
    · intro head facts claims reply hjudge
      exact absurd hjudge judge_not_appendAll
    · intro t t' head claims reply stored ht hjudge
      exact absurd hjudge judge_not_appendAll

theorem bounds (l : EventLedger) : Pool.Bounds l.program l.Outside l.Kept l.Keeps
    (fun _ => l.Keeps) l.Acknowledged where
  refl := l.rely.refl
  trans := l.rely.trans
  keeps := l.rely.keeps
  start r _ hs := l.append_ensures r hs
  guarantee _ _ _ _ h := h
  outside _ hf _ _ := fun hs => hf.keeps hs

omit [Unicode] in
/-- An append of a recorded event finds it and leaves the ledger alone. -/
theorem retry_ensures {l : EventLedger} {r : AppendCall} {s : State} (hs : l.Kept s)
    {event : Json} {digest : String} (hprepared : l.prepare r.context r.raw = .ok (event, digest))
    {c : Claim} (hc : c ∈ l.records s) (hread : readEvent c = some event) :
    (l.program r).Ensures l.Keeps Eq
      (fun a _ => a = .ok (ack event digest l.version c.seq)) s := by
  unfold program append
  rw [hprepared]
  apply l.rely.retryAtHead_settled hs
  intro t _ head ht hst _ _
  refine .inl ⟨_, ?_, rfl⟩
  obtain ⟨before, after, hsplit⟩ := List.append_of_mem (records_kept (hst hs).2 hc)
  have hcompatible := ht.compatible
  have hevents : l.events t = eventsOf before ++ event :: eventsOf after := by
    simp [events, hsplit, eventsOf, hread]
  rw [hevents, List.pairwise_append] at hcompatible
  have hparse : ∀ d ∈ before, ∃ old, readEvent d = some old := by
    intro d hd
    exact ht.readable d (by rw [hsplit]; exact List.mem_append_left _ hd)
  have hbefore : ∀ old ∈ eventsOf before, Compatible old event := by
    intro old hold
    exact hcompatible.2.2 old hold event List.mem_cons_self
  have hfound := @scan_found _ event c before after hparse hbefore hread none
  rw [← hsplit, ← ht.slice] at hfound
  simp only [judge, hfound, bind, Except.bind]

omit [Unicode] in
/-- Only an acknowledged append changes the store. -/
theorem append_changes (l : EventLedger) (r : AppendCall) :
    (l.program r).ChangesWith Eq fun a => ∃ j, a = .ok j := by
  unfold program append
  cases l.prepare r.context r.raw with
  | error e => trivial
  | ok prepared =>
    apply retryAtHead_changes fun _ => rfl
    · intro head facts claim reply s stored t hjudge _
      obtain ⟨-, -, -, -, -, -, -, rfl⟩ := judge_append hjudge
      exact .inr ⟨_, rfl⟩
    · intro head facts claims reply hjudge
      exact absurd hjudge judge_not_appendAll

theorem kept_empty {l : EventLedger} {s : State} (h : Reachable s)
    (hroot : s.versions l.version = some none) (hempty : s.claims l.version = []) :
    l.Kept s := by
  have hrecords : l.records s = [] := by rw [records, hempty, List.filter_nil]
  have hevents : l.events s = [] := by rw [events, hrecords, eventsOf, List.filterMap_nil]
  refine ⟨⟨h.sound, h.rowsSound, hroot⟩, by simp [hempty], by simp [hrecords],
    by simp [hrecords], by simp [hevents], by simp [hevents], by simp [hevents], ?_⟩
  intro key
  rw [hevents]
  exact numberedChain_nil

/-- In every state that appends by any callers reach, interleaved with each other and with
other writers of the store, the ledger's rows are events; each source and epoch has a
gapless chained stream; event ids are unique; an operation has one request digest and at
most one payload of a decision or refusal; an append that repeats an acknowledged one gets
its acknowledgement and changes nothing; and no other step of an append changes the store
than the one that acknowledges it. -/
theorem event_ledger_chained {l : EventLedger} {s₀ : State} (h₀ : Reachable s₀)
    (hroot : s₀.versions l.version = some none) (hempty : s₀.claims l.version = [])
    {g : Pool State AppendCall (Result Json)}
    (hrun : Pool.Run l.program l.Outside { state := s₀ } g) :
    (∀ c ∈ l.records g.state, ∃ event, readEvent c = some event) ∧
    (∀ key, Gapless ((l.events g.state).filter fun event => stream event = key)) ∧
    ((l.events g.state).map fun event => event["event_id"]).Nodup ∧
    (∀ a ∈ l.events g.state, ∀ b ∈ l.events g.state, Agree a b) ∧
    (∀ (i : ℕ) (r : AppendCall) (j : Json), g.calls[i]? = some (r, .done (.ok j)) →
      ∀ r', l.prepare r'.context r'.raw = l.prepare r.context r.raw → ∀ g',
      Pool.Run l.program l.Outside (g.step l.program (.start r')) g' →
      (∃ p, g'.calls[g.calls.length]? = some (r', p) ∧ ∀ a, p = .done a → a = .ok j) ∧
        (g'.advance g.calls.length).state = g'.state) ∧
    ∀ i, (g.advance i).state = g.state ∨
      ∃ r j, (g.advance i).calls[i]? = some (r, .done (.ok j)) := by
  have hstart : Pool.Sound l.Kept l.Keeps (fun _ => l.Keeps) l.Acknowledged
      { state := s₀ } := ⟨kept_empty h₀ hroot hempty, by simp⟩
  have hsound := (hstart.run l.bounds hrun).1
  have hkept := hsound.state
  refine ⟨hkept.readable, hkept.gapless, ?_, hkept.agree, ?_, ?_⟩
  · rw [List.Nodup, List.pairwise_map]
    exact hkept.compatible.imp fun h => h.ids
  · intro i r j hi r' hsame g' hrun'
    obtain ⟨event, digest, c, hprepared, hc, hread, rfl⟩ := hsound.answer l.bounds hi j rfl
    have hretry := retry_ensures hkept (hsame.trans hprepared) hc hread
    obtain ⟨p, hp, hpromise⟩ := hsound.started l.bounds hrun' hretry
    refine ⟨⟨p, hp, ?_⟩, Pool.advance_state_eq l.rely.refl hp hpromise⟩
    rintro a rfl
    exact hpromise _ (l.rely.refl _)
  · intro i
    have hchanges := Pool.Run.changesWith l.append_changes (g := { state := s₀ }) (by simp) hrun
    rcases Pool.advance_changes hchanges i with hsame | ⟨r, p, hi, hsame | ⟨a, rfl, j, rfl⟩⟩
    · exact .inl hsame
    · exact .inl hsame.symm
    · exact .inr ⟨r, j, hi⟩

end
end

section
attribute [local instance] asciiUnicode samplePlatform unaryIds

def sampleHash : String :=
  "sha256:6c932451b9102e17b8df2ed67d26bcf51493bb0bd6701e10a6805f3bccb2f4f0"

def sampleRefusal : Json := .object [("operation_id", .str "op-1"),
  ("reasons", .arr [.str "input-unavailable"]), ("request_digest", .str sampleHash),
  ("schema_version", .int 1), ("tenant", .str "alpha")]

/-- The digest a text has under an injective stand-in. -/
def sampleDigest (domain text : String) : String :=
  letI := tabledSha256 []
  "sha256:" ++ sha256Hex (utf8 domain ++ [0] ++ utf8 text)

def sampleEvent (id : String) (sequence : ℤ) (prior : Json) : Json := .object
  [("causation", .arr []), ("convention", .str "decision-events-v1"), ("correlation", .arr []),
    ("event_id", .str id), ("kind", .str "refusal"), ("operation_id", .str "op-1"),
    ("payload", sampleRefusal),
    ("payload_digest", .str (sampleDigest "munarium:decision-event-payload:v1" "refusal")),
    ("prior_event_digest", prior), ("recorded_at", .int 1000),
    ("request_digest", .str sampleHash), ("schema_version", .int 1),
    ("sequence", .int sequence), ("source_epoch", .int 1), ("source_service", .str "svc-gate"),
    ("tenant", .str "alpha")]

def firstEvent : Json := sampleEvent "event-1" 1 .null

def secondEvent : Json :=
  sampleEvent "event-2" 2 (.str (sampleDigest "munarium:decision-event:v1" "first"))

abbrev sampleSerde : SerdeJson :=
  tabledSerde [(sampleRefusal, "refusal"), (firstEvent, "first"), (secondEvent, "second")]

abbrev sampleFoundation : FoundationSchema where
  isValid kind v := [("refusal", sampleRefusal), ("event", firstEvent),
    ("event", secondEvent)].contains (kind, v)

attribute [local instance] sampleSerde sampleFoundation

abbrev plainSha256 : Sha256 := tabledSha256 []

attribute [local instance] plainSha256

def sampleLedger : EventLedger := { tenant := "alpha", version := "memv-" }

def sampleContext : RecorderContext where
  identity := { origin := "recorder", actor := "recorder", originKind := "service",
                principalDigest := sampleHash }
  tenant := "alpha"
  service := "svc-gate"
  source := "svc-gate"
  epoch := 1
  canRecord := true
  canRead := true

def sampleAppend (text : String) : AppendCall := ⟨sampleContext, utf8 text⟩

/-- Two callers bring the first event at once, then one brings the second. -/
def racingAppends : List (Pool.Event State AppendCall) :=
  [.start (sampleAppend "first"), .start (sampleAppend "first"), .advance 0, .advance 1,
    .advance 1, .advance 0, .advance 0, .advance 1, .advance 1, .advance 1,
    .start (sampleAppend "second"), .advance 2, .advance 2, .advance 2]

def afterRace : Pool State AppendCall (Result Json) :=
  Pool.play sampleLedger.program { state := Command.run {} [.createVersion none none] }
    racingAppends

/-- The race leaves one record of the first event and its successor. -/
theorem event_ledger_chained_after_race :
    sampleLedger.events afterRace.state = [firstEvent, secondEvent] ∧
    Gapless ((sampleLedger.events afterRace.state).filter fun event =>
      stream event = stream firstEvent) := by
  have hrun : Pool.Run sampleLedger.program sampleLedger.Outside
      { state := Command.run {} [.createVersion none none] } afterRace := by
    apply Pool.Run.of_play
    simp [racingAppends]
  have h := event_ledger_chained (l := sampleLedger) (RunWhere.of_run {} [.createVersion none none])
    (by decide +kernel) (by decide +kernel) hrun
  exact ⟨by decide +kernel, h.2.1 (stream firstEvent)⟩

end

end EventLedger
end Munarium

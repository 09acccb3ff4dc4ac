import Munarium.Lib.Checked
import Munarium.Lib.Justified
import Munarium.Platform.EventRuns
import Munarium.Platform.ReplayArchive

/-! Runs of the ledger with its replay archive: appends, archives and lookups by any recorders
interleave with each other and with other writers of the store, and every archived replay
stands after its events and stays as it is. -/
namespace Munarium

namespace EventLedger
open PlatformRecord

/-- The rows of the archive. -/
def replays (l : EventLedger) (s : State) : List Claim :=
  (s.claims l.version).filter fun c => c.subject == replaySubject

section
variable [SerdeJson] [Sha256] [FoundationSchema]

/-- A replay among some rows: its bytes are checked, and the rows before it hold its events. -/
structure Earned (l : EventLedger) (before : List Claim) (row : Claim) (b : ReplayBundle) :
    Prop where
  unpacked : l.unpackReplay (utf8 row.value) = .ok b
  key : row.key = b.operation
  attested : ∃ e, row.evidence = some e ∧ e["replay_digest"] = .str b.digest
  proposal : Recorded before b (IsProposal b)
  result : Recorded before b (IsResult b)

/-- Whatever joins the rows is no replay, or an earned one. -/
def EarnedIn (l : EventLedger) (before : List Claim) (row : Claim) : Prop :=
  row.subject = replaySubject → ∃ b, l.Earned before row b

/-- What every run keeps of the archive. -/
structure Archives (l : EventLedger) (s : State) : Prop where
  accepted : ∀ row ∈ l.replays s, row.status = .accepted
  unique : ((l.replays s).map (·.key)).Nodup
  earned : Justified l.EarnedIn (s.claims l.version)

theorem Earned.digest_eq {l : EventLedger} {before : List Claim} {row : Claim} {b : ReplayBundle}
    (h : l.Earned before row b) : b.digest = replayDigest (utf8 row.value) :=
  (unpackReplay_ok h.unpacked).1

theorem Earned.attests {l : EventLedger} {before : List Claim} {row : Claim} {b : ReplayBundle}
    (h : l.Earned before row b) : l.Attested row := by
  obtain ⟨hdigest, bundle, hread, -, -, -, htenant, -⟩ := unpackReplay_ok h.unpacked
  constructor
  · exact ⟨bundle, hread, htenant⟩
  · rw [← hdigest]
    exact h.attested

theorem Archives.earned_of_mem {l : EventLedger} {s : State} (h : l.Archives s) {row : Claim}
    (hrow : row ∈ l.replays s) : ∃ before after b,
      s.claims l.version = before ++ row :: after ∧ l.Earned before row b := by
  obtain ⟨hmem, hsubject⟩ := List.mem_filter.mp hrow
  obtain ⟨before, after, hsplit, hearned⟩ := h.earned.of_mem hmem
  obtain ⟨b, hb⟩ := hearned (beq_iff_eq.mp hsubject)
  exact ⟨before, after, b, hsplit, hb⟩

omit [SerdeJson] [Sha256] [FoundationSchema] in
theorem replays_of_claims {l : EventLedger} {s t : State} {rows : List Claim}
    (h : t.claims l.version = s.claims l.version ++ rows) :
    l.replays t = l.replays s ++ rows.filter fun c => c.subject == replaySubject := by
  rw [replays, h, List.filter_append, replays]

omit [SerdeJson] [Sha256] [FoundationSchema] in
theorem mem_replays {l : EventLedger} {s : State} {operation : String} {row : Claim} :
    (row ∈ s.claims l.version ∧ isReplayOf operation row = true) ↔
      row ∈ l.replays s ∧ row.key = operation := by
  simp only [replays, isReplayOf, List.mem_filter, Bool.and_eq_true, beq_iff_eq, and_assoc]

/-- Rows that are no replays leave the archive as it was. -/
theorem Archives.frame {l : EventLedger} {s t : State} (h : l.Archives s) {rows : List Claim}
    (hrows : t.claims l.version = s.claims l.version ++ rows)
    (hforeign : ∀ c ∈ rows, c.subject ≠ replaySubject) : l.Archives t := by
  have hnone : (rows.filter fun c => c.subject == replaySubject) = [] := by
    rw [List.filter_eq_nil_iff]
    intro c hc
    simpa using hforeign c hc
  have hreplays : l.replays t = l.replays s := by
    rw [replays_of_claims hrows, hnone, List.append_nil]
  refine ⟨hreplays ▸ h.accepted, hreplays ▸ h.unique, ?_⟩
  rw [hrows]
  clear hrows hnone hreplays
  induction rows using List.reverseRecOn with
  | nil =>
    rw [List.append_nil]
    exact h.earned
  | append_singleton rows c ih =>
    rw [← List.append_assoc]
    apply Justified.snoc (ih fun d hd => hforeign d (List.mem_append_left _ hd))
    intro hsubject
    exact absurd hsubject (hforeign c (by simp))

/-- A replay that is judged against the rows joins the archive. -/
theorem Archives.record {l : EventLedger} {s t : State} (h : l.Archives s) {raw : Bytes}
    {b : ReplayBundle} {facts : List Claim} (hunpacked : l.unpackReplay raw = .ok b)
    (hfacts : facts ⊆ s.claims l.version)
    (hseen : ∀ row ∈ l.replays s, row ∈ facts) {c : RecorderContext} {head : ℕ}
    {claim : NewClaim} {reply : Claim → Result String}
    (hjudge : judgeReplay c raw b head facts = .ok (.append claim reply)) [IdGenerator]
    {stored : Claim} (hstored : ∃ seq n, stored = State.storedClaim l.version seq n claim)
    (hrows : t.claims l.version = s.claims l.version ++ [stored]) :
    l.Archives t ∧ stored ∈ l.replays t ∧ utf8 stored.value = raw := by
  obtain ⟨hnone, hproposal, hresult, hsubject, hkey, -, haccepted, htext, hattested, -⟩ :=
    judgeReplay_append hjudge
  obtain ⟨seq, n, rfl⟩ := hstored
  have hreplays : l.replays t = l.replays s ++ [State.storedClaim l.version seq n claim] := by
    rw [replays_of_claims hrows]
    simp [State.storedClaim, hsubject]
  refine ⟨⟨?_, ?_, ?_⟩, ?_, htext⟩
  · intro row hrow
    rw [hreplays, List.mem_append, List.mem_singleton] at hrow
    rcases hrow with hold | rfl
    · exact h.accepted row hold
    · exact haccepted
  · rw [hreplays, List.map_append, List.nodup_append]
    refine ⟨h.unique, List.nodup_singleton _, ?_⟩
    intro key hold other hother heq
    obtain ⟨row, hrow, rfl⟩ := List.mem_map.mp hold
    obtain rfl : other = claim.key := by simpa [State.storedClaim] using hother
    have hmine : isReplayOf b.operation row = true :=
      (mem_replays.mpr ⟨hrow, heq.trans hkey⟩).2
    rw [hnone row (hseen row hrow)] at hmine
    cases hmine
  · rw [hrows]
    apply h.earned.snoc
    intro _
    refine ⟨b, ?_, hkey, hattested, hproposal.mono hfacts, hresult.mono hfacts⟩
    simpa only [State.storedClaim, htext] using hunpacked
  · rw [hreplays]
    exact List.mem_append_right _ (List.mem_singleton_self _)

variable [Platform] [IdGenerator]

/-- The ledger and its archive. -/
structure Archived (l : EventLedger) (s : State) : Prop where
  kept : l.Kept s
  archives : l.Archives s

def KeepsArchive (l : EventLedger) (s t : State) : Prop :=
  l.Archived s → l.Archived t ∧ Later l.version s t

theorem relyArchive (l : EventLedger) : Rely l.version l.Archived l.KeepsArchive :=
  rely_of_invariant fun _ h => h.kept.root

omit [FoundationSchema] [Sha256] [SerdeJson] [IdGenerator] in
theorem replays_kept {l : EventLedger} {s t : State} (h : Later l.version s t) {row : Claim}
    (hrow : row ∈ l.replays s) : row ∈ l.replays t := by
  obtain ⟨more, hmore, -⟩ := h.rows
  rw [replays_of_claims hmore]
  exact List.mem_append_left _ hrow

/-- Readers of the archive see all of it. -/
theorem Archived.mem_slice {l : EventLedger} {s : State} (h : l.Archived s) {row : Claim}
    (hrow : row ∈ l.replays s) : row ∈ acceptedSlice (s.claims l.version) := by
  have hslice : (acceptedSlice (s.claims l.version)).filter
      (fun c => c.subject == replaySubject) = l.replays s := by
    apply acceptedSlice_filter h.kept.plain
    intro c hc hs
    exact h.archives.accepted c (List.mem_filter.mpr ⟨hc, hs⟩)
  exact List.mem_of_mem_filter (hslice ▸ hrow)

omit [FoundationSchema] [Sha256] [SerdeJson] [Platform] [IdGenerator] in
theorem slice_subset (rows : List Claim) : acceptedSlice rows ⊆ rows :=
  fun _ hc => List.mem_of_mem_filter hc

omit [Platform] [IdGenerator] in
/-- Two rows of one operation are one. -/
theorem Archives.eq_of_key {l : EventLedger} {s : State} (h : l.Archives s) {row other : Claim}
    (hrow : row ∈ l.replays s) (hother : other ∈ l.replays s) (hkey : other.key = row.key) :
    other = row := List.inj_on_of_nodup_map h.unique hother hrow hkey

/-- Nothing that is recorded stands against an archived bundle. -/
theorem Archived.consistent {l : EventLedger} {s : State} (h : l.Archived s) {row : Claim}
    {before after : List Claim} {b : ReplayBundle} (hrow : row ∈ l.replays s)
    (hsplit : s.claims l.version = before ++ row :: after) (hearned : l.Earned before row b) :
    ∀ fact ∈ s.claims l.version, Consistent (utf8 row.value) b fact := by
  intro fact hfact
  constructor
  · intro hmine
    obtain ⟨hreplay, hkey⟩ := mem_replays.mp ⟨hfact, hmine⟩
    rw [h.archives.eq_of_key hrow hreplay (hkey.trans hearned.key.symm)]
  · intro hsubject
    have hrecord : fact ∈ l.records s := List.mem_filter.mpr ⟨hfact, beq_iff_eq.mpr hsubject⟩
    obtain ⟨event, hread⟩ := h.kept.readable fact hrecord
    refine ⟨event, hread, ?_⟩
    intro hop
    obtain ⟨p, hp, hpsubject, proposal, hpread, hpop, hpbound, -⟩ := hearned.proposal
    have hprecord : p ∈ l.records s := by
      rw [records, hsplit, List.mem_filter]
      exact ⟨List.mem_append_left _ hp, beq_iff_eq.mpr hpsubject⟩
    have hevents {c : Claim} {e : Json} (hc : c ∈ l.records s) (he : readEvent c = some e) :
        e ∈ l.events s := List.mem_filterMap.mpr ⟨c, hc, he⟩
    have hagree := h.kept.agree event (hevents hrecord hread) proposal (hevents hprecord hpread)
    rw [hagree.request (hop.trans hpop.symm), hpbound]

inductive LedgerCall where
  | append (c : RecorderContext) (raw : Bytes)
  | archive (c : RecorderContext) (raw : Bytes)
  | lookup (c : RecorderContext) (operation : String)

inductive LedgerReply where
  | acknowledged (ack : Json)
  | archived (digest : String)
  | found (replay : Option (Bytes × String))

def ledgerProgram (l : EventLedger) : LedgerCall → Shared State (Result LedgerReply)
  | .append c raw => (l.append c raw).map (Except.map .acknowledged)
  | .archive c raw => (l.archiveReplay c raw).map (Except.map .archived)
  | .lookup c operation => (l.replay c operation).map (Except.map .found)

/-- What a call's answer says of the archive. -/
def Promised (l : EventLedger) : LedgerCall → Result LedgerReply → State → Prop
  | .append _ _, _, _ => True
  | .archive _ raw, a, s => ∀ digest, a = .ok (.archived digest) →
      digest = replayDigest raw ∧ ∃ row ∈ l.replays s, utf8 row.value = raw
  | .lookup _ operation, a, s => ∀ raw digest, a = .ok (.found (some (raw, digest))) →
      digest = replayDigest raw ∧ ∃ row ∈ l.replays s, row.key = operation ∧ utf8 row.value = raw

/-- The other writers of the store: any command that stores neither an event nor a replay in the
ledger's version and supersedes nothing there. -/
def Elsewhere [Unicode] (l : EventLedger) (f : State → State) : Prop :=
  ∃ c : Command, f = (fun s => c.step s) ∧ (c.claimTarget = some l.version →
    ∀ m ∈ c.newClaims, m.subject ≠ subject ∧ m.subject ≠ replaySubject ∧
      m.supersedesId = none)

section Promises
variable [Unicode]

theorem Elsewhere.keeps {l : EventLedger} {f : State → State} (hf : l.Elsewhere f) {s : State}
    (h : l.Archived s) : l.Archived (f s) ∧ Later l.version s (f s) := by
  obtain ⟨c, rfl, hc⟩ := hf
  have houtside : l.Outside fun s => c.step s :=
    ⟨c, rfl, fun htarget m hm => ⟨(hc htarget m hm).1, (hc htarget m hm).2.2⟩⟩
  obtain ⟨hkept, hlater⟩ := houtside.keeps h.kept
  refine ⟨⟨hkept, ?_⟩, hlater⟩
  rcases c.step_rows s l.version with hsame | ⟨htarget, head, hrows⟩
  · have hrows : (c.step s).claims l.version = s.claims l.version ++ [] := by
      rw [hsame, List.append_nil]
    exact h.archives.frame hrows (by simp)
  · apply h.archives.frame hrows
    intro x hx
    obtain ⟨m, hm, i, j, rfl⟩ := exists_of_mem_stampClaims hx
    exact (hc htarget m hm).2.1

theorem append_keepsArchive (l : EventLedger) (c : RecorderContext) (raw : Bytes) {s : State}
    (hs : l.Archived s) :
    (l.append c raw).Ensures l.KeepsArchive l.KeepsArchive (fun _ _ => True) s := by
  unfold append
  cases hprepared : l.prepare c raw with
  | error e => exact fun t _ => trivial
  | ok prepared =>
    obtain ⟨event, digest⟩ := prepared
    apply l.relyArchive.retryAtHead l.relyArchive.refl (fun _ _ => trivial)
      (fun _ _ _ _ _ _ _ _ => trivial) _ _ _ 16 hs
    · intro t t' head claim reply stored ht hjudge hx
      refine ⟨fun _ => ?_, fun _ _ => trivial⟩
      obtain ⟨hroot, hlater⟩ := ht.kept.root.appendClaim hx
      obtain ⟨-, hstored, hrows⟩ := appendClaim_eq_ok hx
      obtain ⟨hkept, hmem, -⟩ := ht.kept.record hroot hprepared hjudge ⟨_, _, hstored⟩ hrows
      have hsubject : stored.subject = subject := by
        simpa using (List.mem_filter.mp hmem).2
      refine ⟨⟨hkept, ht.archives.frame hrows ?_⟩, hlater⟩
      intro x hx
      obtain rfl := List.mem_singleton.mp hx
      rw [hsubject]
      decide
    · intro head facts claims reply hjudge
      exact absurd hjudge judge_not_appendAll
    · intro t t' head claims reply stored ht hjudge
      exact absurd hjudge judge_not_appendAll

theorem archive_ensures (l : EventLedger) (c : RecorderContext) (raw : Bytes) {s : State}
    (hs : l.Archived s) :
    (l.archiveReplay c raw).Ensures l.KeepsArchive l.KeepsArchive (fun a t => ∀ digest,
      a = .ok digest → digest = replayDigest raw ∧ ∃ row ∈ l.replays t, utf8 row.value = raw)
      s := by
  have hfail (e : KernelError) (t : State) : ∀ digest, Except.error e = Except.ok digest →
      digest = replayDigest raw ∧ ∃ row ∈ l.replays t, utf8 row.value = raw := by
    intro digest hdigest
    cases hdigest
  unfold archiveReplay
  cases hprepared : l.prepareReplay c raw with
  | error e => exact fun t _ => hfail e t
  | ok b =>
    obtain ⟨-, hunpacked⟩ := prepareReplay_ok hprepared
    have hdigest := (unpackReplay_ok hunpacked).1
    apply l.relyArchive.retryAtHead l.relyArchive.refl hfail _ _ _ _ 16 hs
    · intro t u head a ht htu hh hjudge digest ha
      cases ha
      obtain ⟨hscan, rfl⟩ := judgeReplay_reply hjudge
      obtain ⟨row, hrow, hmine, htext⟩ := exists_of_scanReplay hscan
      obtain ⟨hreplay, -⟩ := mem_replays.mp ⟨slice_subset _ hrow, hmine⟩
      exact ⟨hdigest, row, replays_kept (htu ht).2 hreplay, htext⟩
    · intro t t' head claim reply stored ht hjudge hx
      obtain ⟨hroot, hlater⟩ := ht.kept.root.appendClaim hx
      obtain ⟨-, hstored, hrows⟩ := appendClaim_eq_ok hx
      obtain ⟨harchives, hmem, htext⟩ := ht.archives.record hunpacked (slice_subset _)
        (fun row hrow => ht.mem_slice hrow) hjudge ⟨_, _, hstored⟩ hrows
      obtain ⟨-, -, -, hsubject, -, hplain, -, -, -, hreply⟩ := judgeReplay_append hjudge
      have hkept : l.Kept t' := by
        apply ht.kept.frame hroot hrows
        intro x hx
        obtain rfl := List.mem_singleton.mp hx
        rw [hstored]
        refine ⟨?_, hplain⟩
        simp only [State.storedClaim, hsubject]
        decide
      refine ⟨fun _ => ⟨⟨hkept, harchives⟩, hlater⟩, ?_⟩
      intro u hu digest ha
      rw [hreply] at ha
      cases ha
      exact ⟨hdigest, stored, replays_kept (hu ⟨hkept, harchives⟩).2 hmem, htext⟩
    · intro head facts claims reply hjudge
      exact absurd hjudge judgeReplay_not_appendAll
    · intro t t' head claims reply stored ht hjudge
      exact absurd hjudge judgeReplay_not_appendAll

omit [Unicode] in
theorem replay_ensures (l : EventLedger) (c : RecorderContext) (operation : String) {s : State}
    (hs : l.Archived s) {P : Result (Option (Bytes × String)) → State → Prop}
    (hfail : ∀ e t, P (.error e) t)
    (hfound : ∀ t u, l.Archived t → l.KeepsArchive s t → l.KeepsArchive t u →
      P (l.findReplay operation none (acceptedSlice (t.claims l.version))) u) :
    (l.replay c operation).Ensures l.KeepsArchive Eq P s := by
  unfold replay
  cases l.authorize c false with
  | error e => exact fun t _ => hfail e t
  | ok u =>
    apply l.relyArchive.readAtHead (fun _ => rfl) hs
    intro t u head ht hst htu _
    exact fun w huw => hfound t w ht hst (l.relyArchive.trans t u w htu huw)

theorem archiveBounds (l : EventLedger) : Pool.Bounds l.ledgerProgram l.Elsewhere l.Archived
    l.KeepsArchive (fun _ => l.KeepsArchive) l.Promised where
  refl := l.relyArchive.refl
  trans := l.relyArchive.trans
  keeps := l.relyArchive.keeps
  start r s hs := by
    cases r with
    | append c raw =>
      apply Shared.Ensures.map
      exact l.append_keepsArchive c raw hs
    | archive c raw =>
      apply Shared.Ensures.map
      apply (l.archive_ensures c raw hs).weaken (fun _ _ h => h)
      intro a t ha digest hdigest
      cases a with
      | error e => cases hdigest
      | ok found =>
        cases hdigest
        exact ha _ rfl
    | lookup c operation =>
      apply Shared.Ensures.map
      have hsame (t u : State) (h : t = u) : l.KeepsArchive t u := h ▸ l.relyArchive.refl t
      apply (l.replay_ensures c operation hs _ _).weaken hsame (fun _ _ h => h)
      · intro e t raw digest hfound
        cases hfound
      · intro t u ht _ htu raw digest hfound
        cases hfind : l.findReplay operation none (acceptedSlice (t.claims l.version)) with
        | error e =>
          rw [hfind] at hfound
          cases hfound
        | ok found =>
          rw [hfind] at hfound
          cases hfound
          obtain ⟨row, hrow, hmine, hr⟩ := (exists_of_findReplay hfind).resolve_left (by simp)
          obtain ⟨rfl, rfl⟩ := Prod.mk.inj hr
          obtain ⟨hreplay, hkey⟩ := mem_replays.mp ⟨slice_subset _ hrow, hmine⟩
          exact ⟨rfl, row, replays_kept (htu ht).2 hreplay, hkey, rfl⟩
  guarantee _ _ _ _ h := h
  outside _ hf _ _ := fun hs => hf.keeps hs

section Again
variable {l : EventLedger} {s : State} {row : Claim}

omit [Unicode] in
/-- The bytes of an archived row are answered with its digest. -/
theorem archive_again (hs : l.Archived s) (hrow : row ∈ l.replays s) {c : RecorderContext}
    (hauthorized : l.authorize c true = .ok ()) :
    (l.archiveReplay c (utf8 row.value)).Ensures l.KeepsArchive Eq
      (fun a _ => a = .ok (replayDigest (utf8 row.value))) s := by
  obtain ⟨_, _, b, _, hb⟩ := hs.archives.earned_of_mem hrow
  have hprepared : l.prepareReplay c (utf8 row.value) = .ok b := by
    simp only [prepareReplay, hauthorized, hb.unpacked, bind, Except.bind]
  unfold archiveReplay
  rw [hprepared]
  apply l.relyArchive.retryAtHead_settled hs
  intro t _ head ht hst _ _
  have hrow := replays_kept (hst hs).2 hrow
  obtain ⟨before, after, b', hsplit, hearned⟩ := ht.archives.earned_of_mem hrow
  obtain rfl : b' = b := Except.ok.inj (hearned.unpacked.symm.trans hb.unpacked)
  have hconsistent := ht.consistent hrow hsplit hearned
  refine .inl ⟨b'.digest, ?_, by rw [hearned.digest_eq]⟩
  apply judgeReplay_archived fun fact hfact => hconsistent fact (slice_subset _ hfact)
  exact ⟨row, ht.mem_slice hrow, (mem_replays.mpr ⟨hrow, hearned.key⟩).2⟩

omit [Unicode] in
/-- Other bytes that name the operation of an archived row are refused. -/
theorem archive_other (hs : l.Archived s) (hrow : row ∈ l.replays s) (c : RecorderContext)
    {raw : Bytes} {bundle : Json} (hother : raw ≠ utf8 row.value)
    (hread : SerdeJson.fromSlice raw = some bundle)
    (hnames : bundle["request"]["operation_id"] = .str row.key) :
    (l.archiveReplay c raw).Ensures l.KeepsArchive Eq (fun a _ => ∃ e, a = .error e) s := by
  unfold archiveReplay
  cases hprepared : l.prepareReplay c raw with
  | error e => exact fun _ _ => ⟨e, rfl⟩
  | ok b =>
    have hkey : b.operation = row.key := by
      obtain ⟨-, bundle', hread', -, -, hoperation, -⟩ :=
        unpackReplay_ok (prepareReplay_ok hprepared).2
      obtain rfl : bundle' = bundle := Option.some.inj (hread'.symm.trans hread)
      exact Json.str.inj (hoperation.symm.trans hnames)
    apply l.relyArchive.retryAtHead_settled hs
    intro t _ head ht hst _ _
    have hrow := replays_kept (hst hs).2 hrow
    have hrefuses : ∃ e, judgeReplay c raw b head (acceptedSlice (t.claims l.version)) =
        .error e := by
      apply judgeReplay_refuses
      · exact ⟨row, ht.mem_slice hrow, (mem_replays.mpr ⟨hrow, hkey.symm⟩).2⟩
      · intro fact hfact hmine hsame
        obtain ⟨hreplay, hfactKey⟩ := mem_replays.mp ⟨slice_subset _ hfact, hmine⟩
        have hone := ht.archives.eq_of_key hrow hreplay (hfactKey.trans hkey)
        exact hother (hone ▸ hsame.symm)
    obtain ⟨e, he⟩ := hrefuses
    exact .inr ⟨e, he, e, rfl⟩

omit [Unicode] in
theorem Archived.filter_slice (hs : l.Archived s) (hrow : row ∈ l.replays s) :
    (acceptedSlice (s.claims l.version)).filter (isReplayOf row.key) = [row] := by
  have hslice : (acceptedSlice (s.claims l.version)).filter (isReplayOf row.key) =
      (s.claims l.version).filter (isReplayOf row.key) := by
    apply acceptedSlice_filter hs.kept.plain
    intro c hc hmine
    exact hs.archives.accepted c (mem_replays.mp ⟨hc, hmine⟩).1
  have hkeys : (s.claims l.version).filter (isReplayOf row.key) =
      (l.replays s).filter (·.key == row.key) := by
    rw [replays, List.filter_filter]
    apply List.filter_congr
    intro c _
    rw [isReplayOf, Bool.and_comm]
  rw [hslice, hkeys, List.filter_of_nodup hs.archives.unique hrow]

omit [Unicode] in
/-- A lookup of an archived operation gives its bytes and their digest. -/
theorem lookup_archived (hs : l.Archived s) (hrow : row ∈ l.replays s) {c : RecorderContext}
    (hauthorized : l.authorize c false = .ok ()) :
    (l.replay c row.key).Ensures l.KeepsArchive Eq
      (fun a _ => a = .ok (some (utf8 row.value, replayDigest (utf8 row.value)))) s := by
  unfold replay
  rw [hauthorized]
  apply l.relyArchive.readAtHead (fun _ => rfl) hs
  intro t u head ht hst _ _ w _
  have hrow := replays_kept (hst hs).2 hrow
  obtain ⟨_, _, b, _, hearned⟩ := ht.archives.earned_of_mem hrow
  rw [findReplay_filter, ht.filter_slice hrow,
    findReplay_one (mem_replays.mpr ⟨hrow, rfl⟩).2 hearned.attests]

end Again

omit [Unicode] in
/-- Only a call that succeeds changes the store. -/
theorem ledgerProgram_changes (l : EventLedger) (r : LedgerCall) :
    (l.ledgerProgram r).ChangesWith Eq fun a => ∃ reply, a = .ok reply := by
  cases r with
  | append c raw =>
    apply Shared.ChangesWith.map
    apply (l.append_changes ⟨c, raw⟩).weaken
    rintro a ⟨j, rfl⟩
    exact ⟨_, rfl⟩
  | archive c raw =>
    apply Shared.ChangesWith.map
    unfold archiveReplay
    cases l.prepareReplay c raw with
    | error e => trivial
    | ok b =>
      apply retryAtHead_changes fun _ => rfl
      · intro head facts claim reply s stored t hjudge _
        obtain ⟨-, -, -, -, -, -, -, -, -, rfl⟩ := judgeReplay_append hjudge
        exact .inr ⟨_, rfl⟩
      · intro head facts claims reply hjudge
        exact absurd hjudge judgeReplay_not_appendAll
  | lookup c operation =>
    apply Shared.ChangesWith.map
    unfold replay
    cases l.authorize c false with
    | error e => trivial
    | ok u =>
      apply Shared.changesWith_read fun _ => rfl
      intro head
      cases head with
      | error e => trivial
      | ok head =>
        apply Shared.changesWith_read fun _ => rfl
        intro facts
        cases facts <;> trivial

/-- A call that starts now changes nothing, and wherever it stands in a run that goes on, it
answers as said when it is left to itself. -/
def Settles (l : EventLedger) (g : Pool State LedgerCall (Result LedgerReply)) (r : LedgerCall)
    (P : Result LedgerReply → Prop) : Prop :=
  ∀ g', Pool.Run l.ledgerProgram l.Elsewhere (g.step l.ledgerProgram (.start r)) g' →
    (g'.advance g.calls.length).state = g'.state ∧
      ∃ k a, (fun g' => g'.advance g.calls.length)^[k] g' =
        { g' with calls := g'.calls.set g.calls.length (r, .done a) } ∧ P a

theorem settles_of_ensures {l : EventLedger} {g : Pool State LedgerCall (Result LedgerReply)}
    (hsound : g.Sound l.Archived l.KeepsArchive (fun _ => l.KeepsArchive) l.Promised)
    {r : LedgerCall} {P : Result LedgerReply → Prop}
    (h : (l.ledgerProgram r).Ensures l.KeepsArchive Eq (fun a _ => P a) g.state) :
    l.Settles g r P := by
  intro g' hrun
  obtain ⟨p, hp, hpromise⟩ := hsound.started l.archiveBounds hrun h
  exact ⟨Pool.advance_state_eq l.relyArchive.refl hp hpromise,
    Pool.settles l.relyArchive.refl hp hpromise⟩

theorem archived_empty {l : EventLedger} {s : State} (h : Reachable s)
    (hroot : s.versions l.version = some none) (hempty : s.claims l.version = []) :
    l.Archived s := by
  have hreplays : l.replays s = [] := by rw [replays, hempty, List.filter_nil]
  refine ⟨kept_empty h hroot hempty, by simp [hreplays], by simp [hreplays], ?_⟩
  rw [hempty]
  exact .nil

/-- In every state that appends, archives and lookups by any recorders reach, interleaved with
each other and with other writers of the store: an operation has at most one replay; every
replay joined rows that held its proposal and its result, both bound to its request; its
bytes get its digest again, other bytes for its operation are refused, a lookup gives its
bytes with their digest, and none of these changes the store; and a call changes the store
only with the answer that it succeeded. -/
theorem replay_archives {l : EventLedger} {s₀ : State} (h₀ : Reachable s₀)
    (hroot : s₀.versions l.version = some none) (hempty : s₀.claims l.version = [])
    {g : Pool State LedgerCall (Result LedgerReply)}
    (hrun : Pool.Run l.ledgerProgram l.Elsewhere { state := s₀ } g) :
    ((l.replays g.state).map (·.key)).Nodup ∧
    Justified l.EarnedIn (g.state.claims l.version) ∧
    (∀ (i : ℕ) r a, g.calls[i]? = some (r, .done a) → l.Promised r a g.state) ∧
    (∀ row ∈ l.replays g.state,
      (∀ c, l.authorize c true = .ok () → l.Settles g (.archive c (utf8 row.value)) fun a =>
        a = .ok (.archived (replayDigest (utf8 row.value)))) ∧
      (∀ c raw bundle, raw ≠ utf8 row.value → SerdeJson.fromSlice raw = some bundle →
        bundle["request"]["operation_id"] = .str row.key →
        l.Settles g (.archive c raw) fun a => ∃ e, a = .error e) ∧
      ∀ c, l.authorize c false = .ok () → l.Settles g (.lookup c row.key) fun a =>
        a = .ok (.found (some (utf8 row.value, replayDigest (utf8 row.value))))) ∧
    ∀ i, (g.advance i).state = g.state ∨
      ∃ r reply, (g.advance i).calls[i]? = some (r, .done (.ok reply)) := by
  have hstart : Pool.Sound l.Archived l.KeepsArchive (fun _ => l.KeepsArchive) l.Promised
      { state := s₀ } := ⟨archived_empty h₀ hroot hempty, by simp⟩
  have hsound := (hstart.run l.archiveBounds hrun).1
  have harchived := hsound.state
  refine ⟨harchived.archives.unique, harchived.archives.earned, ?_, ?_, ?_⟩
  · intro i r a hi
    exact hsound.answer l.archiveBounds hi
  · intro row hrow
    refine ⟨?_, ?_, ?_⟩
    · intro c hauthorized
      apply settles_of_ensures hsound
      apply Shared.Ensures.map
      apply (archive_again harchived hrow hauthorized).weaken (fun _ _ h => h)
      rintro a t rfl
      rfl
    · intro c raw bundle hother hread hnames
      apply settles_of_ensures hsound
      apply Shared.Ensures.map
      apply (archive_other harchived hrow c hother hread hnames).weaken (fun _ _ h => h)
      rintro a t ⟨e, rfl⟩
      exact ⟨e, rfl⟩
    · intro c hauthorized
      apply settles_of_ensures hsound
      apply Shared.Ensures.map
      apply (lookup_archived harchived hrow hauthorized).weaken (fun _ _ h => h)
      rintro a t rfl
      rfl
  · intro i
    have hchanges := Pool.Run.changesWith l.ledgerProgram_changes (g := { state := s₀ })
      (by simp) hrun
    rcases Pool.advance_changes hchanges i with hsame | ⟨r, p, hi, hsame | ⟨a, rfl, reply, rfl⟩⟩
    · exact .inl hsame
    · exact .inl hsame.symm
    · exact .inr ⟨r, reply, hi⟩

end Promises
end

section
attribute [local instance] asciiUnicode samplePlatform unaryIds plainSha256

def replayRequest : Json := .object [("attachments", .arr []), ("operation_id", .str "op-1"),
  ("tenant", .str "alpha")]

def replayRequestDigest : String := sampleDigest "munarium:decision-request:v1" "request"

def replayRefusal : Json := .object [("operation_id", .str "op-1"),
  ("request_digest", .str replayRequestDigest), ("tenant", .str "alpha")]

def replayEvent (id kind : String) (sequence : ℤ) (prior payload : Json) (text : String) : Json :=
  .object [("event_id", .str id), ("kind", .str kind), ("operation_id", .str "op-1"),
    ("payload", payload),
    ("payload_digest", .str (sampleDigest "munarium:decision-event-payload:v1" text)),
    ("prior_event_digest", prior), ("request_digest", .str replayRequestDigest),
    ("sequence", .int sequence), ("source_epoch", .int 1), ("source_service", .str "svc-gate"),
    ("tenant", .str "alpha")]

def proposedEvent : Json := replayEvent "event-1" "proposal" 1 .null replayRequest "request"

def refusedEvent : Json := replayEvent "event-2" "refusal" 2
  (.str (sampleDigest "munarium:decision-event:v1" "proposed")) replayRefusal "refusal"

def replayBundle : Json := .object [("decision", replayRefusal), ("request", replayRequest)]

abbrev replaySerde : SerdeJson := tabledSerde [(replayRequest, "request"),
  (replayRefusal, "refusal"), (proposedEvent, "proposed"), (refusedEvent, "refused"),
  (replayBundle, "bundle")]

abbrev replayFoundation : FoundationSchema where
  isValid kind v := [("request", replayRequest), ("refusal", replayRefusal),
    ("event", proposedEvent), ("event", refusedEvent)].contains (kind, v)

attribute [local instance] replaySerde replayFoundation

/-- One recorder archives while another still records the refusal. -/
def racingArchive : List (Pool.Event State LedgerCall) :=
  [.start (.append sampleContext (utf8 "proposed")), .advance 0, .advance 0, .advance 0,
    .start (.archive sampleContext (utf8 "bundle")), .advance 1,
    .start (.append sampleContext (utf8 "refused")), .advance 2, .advance 2, .advance 2,
    .advance 1, .start (.archive sampleContext (utf8 "bundle")), .advance 3, .advance 3,
    .advance 3]

def afterArchive : Pool State LedgerCall (Result LedgerReply) :=
  Pool.play sampleLedger.ledgerProgram { state := Command.run {} [.createVersion none none] }
    racingArchive

/-- The archive that read too early is refused, the later one is archived. -/
theorem replay_archives_after_race :
    ((sampleLedger.replays afterArchive.state).map fun row => (row.key, row.value)) =
      [("op-1", "bundle")] ∧
    Justified sampleLedger.EarnedIn (afterArchive.state.claims sampleLedger.version) := by
  have hrun : Pool.Run sampleLedger.ledgerProgram sampleLedger.Elsewhere
      { state := Command.run {} [.createVersion none none] } afterArchive := by
    apply Pool.Run.of_play
    simp [racingArchive]
  have h := replay_archives (l := sampleLedger) (RunWhere.of_run {} [.createVersion none none])
    (by decide +kernel) (by decide +kernel) hrun
  exact ⟨by decide +kernel, h.2.1⟩

end

end EventLedger
end Munarium

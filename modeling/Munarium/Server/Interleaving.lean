import Munarium.Server.GateView
import Munarium.Store.PinnedReads

/-! Commands of many clients, interleaved call by call with every other write. Between a
command's reads and its append only the head of its version is compared, so a decision is
current where no write into an ancestor hides below that head. -/
namespace Munarium

namespace Phase

/-- The head a command observed, once it has read the facts at it. -/
def factsRead : Phase → Option ℕ
  | readAnchors _ head _ => some head
  | readPromises _ head _ => some head
  | readCounters _ head _ => some head
  | readMetadata _ head _ => some head
  | append _ head _ _ _ => some head
  | _ => none

/-- The head a command observed, once it has read the anchors at it. -/
def anchorsRead : Phase → Option ℕ
  | readPromises _ head _ => some head
  | readCounters _ head _ => some head
  | readMetadata _ head _ => some head
  | append _ head _ _ _ => some head
  | _ => none

/-- The head a command observed. -/
def observed : Phase → Option ℕ
  | readFacts _ head => some head
  | readAnchors _ head _ => some head
  | readPromises _ head _ => some head
  | readCounters _ head _ => some head
  | readMetadata _ head _ => some head
  | append _ head _ _ _ => some head
  | _ => none

section
variable [Platform]

/-- The head of the version has moved since the command observed it. -/
def Stale (r : AppendRequest) (s : State) (p : Phase) : Prop :=
  ∃ seen head, p.observed = some seen ∧ s.headOf r.versionId = .ok head ∧ seen < head

variable [Unicode]

theorem upToDate_of_observed {r : AppendRequest} {s : State} {p : Phase}
    (h : p.observed = none) : UpToDate r s p := by
  cases p with
  | readHead => trivial
  | persist => trivial
  | returned => trivial
  | _ => cases h

theorem UpToDate.head {r : AppendRequest} {s : State} {p : Phase} (h : UpToDate r s p)
    {seen : ℕ} (hp : p.observed = some seen) : s.headOf r.versionId = .ok seen := by
  cases p with
  | readHead => cases hp
  | persist => cases hp
  | returned => cases hp
  | readFacts =>
    cases hp
    exact h
  | readAnchors =>
    cases hp
    exact h.1
  | append =>
    cases hp
    obtain ⟨snapshot, comparisons, hshows, -⟩ := h
    exact hshows.at_head
  | _ =>
    cases hp
    exact State.Shows.at_head h

/-- Being up to date depends on the version's head, its metadata and what was read of its
facts and anchors. -/
theorem UpToDate.frame {r : AppendRequest} {s s' : State} {p : Phase} {seen : ℕ}
    (h : UpToDate r s p) (hp : p.observed = some seen)
    (hhead : s'.headOf r.versionId = .ok seen)
    (hfacts : p.factsRead = some seen → s'.sliceFacts r.versionId { asOfSeq := some seen } =
      s.sliceFacts r.versionId { asOfSeq := some seen })
    (hanchors : p.anchorsRead = some seen → s'.anchorsAt r.versionId (some seen) =
      s.anchorsAt r.versionId (some seen))
    (hmeta : s'.versionMeta r.versionId = s.versionMeta r.versionId) : UpToDate r s' p := by
  have hshows {snapshot : MeshSnapshot} (hf : p.factsRead = some seen)
      (ha : p.anchorsRead = some seen) (h : s.Shows r.versionId seen snapshot) :
      s'.Shows r.versionId seen snapshot :=
    ⟨hhead, (hfacts hf).trans h.facts, (hanchors ha).trans h.anchors⟩
  cases p with
  | readHead => trivial
  | persist => trivial
  | returned => trivial
  | readFacts =>
    cases hp
    exact hhead
  | readAnchors =>
    cases hp
    exact ⟨hhead, (hfacts rfl).trans h.2⟩
  | append =>
    cases hp
    obtain ⟨snapshot, comparisons, hs, hc, hrest⟩ := h
    exact ⟨snapshot, comparisons, hshows rfl rfl hs, by rw [hmeta, hc], hrest⟩
  | _ =>
    cases hp
    exact hshows rfl rfl h

end

section
variable [Unicode] [Platform] [IdGenerator]

/-- A successful write into a proper ancestor of the command's version passes the head the
command observed, if it is of a kind the command has read already. -/
def KeepsReads (r : AppendRequest) (p : Phase) (s : State) (c : Command) : Prop :=
  ∀ s', c.exec s = .ok s' → ∀ lineage, s.lineageOf r.versionId = .ok lineage →
    ∀ w ∈ lineage, w ≠ r.versionId → ∀ head seen, s.headOf w = .ok head →
      s.headOf r.versionId = .ok seen →
      (c.claimTarget = some w → p.factsRead = some seen → seen < head + c.rowCount) ∧
      (c.anchorTarget = some w → p.anchorsRead = some seen → seen < head + c.rowCount)

theorem Stale.effect {r : AppendRequest} {s s' : State} {c : Command} {p : Phase}
    (h : Stale r s p) (hs : Sound s) (he : Effect s c s') : Stale r s' p := by
  obtain ⟨seen, head, hp, hh, hlt⟩ := h
  obtain ⟨head', hh', hle⟩ := he.head_mono hs hh
  exact ⟨seen, head', hp, hh', hlt.trans_le hle⟩

/-- A write of somebody else moves the head or leaves what was read as it is. -/
theorem UpToDate.effect {r : AppendRequest} {s s' : State} {c : Command} {p : Phase}
    (h : UpToDate r s p) (hs : Sound s) (hx : c.exec s = .ok s') (hk : KeepsReads r p s c) :
    Stale r s' p ∨ UpToDate r s' p := by
  have he := Command.exec_effect hx
  cases hp : p.observed with
  | none => exact .inr (upToDate_of_observed hp)
  | some seen =>
    have hh := h.head hp
    obtain ⟨lineage, hl⟩ := State.lineage_of_head hh
    have hl' := he.lineageOf_eq hs hl
    obtain ⟨head', hh', hle⟩ := he.head_mono hs hh
    by_cases hmoved : seen < head'
    · exact .inl ⟨seen, head', hp, hh', hmoved⟩
    have hstays : head' = seen := by omega
    subst hstays
    -- a stamp in the lineage past the observed head would have moved it
    have hbelow {w : String} (hw : w ∈ lineage) {x : ℕ} (hx : x ∈ s'.stamps w) : x ≤ head' :=
      State.le_head hh' hl' hw hx
    have hclaims (hread : p.factsRead = some head') :
        ∀ w ∈ lineage, s'.claims w = s.claims w := by
      intro w hw
      by_contra hne
      obtain ⟨ht, hpos, head, hhw, hmem⟩ := he.claims_raise hne
      have hlast := hbelow hw hmem
      by_cases hv : w = r.versionId
      · subst hv
        rw [hh] at hhw
        cases hhw
        omega
      · have := (hk s' hx lineage hl w hw hv head head' hhw hh).1 ht hread
        omega
    have hanchors (hread : p.anchorsRead = some head') :
        ∀ w ∈ lineage, s'.anchors w = s.anchors w := by
      intro w hw
      by_contra hne
      obtain ⟨ht, hpos, head, hhw, hmem⟩ := he.anchors_raise hne
      have hlast := hbelow hw hmem
      by_cases hv : w = r.versionId
      · subst hv
        rw [hh] at hhw
        cases hhw
        omega
      · have := (hk s' hx lineage hl w hw hv head head' hhw hh).2 ht hread
        omega
    refine .inr (h.frame hp hh' (fun hread => ?_) (fun hread => ?_) ?_)
    · have hrows := List.flatMap_congr (hclaims hread)
      simp only [State.sliceFacts, State.lineageClaims, hl, hl', bind, Except.bind, hrows]
    · have hrows := List.flatMap_congr (hanchors hread)
      simp only [State.anchorsAt, hl, hl', bind, Except.bind, hrows]
    · exact (he.version_kept hs (State.lineage_known hl (State.self_mem_lineage hl))).2

omit [IdGenerator] in
theorem observed_gate (r : AppendRequest) (attempt head : ℕ) (snapshot : MeshSnapshot)
    (metadata : Option Json) : (gate r attempt head snapshot metadata).observed = none ∨
      (gate r attempt head snapshot metadata).observed = some head := by
  refine after_eq (P := fun p => p.observed = none ∨ p.observed = some head)
    (fun comparisons _ => ?_) fun e => .inl rfl
  dsimp only
  split_ifs
  · exact .inl rfl
  · exact after_eq (P := fun p => p.observed = none ∨ p.observed = some head)
      (fun recorded _ => .inr rfl) fun e => .inl rfl

/-- A read forgets the observed head only where it ends the command. -/
theorem Stale.read {r : AppendRequest} {s : State} {p : Phase} (h : Stale r s p)
    (happend : ∀ attempt head batch findings recorded,
      p ≠ .append attempt head batch findings recorded) :
    Stale r s (step r s p).1 ∨ UpToDate r s (step r s p).1 := by
  obtain ⟨seen, head, hp, hh, hlt⟩ := h
  have hobserved : (step r s p).1.observed = none ∨ (step r s p).1.observed = some seen := by
    cases p with
    | readHead => cases hp
    | persist => cases hp
    | returned => cases hp
    | append => exact absurd rfl (happend _ _ _ _ _)
    | readMetadata attempt h snapshot =>
      cases hp
      exact after_eq (P := fun p => p.observed = none ∨ p.observed = some seen)
        (fun metadata _ => observed_gate r attempt seen snapshot metadata) fun e => .inl rfl
    | _ =>
      cases hp
      exact after_eq (P := fun p => p.observed = none ∨ p.observed = some seen)
        (fun _ _ => .inr rfl) fun e => .inl rfl
  rcases hobserved with hnone | hsome
  · exact .inr (upToDate_of_observed hnone)
  · exact .inl ⟨seen, head, hsome, hh, hlt⟩

omit [Unicode] in
theorem observed_callAppend (r : AppendRequest) (s : State) (attempt head : ℕ)
    (batch : List NewClaim) (findings recorded : List GateFinding) :
    (callAppend r s attempt head batch findings recorded).1.observed = none := by
  unfold callAppend
  split
  · rfl
  · unfold appendFailed
    split
    · split_ifs <;> rfl
    · rfl

omit [Unicode] [IdGenerator] in
theorem observed_callPersist (r : AppendRequest) (s : State) (head : ℕ)
    (findings : List GateFinding) : (callPersist r s head findings).1.observed = none := by
  unfold callPersist
  split_ifs
  · rfl
  · split <;> rfl

/-- A command's own call leaves it stale or up to date. -/
theorem step_current {r : AppendRequest} {s : State} {p : Phase}
    (h : Stale r s p ∨ UpToDate r s p) :
    Stale r (step r s p).2 (step r s p).1 ∨ UpToDate r (step r s p).2 (step r s p).1 := by
  cases p with
  | append attempt head batch findings recorded =>
    exact .inr (upToDate_of_observed (observed_callAppend r s attempt head batch findings recorded))
  | persist head findings =>
    exact .inr (upToDate_of_observed (observed_callPersist r s head findings))
  | _ =>
    rcases h with hstale | hup
    · exact hstale.read (by simp)
    · exact .inr (hup.read (by simp) (by simp)).2

/-- The write a command makes next, if its next call is one. -/
def command (r : AppendRequest) : Phase → Option Command
  | append _ head batch _ recorded =>
      some (.appendEvaluatedClaims r.versionId batch head recorded)
  | persist head findings => some (.recordFindings r.versionId head findings)
  | _ => none

theorem step_store (r : AppendRequest) (s : State) (p : Phase) :
    (step r s p).2 = s ∨ ∃ c, p.command r = some c ∧ c.exec s = .ok (step r s p).2 := by
  cases p with
  | append attempt head batch findings recorded =>
    cases hx : s.appendEvaluatedClaims r.versionId batch head recorded with
    | error e => exact .inl (by simp only [step, callAppend, hx])
    | ok out =>
      refine .inr ⟨_, rfl, ?_⟩
      simp only [step, callAppend, Command.exec, hx, Except.map]
  | persist head findings =>
    by_cases hf : findings.isEmpty = true
    · exact .inl (by simp only [step, callPersist, hf, if_true])
    · cases hx : s.recordFindings r.versionId head findings with
      | error e =>
        exact .inl (by simp only [step, callPersist, hf, hx, if_false, Bool.false_eq_true])
      | ok out =>
        refine .inr ⟨_, rfl, ?_⟩
        simp only [step, callPersist, Command.exec, hf, hx, Except.map, if_false,
          Bool.false_eq_true]
  | _ => exact .inl rfl

end
end Phase

/-- The store and every client's command. -/
structure Server where
  store : State := {}
  clients : ℕ → Option (AppendRequest × Phase) := fun _ => none

/-- A client starts a command, a command makes its next call, or somebody writes to the
store directly (locks an anchor, creates a version). -/
inductive Event where
  | submit (i : ℕ) (r : AppendRequest)
  | call (i : ℕ)
  | write (c : Command)

namespace Server

section
variable [Unicode] [Platform] [IdGenerator]

def step (g : Server) : Event → Server
  | .submit i r => { g with clients := Function.update g.clients i (some (r, Phase.start r)) }
  | .call i =>
      match g.clients i with
      | none => g
      | some (r, p) => {
          store := (Phase.step r g.store p).2
          clients := Function.update g.clients i (some (r, (Phase.step r g.store p).1)) }
  | .write c => { g with store := c.step g.store }

def run (g : Server) (events : List Event) : Server := events.foldl step g

/-- The write an event makes. -/
def command (g : Server) : Event → Option Command
  | .submit _ _ => none
  | .call i => (g.clients i).bind fun client => client.2.command client.1
  | .write c => some c

/-- A run of events all of which meet a condition. -/
def RunWhere (C : Server → Event → Prop) : Server → Server → Prop :=
  Relation.ReflTransGen fun g g' => ∃ e, C g e ∧ g' = g.step e

/-- A write of one client into an ancestor of a version another client's command is in
flight on passes the head which that command observed. -/
def KeepsInFlight (g : Server) (e : Event) : Prop :=
  ∀ c, g.command e = some c → ∀ j r p, g.clients j = some (r, p) → e ≠ .call j →
    Phase.KeepsReads r p g.store c

/-- Every command is stale, and its append will fail, or up to date. -/
structure Current (g : Server) : Prop where
  sound : Sound g.store
  clients : ∀ i r p, g.clients i = some (r, p) → Phase.Stale r g.store p ∨
    Phase.UpToDate r g.store p

theorem current_init : Current {} := ⟨sound_init, by simp⟩

/-- One write of somebody else, seen by every command it does not belong to. -/
theorem Current.write {g : Server} (h : g.Current) {c : Command} {s' : State}
    (hx : c.exec g.store = .ok s') {j : ℕ} {r : AppendRequest} {p : Phase}
    (hj : g.clients j = some (r, p)) (hk : Phase.KeepsReads r p g.store c) :
    Phase.Stale r s' p ∨ Phase.UpToDate r s' p := by
  rcases h.clients j r p hj with hstale | hup
  · exact .inl (hstale.effect h.sound (Command.exec_effect hx))
  · exact hup.effect h.sound hx hk

theorem Current.step {g : Server} (h : g.Current) {e : Event} (he : KeepsInFlight g e) :
    (g.step e).Current := by
  cases e with
  | submit i r =>
    refine ⟨h.sound, fun j r' p hj => ?_⟩
    by_cases hji : j = i
    · subst hji
      simp only [Server.step, Function.update_self, Option.some.injEq, Prod.mk.injEq] at hj
      obtain ⟨rfl, rfl⟩ := hj
      exact .inr (Phase.upToDate_start r g.store)
    · simp only [Server.step, Function.update_of_ne hji] at hj
      exact h.clients j r' p hj
  | write c =>
    refine ⟨h.sound.step c, fun j r p hj => ?_⟩
    have hj : g.clients j = some (r, p) := hj
    show Phase.Stale r (c.step g.store) p ∨ Phase.UpToDate r (c.step g.store) p
    unfold Command.step
    cases hx : c.exec g.store with
    | error e => exact h.clients j r p hj
    | ok s' => exact h.write hx hj (he c rfl j r p hj (by simp))
  | call i =>
    cases hi : g.clients i with
    | none =>
      have hstep : g.step (.call i) = g := by simp only [Server.step, hi]
      rwa [hstep]
    | some client =>
      obtain ⟨r, p⟩ := client
      have hstep : g.step (.call i) = {
          store := (Phase.step r g.store p).2
          clients := Function.update g.clients i (some (r, (Phase.step r g.store p).1)) } := by
        simp only [Server.step, hi]
      rw [hstep]
      have hcases := Phase.step_store r g.store p
      refine ⟨?_, fun j r' p' hj => ?_⟩
      · rcases hcases with hsame | ⟨c, -, hx⟩
        · show Sound (Phase.step r g.store p).2
          rw [hsame]
          exact h.sound
        · exact h.sound.effect (Command.exec_effect hx)
      · by_cases hji : j = i
        · subst hji
          simp only [Function.update_self, Option.some.injEq, Prod.mk.injEq] at hj
          obtain ⟨rfl, rfl⟩ := hj
          exact Phase.step_current (h.clients j r p hi)
        · simp only [Function.update_of_ne hji] at hj
          rcases hcases with hsame | ⟨c, hc, hx⟩
          · rw [hsame]
            exact h.clients j r' p' hj
          · have hcommand : g.command (.call i) = some c := by
              simp only [Server.command, hi, Option.bind_some, hc]
            refine h.write hx hj (he c hcommand j r' p' hj ?_)
            simpa using Ne.symm hji

theorem Current.run {g g' : Server} (h : g.Current) (hrun : RunWhere KeepsInFlight g g') :
    g'.Current := by
  induction hrun with
  | refl => exact h
  | tail _ hstep ih =>
    obtain ⟨e, he, rfl⟩ := hstep
    exact ih.step he

/-- Whatever a command is about to store as accepted passes the gates at the snapshot of
its version in this very state. -/
def AppendsFresh (g : Server) : Prop :=
  ∀ i r attempt head batch findings recorded,
    g.clients i = some (r, .append attempt head batch findings recorded) →
    ∀ stored s', g.store.appendEvaluatedClaims r.versionId batch head recorded =
      .ok (stored, s') →
    ∀ now snapshot comparisons, g.store.headOf r.versionId = .ok now →
      g.store.loadSnapshot r.versionId none none (some now) = .ok snapshot →
      AppendRequest.comparisonsOf (g.store.versionMeta r.versionId) = .ok comparisons →
      ∀ c ∈ stored, c.status = .accepted →
        c.claimKey ∉ blockedClaimKeys (runGatesWithPolicies snapshot r.candidate comparisons)

/-- The client is about to store as accepted a claim that the gates block in this state. -/
def landsStale (g : Server) (i : ℕ) : Bool :=
  match g.clients i with
  | some (r, .append _ head batch _ recorded) =>
      match g.store.appendEvaluatedClaims r.versionId batch head recorded,
        g.store.loadSnapshot r.versionId none none (some head),
        AppendRequest.comparisonsOf (g.store.versionMeta r.versionId) with
      | .ok (stored, _), .ok snapshot, .ok comparisons => stored.any fun c =>
          c.status = .accepted && (blockedClaimKeys
            (runGatesWithPolicies snapshot r.candidate comparisons)).contains c.claimKey
      | _, _, _ => false
  | _ => false

theorem not_appendsFresh {g : Server} {i : ℕ} (h : g.landsStale i = true) :
    ¬g.AppendsFresh := by
  intro hfresh
  unfold landsStale at h
  split at h
  · rename_i r attempt head batch findings recorded hi
    split at h
    · rename_i stored s' snapshot comparisons hx hsnapshot hcomparisons
      obtain ⟨c, hc, hboth⟩ := List.any_eq_true.mp h
      simp only [Bool.and_eq_true, decide_eq_true_eq, List.contains_eq_mem] at hboth
      rcases appendBatch_eq_ok hx with ⟨-, rfl, -⟩ | hbatch
      · simp at hc
      obtain ⟨-, now, -, -, hnow, hexpected, -⟩ := hbatch
      have hhead : head = now := hexpected head rfl
      subst hhead
      exact hfresh i r attempt head batch findings recorded hi stored s' hx head snapshot
        comparisons hnow hsnapshot hcomparisons c hc hboth.1 hboth.2
    · cases h
  · cases h

theorem RunWhere.of_run {C : Server → Event → Prop} (g : Server) (events : List Event)
    (h : ∀ e ∈ events, ∀ g, C g e) : RunWhere C g (run g events) := by
  induction events generalizing g with
  | nil => exact .refl
  | cons e rest ih =>
    have hrest := ih (g.step e) fun e' he' => h e' (List.mem_cons_of_mem _ he')
    exact hrest.head ⟨e, h e List.mem_cons_self g, rfl⟩

/-- No event writes to the store. -/
def quiet (g : Server) : List Event → Bool
  | [] => true
  | e :: rest => (g.command e).isNone && quiet (g.step e) rest

theorem RunWhere.of_quiet {g : Server} {events : List Event} (h : g.quiet events = true) :
    RunWhere KeepsInFlight g (run g events) := by
  induction events generalizing g with
  | nil => exact .refl
  | cons e rest ih =>
    simp only [quiet, Bool.and_eq_true, Option.isNone_iff_eq_none] at h
    refine (ih h.2).head ⟨e, ?_, rfl⟩
    intro c hc
    rw [h.1] at hc
    cases hc

/-- No claim lands accepted on a gate decision made against a stale canon, in any run whose
writes into ancestors pass the heads observed by the commands in flight below them. -/
theorem accepted_claims_pass_current_gates {g : Server} (hrun : RunWhere KeepsInFlight {} g) :
    g.AppendsFresh := by
  intro i r attempt head batch findings recorded hi stored s' hx now snapshot comparisons hnow
    hsnapshot hcomparisons c hc haccepted hblocked
  rcases appendBatch_eq_ok hx with ⟨-, rfl, -⟩ | hbatch
  · simp at hc
  obtain ⟨-, now', existing, recorded', hnow', hexpected, -, -, rfl, -⟩ := hbatch
  rw [hnow] at hnow'
  cases hnow'
  have hhead : head = now := hexpected head rfl
  subst hhead
  rcases (current_init.run hrun).clients i r _ hi with hstale | hgated
  · obtain ⟨seen, head', hseen, hh, hlt⟩ := hstale
    cases hseen
    rw [hnow] at hh
    cases hh
    exact lt_irrefl _ hlt
  · obtain ⟨read, comparisons', hshows, hcomparisons', rfl, rfl⟩ := hgated
    have hnowShows := State.shows_of_loadSnapshot hnow hsnapshot
    have hfacts := hshows.facts.symm.trans hnowShows.facts
    have hanchors := hshows.anchors.symm.trans hnowShows.anchors
    rw [hcomparisons] at hcomparisons'
    cases hcomparisons'
    simp only [Except.ok.injEq] at hfacts hanchors
    obtain ⟨m, hm, i, j, rfl⟩ := exists_of_mem_stampClaims hc
    refine r.not_blocked_of_accepted hm haccepted ?_
    rw [← runGates_congr hfacts hanchors] at hblocked
    exact r.blocked_of_runGates hblocked

end
end Server

section
attribute [local instance] asciiUnicode samplePlatform unaryIds

/-- A client's command, all of its seven calls in a row. -/
def submitAndFinish (i : ℕ) (r : AppendRequest) : List Event :=
  .submit i r :: List.replicate 7 (.call i)

/-- A command up to its append. -/
def submitAndGate (i : ℕ) (r : AppendRequest) : List Event :=
  .submit i r :: List.replicate 6 (.call i)

/-- A branch holding one fact; a command on it is gated, and before it appends another
client's fact of the same key lands in the root, stamped no later than the observed head. -/
def overtakenEvents : List Event :=
  [.write (.createVersion none none), .write (.createVersion (some "memv-") none)] ++
    submitAndFinish 0 (proposeFact "memv-x" "hero" "hair" "red") ++
    submitAndGate 1 (proposeFact "memv-x" "hero" "eyes" "green") ++
    submitAndFinish 2 (proposeFact "memv-" "hero" "eyes" "blue")

/-- A command nobody overtakes is fresh at its append, and its claim lands. -/
theorem undisturbed_claim_lands_fresh :
    let g := Server.run (Server.run {} [.write (.createVersion none none)])
      (submitAndGate 0 (proposeFact "memv-" "hero" "eyes" "green"))
    g.AppendsFresh ∧ ((g.step (.call 0)).store.claims "memv-").map (·.status) = [.accepted] := by
  have hcreate : Server.RunWhere Server.KeepsInFlight {}
      (Server.run {} [.write (.createVersion none none)]) := by
    refine .single ⟨.write (.createVersion none none), ?_, rfl⟩
    intro c _ j r p hj
    cases hj
  have hgate : Server.quiet (Server.run {} [.write (.createVersion none none)])
      (submitAndGate 0 (proposeFact "memv-" "hero" "eyes" "green")) = true := by
    decide +kernel
  refine ⟨?_, by decide +kernel⟩
  exact Server.accepted_claims_pass_current_gates (hcreate.trans (Server.RunWhere.of_quiet hgate))

/-- Commands, anchors and versions alone: the root's fact leaves the branch's head where the
overtaken command observed it, and the contradicting claim lands accepted. -/
theorem overtaken_claim_lands_stale :
    ¬∀ g : Server, Server.RunWhere (fun _ e => ∀ c, e = .write c →
        (∃ parent metadata, c = .createVersion parent metadata) ∨
          ∃ v subject key value scope evidence,
            c = .lockAnchor v subject key value scope evidence) {} g → g.AppendsFresh := by
  intro h
  refine Server.not_appendsFresh (g := Server.run {} overtakenEvents) (i := 1)
    (by decide +kernel) (h _ (Server.RunWhere.of_run {} overtakenEvents ?_))
  intro e he g c hc
  subst hc
  have hcreate : c = .createVersion none none ∨ c = .createVersion (some "memv-") none := by
    simpa [overtakenEvents, submitAndFinish, submitAndGate, List.replicate] using he
  rcases hcreate with rfl | rfl
  · exact .inl ⟨_, _, rfl⟩
  · exact .inl ⟨_, _, rfl⟩

end
end Munarium

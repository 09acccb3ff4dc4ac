import Munarium.Lib.PrefixRuns
import Munarium.Platform.Reserved
import Munarium.Server.EvidenceProviders
import Munarium.Store.PinnedReads

/-! Layers of facts. A layer names a memory version and no position in it, so what it shows moves
with the writes to the version and to its ancestors. -/
namespace Munarium

/-- The query of a layer's slice. -/
def factQuery (scope : Option String) : FactQuery where
  scopePrefix := scope

/-- The provider over a state of the store. -/
def State.factProvider [Platform] (s : State) : FactProvider where
  sliceFacts v scope := s.sliceFacts v (factQuery scope)

/-- The memory version that a layer names. -/
def factVersion (layer : EvidenceLayer) : Option String :=
  layer.sources.findSome? (stripStart "facts:")

/-- A claim that a query would show, were it superseded by nothing. -/
def FactQuery.Wants (q : FactQuery) (status : ClaimStatus) (scope : Option String) : Prop :=
  status = .accepted ∧ q.scopeAdmits scope = true

/-- A query without a pin, a limit or statuses, as a layer's. -/
structure FactQuery.Plain (q : FactQuery) : Prop where
  asOfSeq : q.asOfSeq = none
  statuses : q.statuses = []
  limit : q.limit = none

theorem factQuery_plain (scope : Option String) : (factQuery scope).Plain := ⟨rfl, rfl, rfl⟩

section Slices

variable {q : FactQuery} {rows more : List Claim} {c : Claim}

/-- A stored claim that a plain query shows. -/
structure FactQuery.Shows (q : FactQuery) (rows : List Claim) (c : Claim) : Prop where
  stored : c ∈ rows
  wants : q.Wants c.status c.scopePath
  current : c.id ∉ supersededIds rows

theorem plain_slice (hq : q.Plain) (rows : List Claim) :
    resolveSlice rows q = sortBySeq (visibleClaims q rows) := by
  have hall : (rows.filter fun c => q.pinAdmits c.seq) = rows :=
    List.filter_eq_self.mpr fun c _ => by simp [FactQuery.pinAdmits, hq.asOfSeq]
  simp only [resolveSlice, hall, hq.limit, keepNewest]

theorem mem_plain_slice (hq : q.Plain) : c ∈ resolveSlice rows q ↔ q.Shows rows c := by
  rw [plain_slice hq, mem_sortBySeq, mem_visibleClaims]
  simp only [FactQuery.effectiveStatuses, hq.statuses, List.isEmpty_nil, if_true,
    List.mem_singleton]
  constructor
  · intro h
    exact ⟨h.1, ⟨h.2.1, h.2.2.2⟩, h.2.2.1⟩
  · intro h
    exact ⟨h.stored, h.wants.1, h.current, h.wants.2⟩

/-- Rows that a plain query does not want, and that supersede nothing it shows, leave its slice as
it is, wherever in the lineage they are stored. -/
theorem plain_slice_congr (hq : q.Plain) {lineage : List String} {f g : String → List Claim}
    (hgrow : ∀ w ∈ lineage, ∃ new, g w = f w ++ new ∧
      ∀ c ∈ new, ¬ q.Wants c.status c.scopePath)
    (hcurrent : ∀ c, q.Shows (lineage.flatMap f) c → c.id ∉ supersededIds (lineage.flatMap g)) :
    resolveSlice (lineage.flatMap g) q = resolveSlice (lineage.flatMap f) q := by
  have hstatus : q.effectiveStatuses = [.accepted] := by
    simp [FactQuery.effectiveStatuses, hq.statuses]
  have hsub : ∀ id, id ∈ supersededIds (lineage.flatMap f) →
      id ∈ supersededIds (lineage.flatMap g) := by
    intro id hid
    obtain ⟨c, hc, hsup⟩ := mem_supersededIds.mp hid
    obtain ⟨w, hw, hcw⟩ := List.mem_flatMap.mp hc
    obtain ⟨new, heq, -⟩ := hgrow w hw
    have hcg : c ∈ g w := heq ▸ List.mem_append_left _ hcw
    exact mem_supersededIds.mpr ⟨c, List.mem_flatMap.mpr ⟨w, hw, hcg⟩, hsup⟩
  rw [plain_slice hq, plain_slice hq]
  apply congrArg sortBySeq
  simp only [visibleClaims, List.filter_filter, hstatus]
  rw [List.filter_flatMap, List.filter_flatMap]
  apply List.flatMap_congr
  intro w hw
  obtain ⟨new, heq, hnew⟩ := hgrow w hw
  rw [heq, List.filter_append]
  have hnone : (new.filter fun c => q.scopeAdmits c.scopePath &&
      (!(supersededIds (lineage.flatMap g)).contains c.id && [ClaimStatus.accepted].contains
        c.status)) = [] := by
    apply List.filter_eq_nil_iff.mpr
    intro c hc hkept
    simp only [Bool.and_eq_true, List.contains_eq_mem, List.mem_singleton,
      decide_eq_true_eq] at hkept
    exact hnew c hc ⟨hkept.2.2, hkept.1⟩
  rw [hnone, List.append_nil]
  apply List.filter_congr
  intro c hc
  have hrow : c ∈ lineage.flatMap f := List.mem_flatMap.mpr ⟨w, hw, hc⟩
  by_cases hwants : q.Wants c.status c.scopePath
  · have hsame : c.id ∈ supersededIds (lineage.flatMap g) ↔
        c.id ∈ supersededIds (lineage.flatMap f) := by
      constructor
      · intro hin
        by_contra hnot
        exact hcurrent c ⟨hrow, hwants, hnot⟩ hin
      · exact hsub c.id
    simp only [List.contains_eq_mem, hsame]
  · rw [FactQuery.Wants, not_and_or] at hwants
    rcases hwants with hstatus | hscope
    · simp [hstatus]
    · simp [hscope]

end Slices

section Writes

variable [Unicode] [Platform] [IdGenerator]

/-- What a command that succeeds does to the claims: it asks for none, or it stores them in its
version, each superseding only what its lineage had. -/
inductive Stored (s : State) (c : Command) (s' : State) : Prop
  | none (hclaims : s'.claims = s.claims) (hc : c.newClaims = [])
  | rows {v : String} {head : ℕ} {existing : List Claim} (hc : c.claimTarget = some v)
      (hhead : s.headOf v = .ok head) (hexisting : s.lineageClaims v = .ok existing)
      (hsupersedes : State.checkSupersedes existing c.newClaims = .ok ())
      (hclaims : s'.claims = Function.update s.claims v
        (s.claims v ++ State.stampClaims v (head + 1) s.issued c.newClaims))

omit [Unicode] in
theorem batch_stored {s s' : State} {c : Command} {v : String} {batch : List NewClaim}
    {expectedHead : Option ℕ} {findings : List GateFinding} {stored : List Claim}
    (hnew : c.newClaims = batch) (hc : batch ≠ [] → c.claimTarget = some v)
    (h : s.appendBatch v batch expectedHead findings = .ok (stored, s')) : Stored s c s' := by
  rcases appendBatch_eq_ok h with ⟨hnil, -, rfl⟩ | hbatch
  · exact .none rfl (hnew.trans hnil)
  · obtain ⟨hne, head, existing, recorded, hh, -, hex, hs, rfl, rfl⟩ := hbatch
    rw [← hnew] at hs
    exact .rows (hc hne) hh hex hs (by rw [hnew])

theorem Command.exec_stored {s s' : State} {c : Command} (h : c.exec s = .ok s') :
    Stored s c s' := by
  have hnone : c.claimTarget = none → s'.claims = s.claims := by
    intro ht
    funext w
    obtain ⟨rows, heq, htarget, -⟩ := (Command.exec_effect h).claims_grow w
    rcases List.eq_nil_or_concat rows with rfl | ⟨init, last, rfl⟩
    · rw [heq, List.append_nil]
    · have hsome := htarget (by simp)
      rw [ht] at hsome
      cases hsome
  cases c with
  | appendClaim v claim expectedHead =>
    obtain ⟨out, h⟩ := map_snd_eq_ok h
    obtain ⟨head, hh, h⟩ := bind_eq_ok.mp h
    obtain ⟨⟨⟩, -, h⟩ := bind_eq_ok.mp h
    obtain ⟨existing, he, h⟩ := bind_eq_ok.mp h
    obtain ⟨⟨⟩, hs, h⟩ := bind_eq_ok.mp h
    cases h
    exact .rows rfl hh he hs rfl
  | appendClaims v claims expectedHead =>
    obtain ⟨out, h⟩ := map_snd_eq_ok h
    exact batch_stored rfl (fun hne => by simpa [claimTarget, newClaims] using hne) h
  | appendEvaluatedClaims v claims expectedHead findings =>
    obtain ⟨out, h⟩ := map_snd_eq_ok h
    exact batch_stored rfl (fun hne => by simpa [claimTarget, newClaims] using hne) h
  | createVersion => exact .none (hnone rfl) rfl
  | lockAnchor => exact .none (hnone rfl) rfl
  | registerPromise => exact .none (hnone rfl) rfl
  | fulfillPromise => exact .none (hnone rfl) rfl
  | recordCounts => exact .none (hnone rfl) rfl
  | recordFindings => exact .none (hnone rfl) rfl

omit [Unicode] [Platform] in
theorem exists_stored {v : String} {seq n : ℕ} {batch : List NewClaim} {m : NewClaim}
    (h : m ∈ batch) : ∃ r ∈ State.stampClaims v seq n batch, ∃ i j, n ≤ j ∧
      r = State.storedClaim v i j m := by
  induction batch generalizing seq n with
  | nil => cases h
  | cons c rest ih =>
    rcases List.mem_cons.mp h with rfl | h
    · exact ⟨_, List.mem_cons_self, seq, n, Nat.le_refl n, rfl⟩
    · obtain ⟨r, hr, i, j, hj, heq⟩ := ih h
      exact ⟨r, List.mem_cons_of_mem _ hr, i, j, by omega, heq⟩

/-- A write that a reader of a version does not see: where it stores claims into the version or an
ancestor, the query wants none of them, and they supersede nothing that it shows. -/
def Unseen (s : State) (v : String) (q : FactQuery) (c : Command) : Prop :=
  ∀ s' lineage w, c.exec s = .ok s' → s.lineageOf v = .ok lineage → w ∈ lineage →
    c.claimTarget = some w → ∀ m ∈ c.newClaims, ¬ q.Wants m.status m.scopePath ∧
      ∀ f, q.Shows (lineage.flatMap s.claims) f → m.supersedesId ≠ some f.id

omit [Unicode] [IdGenerator] in
theorem sliceFacts_eq {s : State} {v : String} {lineage : List String}
    (hl : s.lineageOf v = .ok lineage) (q : FactQuery) :
    s.sliceFacts v q = .ok (resolveSlice (lineage.flatMap s.claims) q) := by
  simp only [State.sliceFacts, State.lineageClaims, hl, bind, Except.bind]

section Rows

variable {s s' : State} {v w : String} {q : FactQuery} {lineage : List String} {head : ℕ}
  {existing : List Claim} {batch : List NewClaim}

omit [Unicode] [Platform] in
/-- Claims that the query does not want, and that supersede nothing shown, leave the slice. -/
theorem slice_kept (hq : q.Plain) (hclaims : s'.claims = Function.update s.claims w
      (s.claims w ++ State.stampClaims w (head + 1) s.issued batch))
    (hunseen : ∀ m ∈ batch, ¬ q.Wants m.status m.scopePath ∧
      ∀ f, q.Shows (lineage.flatMap s.claims) f → m.supersedesId ≠ some f.id) :
    resolveSlice (lineage.flatMap s'.claims) q = resolveSlice (lineage.flatMap s.claims) q := by
  have hgrow : ∀ u ∈ lineage, ∃ new, s'.claims u = s.claims u ++ new ∧
      ∀ r ∈ new, ∃ m ∈ batch, ∃ i j, r = State.storedClaim w i j m := by
    intro u _
    rw [hclaims]
    by_cases hu : u = w
    · subst hu
      exact ⟨_, Function.update_self _ _ _, fun r hr => exists_of_mem_stampClaims hr⟩
    · exact ⟨[], by rw [Function.update_of_ne hu, List.append_nil], fun r hr => by cases hr⟩
  apply plain_slice_congr hq
  · intro u hu
    obtain ⟨new, heq, hnew⟩ := hgrow u hu
    refine ⟨new, heq, ?_⟩
    intro r hr
    obtain ⟨m, hm, i, j, rfl⟩ := hnew r hr
    exact (hunseen m hm).1
  · intro f hf hsuperseded
    obtain ⟨r, hr, hsup⟩ := mem_supersededIds.mp hsuperseded
    obtain ⟨u, hu, hru⟩ := List.mem_flatMap.mp hr
    obtain ⟨new, heq, hnew⟩ := hgrow u hu
    rw [heq] at hru
    rcases List.mem_append.mp hru with hold | hrnew
    · exact hf.current (mem_supersededIds.mpr ⟨r, List.mem_flatMap.mpr ⟨u, hu, hold⟩, hsup⟩)
    · obtain ⟨m, hm, i, j, rfl⟩ := hnew r hrnew
      exact (hunseen m hm).2 f hf hsup

omit [Unicode] in
/-- A claim that the query wants joins the slice, and one that is superseded leaves it. -/
theorem unseen_of_slice_kept (hq : q.Plain) (hrows : RowsSound s) (hw : w ∈ lineage)
    (hexisting : s.lineageClaims w = .ok existing)
    (hsupersedes : State.checkSupersedes existing batch = .ok ())
    (hclaims : s'.claims = Function.update s.claims w
      (s.claims w ++ State.stampClaims w (head + 1) s.issued batch))
    (hkept : resolveSlice (lineage.flatMap s'.claims) q =
      resolveSlice (lineage.flatMap s.claims) q) :
    ∀ m ∈ batch, ¬ q.Wants m.status m.scopePath ∧
      ∀ f, q.Shows (lineage.flatMap s.claims) f → m.supersedesId ≠ some f.id := by
  have hself : s'.claims w = s.claims w ++ State.stampClaims w (head + 1) s.issued batch := by
    rw [hclaims, Function.update_self]
  have hdrawn : ∀ r ∈ lineage.flatMap s'.claims, ∀ id, r.supersedesId = some id →
      ∃ i < s.issued, id = claimId i := by
    intro r hr id hsup
    obtain ⟨u, hu, hru⟩ := List.mem_flatMap.mp hr
    by_cases hne : u = w
    · subst hne
      rw [hself] at hru
      rcases List.mem_append.mp hru with hold | hnew
      · exact hrows.supersedes u r hold id hsup
      · obtain ⟨m, hm, i, j, rfl⟩ := exists_of_mem_stampClaims hnew
        obtain ⟨x, hx, rfl⟩ := checkSupersedes_ok hsupersedes hm hsup
        obtain ⟨ancestors, -, hread⟩ := bind_eq_ok.mp hexisting
        cases hread
        obtain ⟨y, -, hxy⟩ := List.mem_flatMap.mp hx
        exact hrows.drawn y x hxy
    · rw [hclaims, Function.update_of_ne hne] at hru
      exact hrows.supersedes u r hru id hsup
  intro m hm
  obtain ⟨r, hr, i, j, hj, rfl⟩ := exists_stored hm
  have hin : State.storedClaim w i j m ∈ lineage.flatMap s'.claims := by
    apply List.mem_flatMap.mpr
    exact ⟨w, hw, hself ▸ List.mem_append_right _ hr⟩
  constructor
  · intro hwants
    have hshows : q.Shows (lineage.flatMap s'.claims) (State.storedClaim w i j m) := by
      refine ⟨hin, hwants, ?_⟩
      intro hsuperseded
      obtain ⟨d, hd, hsup⟩ := mem_supersededIds.mp hsuperseded
      obtain ⟨k, hk, hid⟩ := hdrawn d hd _ hsup
      have heq : j = k := claimId_injective hid
      omega
    have hold := (mem_plain_slice hq).mp (hkept ▸ (mem_plain_slice hq).mpr hshows)
    obtain ⟨u, -, hu⟩ := List.mem_flatMap.mp hold.stored
    obtain ⟨k, hk, hid⟩ := hrows.drawn u _ hu
    have heq : j = k := claimId_injective hid
    omega
  · intro f hf hsup
    have hnew := (mem_plain_slice hq).mp (hkept.symm ▸ (mem_plain_slice hq).mpr hf)
    exact hnew.current (mem_supersededIds.mpr ⟨_, hin, hsup⟩)

end Rows

/-- One step leaves what a layer shows exactly where it stores nothing that a reader sees. -/
theorem slice_step_iff {s : State} {v : String} {lineage : List String} {q : FactQuery}
    (hq : q.Plain) (hs : Sound s) (hrows : RowsSound s) (hl : s.lineageOf v = .ok lineage)
    (c : Command) : (c.step s).sliceFacts v q = s.sliceFacts v q ↔ Unseen s v q c := by
  unfold Command.step
  cases hx : c.exec s with
  | error e =>
    apply iff_of_true rfl
    intro s' lineage' w hx'
    rw [hx] at hx'
    cases hx'
  | ok s' =>
    have hl' : s'.lineageOf v = .ok lineage := (Command.exec_effect hx).lineageOf_eq hs hl
    simp only [sliceFacts_eq hl, sliceFacts_eq hl', Except.ok.injEq]
    cases Command.exec_stored hx with
    | none hclaims hnew =>
      apply iff_of_true
      · rw [hclaims]
      · intro t lineage' w _ _ _ _ m hm
        rw [hnew] at hm
        cases hm
    | @rows w head existing htarget hhead hexisting hsupersedes hclaims =>
      constructor
      · intro hkept t lineage' u _ hl'' hu htarget' m hm
        rw [hl] at hl''
        cases hl''
        rw [htarget] at htarget'
        cases htarget'
        exact unseen_of_slice_kept hq hrows hu hexisting hsupersedes hclaims hkept m hm
      · intro hunseen
        by_cases hw : w ∈ lineage
        · exact slice_kept hq hclaims (hunseen s' lineage w hx hl hw htarget)
        · have hsame : lineage.flatMap s'.claims = lineage.flatMap s.claims := by
            apply List.flatMap_congr
            intro u hu
            have hne : u ≠ w := fun heq => hw (heq ▸ hu)
            rw [hclaims, Function.update_of_ne hne]
          rw [hsame]

omit [Unicode] [IdGenerator] in
theorem fetch_eq {s : State} {layer : EvidenceLayer} {v : String} {lineage : List String}
    (hlayer : factVersion layer = some v) (hl : s.lineageOf v = .ok lineage) :
    s.factProvider.fetch layer = .ok (.factSlice
      (resolveSlice (lineage.flatMap s.claims) (factQuery (FactProvider.scopeOf layer)))) := by
  have hfind : layer.sources.findSome? (stripStart "facts:") = some v := hlayer
  simp only [FactProvider.fetch, hfind, State.factProvider, sliceFacts_eq hl]

/-- One step leaves what a turn is given exactly where a reader does not see it. -/
theorem fetch_step_iff {s : State} {layer : EvidenceLayer} {v : String} (hs : Reachable s)
    (hlayer : factVersion layer = some v) (hv : s.versions v ≠ none) (c : Command) :
    (c.step s).factProvider.fetch layer = s.factProvider.fetch layer ↔
      Unseen s v (factQuery (FactProvider.scopeOf layer)) c := by
  obtain ⟨lineage, hl⟩ := hs.sound.exists_lineage hv
  have hl' := (Command.step_effect s c).lineageOf_eq hs.sound hl
  rw [← slice_step_iff (factQuery_plain _) hs.sound hs.rowsSound hl c, fetch_eq hlayer hl,
    fetch_eq hlayer hl', sliceFacts_eq hl, sliceFacts_eq hl']
  simp only [Except.ok.injEq, EvidenceBlock.factSlice.injEq]

theorem Command.run_take_succ (s : State) {commands : List Command} {n : ℕ} {c : Command}
    (h : commands[n]? = some c) :
    Command.run s (commands.take (n + 1)) = c.step (Command.run s (commands.take n)) :=
  PrefixRun.stateAt_succ h

theorem Command.run_take_of_length_le (s : State) {commands : List Command} {n : ℕ}
    (h : commands[n]? = none) :
    Command.run s (commands.take (n + 1)) = Command.run s (commands.take n) :=
  PrefixRun.stateAt_end h

theorem Reachable.run_take {s : State} (hs : Reachable s) (commands : List Command) (n : ℕ) :
    Reachable (Command.run s (commands.take n)) :=
  hs.trans (RunWhere.of_run s (commands.take n))

theorem run_take_known {s : State} {v : String} (hs : Reachable s) (hv : s.versions v ≠ none)
    (commands : List Command) (n : ℕ) :
    (Command.run s (commands.take n)).versions v ≠ none := by
  have hstep : ∀ n c, commands[n]? = some c →
      (PrefixRun.stateAt Command.step s commands n).versions v ≠ none →
        (c.step (PrefixRun.stateAt Command.step s commands n)).versions v ≠ none := by
    intro n c _ hknown
    have hkept := (Command.step_effect _ c).version_kept (hs.run_take commands n).sound hknown
    exact hkept.1.trans_ne hknown
  exact PrefixRun.stateAt_invariant (I := fun t : State => t.versions v ≠ none) hv hstep n

/-- The turns of a session are given the same facts exactly where no write between them is one that
a reader of the version sees. -/
theorem fact_layer_pinned_iff {s : State} {layer : EvidenceLayer} {v : String}
    (hs : Reachable s) (hlayer : factVersion layer = some v) (hv : s.versions v ≠ none)
    (commands : List Command) :
    (∀ n, (Command.run s (commands.take n)).factProvider.fetch layer =
        s.factProvider.fetch layer) ↔
      ∀ n c, commands[n]? = some c → Unseen (Command.run s (commands.take n)) v
        (factQuery (FactProvider.scopeOf layer)) c := by
  have hstep : ∀ n c, (c.step (Command.run s (commands.take n))).factProvider.fetch layer =
      (Command.run s (commands.take n)).factProvider.fetch layer ↔
        Unseen (Command.run s (commands.take n)) v (factQuery (FactProvider.scopeOf layer)) c :=
    fun n c => fetch_step_iff (hs.run_take commands n) hlayer (run_take_known hs hv commands n) c
  constructor
  · intro h n c hc
    rw [← hstep n c, ← Command.run_take_succ s hc, h (n + 1), h n]
  · intro h n
    induction n with
    | zero => rfl
    | succ n ih =>
      cases hc : commands[n]? with
      | none =>
        rw [Command.run_take_of_length_le s hc]
        exact ih
      | some c =>
        rw [Command.run_take_succ s hc, (hstep n c).mpr (h n c hc)]
        exact ih

end Writes

section
attribute [local instance] asciiUnicode samplePlatform unaryIds

/-- A layer of the facts of a child version. -/
def heroLayer : EvidenceLayer :=
  ⟨"heroes", ["facts:memv-x"], .required, .primary, none, true, none⟩

/-- The claims of a block. -/
def shownClaims : Result EvidenceBlock → ℕ
  | .ok (.factSlice claims) => claims.length
  | _ => 0

/-- A fact that is stored into the parent between two turns is shown in the second one only. -/
theorem fact_layer_moves :
    ¬ ∀ (s : State) (layer : EvidenceLayer) (v : String), Reachable s →
      factVersion layer = some v → s.versions v ≠ none → ∀ (commands : List Command) (n : ℕ),
        (Command.run s (commands.take n)).factProvider.fetch layer =
          s.factProvider.fetch layer := by
  intro h
  have hsame := h (Command.run {} branchedCommands) heroLayer "memv-x"
    (RunWhere.of_run {} branchedCommands) (by decide) (by decide)
    [.appendClaim "memv-" (.fact "hero" "age" "12") none] 1
  have hcount := congrArg shownClaims hsame
  revert hcount
  decide

/-- A disputed claim leaves the layer as it was. -/
theorem fact_layer_pinned_iff_disputed :
    (Command.run (Command.run {} branchedCommands)
        (List.take 1 [.appendClaim "memv-x"
          { NewClaim.fact "hero" "eyes" "green" with status := .disputed } none])).factProvider.fetch
            heroLayer = (Command.run {} branchedCommands).factProvider.fetch heroLayer := by
  refine (fact_layer_pinned_iff (RunWhere.of_run {} branchedCommands)
    (by decide : factVersion heroLayer = some "memv-x") (by decide) _).mpr ?_ 1
  intro n c hc s' lineage w _ _ _ _ m hm
  have hcommand := List.mem_singleton.mp (List.mem_of_getElem? hc)
  subst hcommand
  have hclaim := List.mem_singleton.mp hm
  subst hclaim
  constructor
  · intro hwants
    cases hwants.1
  · intro f _ hsup
    cases hsup

end
end Munarium

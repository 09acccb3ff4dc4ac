import Munarium.Store.BackendSteps

/-! Both stores along a run: new versions, every command, and what the two answer in the states that
a run reaches. -/
namespace Munarium

/-- A slice depends on what the rows hold of each stamp. -/
theorem resolveSlice_of_stamps {xs ys : List Claim} (q : FactQuery)
    (h : ∀ n, xs.filter (fun c => c.seq == n) = ys.filter fun c => c.seq == n) :
    resolveSlice xs q = resolveSlice ys q := by
  have hsort (cs : List Claim) : sortBySeq cs = StableSort.sortByKey (·.seq) cs := by
    simp only [sortBySeq, StableSort.sortByKey, StableSort.sortBy, ne_eq, compare_le_iff_le]
  have hmem (c : Claim) : c ∈ xs ↔ c ∈ ys := by
    have hclass := congrArg (c ∈ ·) (h c.seq)
    simpa using hclass
  have hsuperseded (id : String) :
      (supersededIds (xs.filter fun c => q.pinAdmits c.seq)).contains id =
        (supersededIds (ys.filter fun c => q.pinAdmits c.seq)).contains id := by
    rw [Bool.eq_iff_iff, List.contains_iff_mem, List.contains_iff_mem]
    simp only [supersededIds, List.mem_filterMap, List.mem_filter, hmem]
  simp only [resolveSlice, visibleClaims, hsort, hsuperseded, List.filter_filter]
  congr 1
  apply StableSort.eq_of_classes (StableSort.sortByKey_sorted _ _)
    (StableSort.sortByKey_sorted _ _)
  intro n
  have hn : xs.filter (fun c => decide (c.seq = n)) = ys.filter fun c => decide (c.seq = n) := by
    simpa only [beq_eq_decide] using h n
  rw [StableSort.class_sortByKey, StableSort.class_sortByKey, List.filter_comm, hn,
    List.filter_comm]

namespace PgState
open StableSort (byGroup)

section Versions
variable [Unicode] [Platform] [IdGenerator] {p : PgState} {s : State} {w : String}

omit [Unicode] in
/-- Both stores read the parent's locked anchors alike. -/
theorem Coupled.lockedAnchors (h : p.Coupled s) {lineage : List String}
    (hl : s.lineageOf w = .ok lineage) : p.lockedAnchors lineage =
      (lineage.flatMap s.anchors).foldl (fun out a => out.insert a.detailKey a) .empty := by
  have hrows : lineage.flatMap s.anchors = byGroup (·.versionId) lineage p.anchors :=
    List.flatMap_congr fun v _ => h.mirrors.anchors v
  have hlocked : p.anchors.filter (fun a => lineage.contains a.versionId && a.status == .locked) =
      p.anchors.filter fun a => a.versionId ∈ lineage := by
    apply List.filter_congr
    intro a ha
    rw [h.anchorsLocked a ha, List.contains_eq_mem]
    exact Bool.and_true _
  have hsorted := StableSort.sortByKey_byGroup (l := p.anchors) Anchor.seq
    (lineage_nodup h.sound hl) fun v _ => h.mirrors.anchors v ▸ h.anchorsRise v
  rw [PgState.lockedAnchors, hlocked, hrows, ← hsorted]

omit [Unicode] in
theorem Coupled.parentSnapshot (h : p.Coupled s) {assess : Bool} {lineage : List String}
    {head : ℕ} (hl : s.lineageOf w = .ok lineage) (hh : s.headOf w = .ok head)
    (halike : assess → p.AssessesAlike lineage) : ∃ snapshot,
      s.parentSnapshot w assess = .ok snapshot ∧ snapshot.asOfSeq = some head ∧
        p.parentSnapshot w assess = .ok (s.versionMeta w, snapshot) := by
  have hlocked := h.mirrors.lockedHead h.sound hl hh
  simp only [PgState.parentSnapshot, State.parentSnapshot, hlocked, hh, hl, bind, Except.bind,
    h.mirrors.metadata]
  cases assess with
  | false => exact ⟨_, rfl, rfl, rfl⟩
  | true =>
    have hfacts : resolveSlice (p.claims.filter fun c => lineage.contains c.versionId) {} =
        resolveSlice (lineage.flatMap s.claims) {} := by
      have hrows : lineage.flatMap s.claims = byGroup (·.versionId) lineage p.claims :=
        List.flatMap_congr fun v _ => h.mirrors.claims v
      rw [hrows]
      exact resolveSlice_of_stamps {} fun n => (halike rfl n).symm
    rw [if_pos rfl, if_pos rfl, hfacts, h.lockedAnchors hl]
    exact ⟨_, rfl, rfl, rfl⟩

omit [Unicode] in
/-- A version of a fresh id joins. -/
theorem Coupled.create (h : p.Coupled s) (row : VersionRow)
    (hid : row.id = "memv-" ++ IdGenerator.next s.issued)
    (hparent : ∀ w, row.parentId = some w → s.versions w ≠ none)
    (hverified : ∃ policy, GovernancePolicy.fromStoredMetadata row.metadata = .ok policy) :
    PgState.Coupled { p with versions := p.versions ++ [row], issued := p.issued + 1 }
      { s with
        versions := Function.update s.versions row.id (some row.parentId)
        versionMeta := Function.update s.versionMeta row.id row.metadata
        issued := s.issued + 1 } := by
  have hfresh : s.versions row.id = none := hid ▸ h.sound.fresh
  have hself : (p.versions ++ [row]).find? (·.id == row.id) = some row := by
    rw [h.mirrors.versions, Option.map_eq_none_iff, PgState.version] at hfresh
    rw [List.find?_append, hfresh]
    simp
  have hother (v : String) (hv : v ≠ row.id) :
      (p.versions ++ [row]).find? (·.id == v) = p.version v := by
    rw [List.find?_append]
    simp [PgState.version, Ne.symm hv]
  refine ⟨?_, h.sound.addVersion hid hparent hverified rfl rfl rfl, h.anchorsRise,
    h.anchorsLocked, h.promiseIds, h.drawn (Nat.le_succ _), h.stamped⟩
  refine ⟨congrArg (· + 1) h.mirrors.issued, ?_, ?_, h.mirrors.claims, h.mirrors.anchors,
    h.mirrors.promises, h.mirrors.counters, h.mirrors.findings⟩
  · intro v
    by_cases hv : v = row.id
    · subst hv
      refine (Function.update_self ..).trans ?_
      rw [PgState.version, hself]
      rfl
    · refine (Function.update_of_ne hv ..).trans ?_
      rw [PgState.version, hother v hv, h.mirrors.versions]
  · intro v
    by_cases hv : v = row.id
    · subst hv
      refine (Function.update_self ..).trans ?_
      rw [PgState.metadataOf, PgState.version, hself]
      rfl
    · refine (Function.update_of_ne hv ..).trans ?_
      rw [PgState.metadataOf, PgState.version, hother v hv, h.mirrors.metadata]
      rfl

omit [Unicode] in
/-- What a new version is prepared from, on both sides. -/
theorem Coupled.parents (h : p.Coupled s) {parentId : Option String} {assess : Bool}
    (halike : ∀ w, parentId = some w → assess →
      ∀ chain, p.lineageChain w = .ok chain → p.AssessesAlike chain) :
    (∃ e, s.snapshotOfParent assess parentId = .error e ∧
      parentId.mapM (p.parentSnapshot · assess) = .error e) ∨
    ∃ snapshot parent, s.snapshotOfParent assess parentId = .ok snapshot ∧
      parentId.mapM (p.parentSnapshot · assess) = .ok parent ∧ parent.map (·.2) = snapshot ∧
      parent.bind (·.1) = parentId.bind s.versionMeta ∧
      ∀ m, snapshot = some m → ∃ w head, parentId = some w ∧ s.headOf w = .ok head ∧
        m.asOfSeq = some head := by
  cases parentId with
  | none => exact .inr ⟨none, none, rfl, rfl, rfl, rfl, nofun⟩
  | some w =>
    rw [Option.mapM_some]
    rcases h.known w with ⟨lineage, head, hl, hh, hchain, -⟩ | ⟨hw, -, hchain⟩
    · obtain ⟨m, hm, hpin, hp⟩ := h.parentSnapshot hl hh fun hassess =>
        halike w rfl hassess lineage hchain
      obtain ⟨parent, hparent⟩ := Option.ne_none_iff_exists'.mp
        (State.lineage_known hl (State.self_mem_lineage hl))
      refine .inr ⟨some m, some (s.versionMeta w, m), ?_, ?_, rfl, rfl, ?_⟩
      · simp only [State.snapshotOfParent, hparent, hm]
        rfl
      · rw [hp]
        rfl
      · intro m' hm'
        obtain rfl := Option.some.inj hm'
        exact ⟨w, head, rfl, hh, hpin⟩
    · refine .inl ⟨State.unknownVersion w, ?_, ?_⟩
      · simp only [State.snapshotOfParent, hw]
      · simp only [PgState.parentSnapshot, PgState.lockedHead, hchain, bind, Except.bind]
        rfl

theorem createVersion_alike (h : p.Coupled s) {parentId : Option String}
    {metadata : Option Json} (hroom : ∀ w, parentId = some w → p.Room w 0)
    (halike : ∀ w, parentId = some w → (metadata.bind (·.get "governance_transition")).isSome →
      ∀ chain, p.lineageChain w = .ok chain → p.AssessesAlike chain) :
    Alike (p.createVersion parentId metadata) (s.createVersion parentId metadata) := by
  unfold PgState.createVersion State.createVersion
  rcases h.parents halike with ⟨e, hs, hp⟩ | ⟨snapshot, parent, hs, hp, rfl, hmeta, hpinned⟩
  · simp only [hs, hp, bind, Except.bind]
    rfl
  · simp only [hs, hp, hmeta, bind, Except.bind]
    cases hprepared : prepareVersionMetadata metadata (parentId.bind s.versionMeta)
        (parent.map (·.2)) with
    | error e => rfl
    | ok prepared =>
      have hseq : ((parent.map (·.2)).bind (·.asOfSeq)).getD 0 < 2 ^ 63 := by
        cases hm : parent.map (·.2) with
        | none => decide
        | some m =>
          obtain ⟨w, head, hw, hh, hpin⟩ := hpinned m hm
          obtain ⟨lineage, hl⟩ := State.lineage_of_head hh
          rw [Option.bind_some, hpin, Option.getD_some]
          exact hroom w hw lineage head (h.mirrors.lockedHead h.sound hl hh)
      have hparent : ∀ w, parentId = some w → s.versions w ≠ none := by
        rintro w rfl
        exact snapshotOfParent_known hs
      obtain ⟨-, next, -, hnext, -⟩ := prepareVersionMetadata_spec hprepared
      have hcreated := h.create
        { id := "memv-" ++ IdGenerator.next s.issued, parentId := parentId, metadata := prepared }
        rfl hparent ⟨next, hnext⟩
      rw [h.mirrors.issued] at hcreated ⊢
      dsimp only
      cases policyFinding ("memv-" ++ IdGenerator.next s.issued) prepared with
      | none =>
        have hfindings (v : String) :
            Function.update s.findings v (s.findings v ++ []) = s.findings := by
          rw [List.append_nil, Function.update_eq_self]
        simp only [Option.toList_none, List.map_nil, hfindings]
        exact ⟨rfl, hcreated⟩
      | some finding =>
        simp only [findingsTx, pgBigint_ok hseq]
        exact ⟨rfl, hcreated.file hseq [finding]⟩

end Versions

section Runs
variable [Unicode] [Platform] [IdGenerator] {p : PgState} {s : State}

omit [Unicode] in
theorem coupled_init : PgState.Coupled {} {} where
  mirrors := ⟨rfl, fun _ => rfl, fun _ => rfl, fun _ => rfl, fun _ => rfl, fun _ => rfl,
    fun _ => rfl, fun _ => rfl⟩
  sound := sound_init
  anchorsRise _ := .nil
  anchorsLocked := nofun
  promiseIds := .nil
  promisesDrawn := nofun
  stamped := nofun

/-- A command whose answers are alike leaves both stores side by side. -/
theorem Alike.step {α : Type} {c : Command} {x : Result (α × PgState)} {y : Result (α × State)}
    (h : p.Coupled s) (hx : p.exec c = x.map Prod.snd) (hy : c.exec s = y.map Prod.snd)
    (halike : Alike x y) : (p.step c).Coupled (c.step s) := by
  unfold PgState.step Command.step
  rw [hx, hy]
  cases x with
  | error e =>
    cases y with
    | error e' => exact h
    | ok y => exact halike.elim
  | ok x =>
    cases y with
    | error e' => exact halike.elim
    | ok y => exact halike.2

/-- One command on both stores. -/
theorem Coupled.step (h : p.Coupled s) {c : Command} (hc : p.InStep c) :
    (p.step c).Coupled (c.step s) := by
  obtain ⟨hfits, hcond⟩ := hc
  cases c with
  | createVersion parentId metadata =>
    apply Alike.step h rfl rfl (createVersion_alike h hfits _)
    rintro w rfl
    exact hcond
  | appendClaim v claim expectedHead =>
    exact Alike.step h rfl rfl (appendClaim_alike h claim expectedHead hfits)
  | appendClaims v claims expectedHead =>
    exact Alike.step h rfl rfl (appendClaims_alike h claims expectedHead hfits)
  | appendEvaluatedClaims v claims expectedHead findings =>
    exact Alike.step h rfl rfl (appendEvaluatedClaims_alike h claims expectedHead findings hfits)
  | lockAnchor v subject key value scopePath evidence =>
    exact Alike.step h rfl rfl (lockAnchor_alike h subject key value scopePath evidence hfits)
  | registerPromise v key kind description originScope dueScope =>
    exact Alike.step h rfl rfl
      (registerPromise_alike h key kind description originScope dueScope hfits)
  | fulfillPromise v key => exact Alike.step h rfl rfl (fulfillPromise_alike h hfits hcond)
  | recordCounts v key scopePath count budget =>
    obtain ⟨hroom, hcount, hbudget⟩ := hfits
    exact Alike.step h rfl rfl (recordCounts_alike h key scopePath hroom hcount hbudget)
  | recordFindings v seq findings =>
    exact Alike.step h rfl rfl (recordFindings_alike h findings hfits)

/-- Every command of a run meets its condition in the state before it. -/
def RunsInStep : PgState → List Command → Prop
  | _, [] => True
  | p, c :: rest => p.InStep c ∧ RunsInStep (p.step c) rest

theorem Coupled.run (h : p.Coupled s) {commands : List Command} (hrun : p.RunsInStep commands) :
    (p.run commands).Coupled (Command.run s commands) := by
  induction commands generalizing p s with
  | nil => exact h
  | cons c rest ih => exact ih (h.step hrun.1) hrun.2

/-- A read asks of a version that the findings of its chain stand alike. -/
def ReadsInStep [Collation] (p : PgState) (v : String) : Prop :=
  ∀ chain, p.lineageChain v = .ok chain → p.ReadsAlike chain

omit [Unicode] in
theorem Coupled.findingsAt [Collation] (h : p.Coupled s) {v : String} (hv : p.ReadsInStep v)
    {q : FindingsQuery} (hlimit : q.limit.getD 1000 < 2 ^ 63) :
    p.findingsAt v q = s.findingsAt v q := by
  rcases h.known v with ⟨lineage, head, hl, -, hchain, -⟩ | ⟨-, hl, hchain⟩
  · exact h.mirrors.findingsAt h.sound h.stamped hl (hv lineage hchain) hlimit
  · simp only [PgState.findingsAt, State.findingsAt, pgBigint_ok hlimit, hchain, hl, bind,
      Except.bind]

omit [Unicode] in
theorem Coupled.readsInStep [Collation] (h : p.Coupled s) {v : String}
    (hlength : p.findings.length < 2 ^ 63)
    (hread : ∀ q, q.limit.getD 1000 < 2 ^ 63 → p.findingsAt v q = s.findingsAt v q) :
    p.ReadsInStep v := by
  intro chain hchain
  rcases h.known v with ⟨lineage, head, hl, -, hknown, -⟩ | ⟨-, -, hunknown⟩
  · obtain rfl := Except.ok.inj (hchain.symm.trans hknown)
    exact h.mirrors.readsAlike h.sound h.stamped hl hlength hread
  · cases hchain.symm.trans hunknown

omit [Unicode] in
/-- One promise is the target on both sides exactly where the first open one stands alike. -/
theorem Coupled.target (h : p.Coupled s) {v : String} {chain : List String}
    (hchain : p.lineageChain v = .ok chain) (key : String) :
    p.openPromise chain key = (s.fulfillTarget v key).map Prod.snd ↔ p.FulfilsAlike chain key := by
  rcases h.known v with ⟨lineage, head, hl, -, hknown, -⟩ | ⟨-, -, hunknown⟩
  · obtain rfl := Except.ok.inj (hchain.symm.trans hknown)
    rw [h.mirrors.fulfillTarget hl, openPromise_eq_firstOpen]
  · cases hchain.symm.trans hunknown

end Runs

section
attribute [local instance] asciiUnicode samplePlatform unaryIds

/-- Texts in the order of their code points. -/
abbrev codePoints : Collation where
  sortKey t := t.toList.map Char.toNat

attribute [local instance] codePoints

/-- A finding of a rule. -/
def findingOf (ruleId : String) : GateFinding where
  ruleId := ruleId
  severity := .info
  message := ""
  scopePath := none
  detail := none

/-- A root with two findings of one stamp in the order of their rules, and a promise. -/
def alikeCommands : List Command :=
  [.createVersion none none,
    .recordFindings "memv-" 0 [findingOf "a", findingOf "b"],
    .registerPromise "memv-" "reveal" "setup" "" none none]

/-- A root with two findings of one stamp, of rule `b` before rule `a`. -/
def tiedFindings : List Command :=
  [.createVersion none none, .recordFindings "memv-" 0 [findingOf "b", findingOf "a"]]

/-- A branch registers a promise at 1, its root one of the same key at 2. -/
def promisedApart : List Command :=
  [.createVersion none none, .createVersion (some "memv-") none,
    .registerPromise "memv-x" "reveal" "setup" "" none none,
    .appendClaim "memv-" (.fact "hero" "eyes" "blue") none,
    .registerPromise "memv-" "reveal" "setup" "" none none]

end
end PgState
end Munarium

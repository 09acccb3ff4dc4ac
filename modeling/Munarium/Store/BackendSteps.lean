import Munarium.Store.Backends
import Munarium.Store.GovernanceChain

/-! One command on both stores: where it meets its condition, both answer alike and stay side by
side. -/
namespace Munarium

namespace PgState
open StableSort (byGroup)

section
variable [Platform] [IdGenerator]

/-- The stores side by side, with what their runs keep. -/
structure Coupled (p : PgState) (s : State) : Prop where
  mirrors : p.Mirrors s
  sound : Sound s
  anchorsRise : ∀ v, (s.anchors v).Pairwise fun a b => a.seq ≤ b.seq
  anchorsLocked : ∀ a ∈ p.anchors, a.status = .locked
  promiseIds : (p.promises.map (·.id)).Nodup
  promisesDrawn : ∀ r ∈ p.promises, ∃ i < p.issued, r.id = "prom-" ++ IdGenerator.next i
  stamped : ∀ r ∈ p.findings, r.2.seq < 2 ^ 63

/-- Both stores refuse alike, or give one answer and are side by side again. -/
def Alike {α : Type} : Result (α × PgState) → Result (α × State) → Prop
  | .ok (a, p), .ok (b, s) => a = b ∧ p.Coupled s
  | .error e, .error e' => e = e'
  | _, _ => False

/-- The next `n` stamps of the version are within `BIGINT`. -/
def Room (p : PgState) (v : String) (n : ℕ) : Prop :=
  ∀ chain head, p.lockedHead v = .ok (chain, head) → head + n < 2 ^ 63

/-- Every number that a command stores is within `BIGINT`. -/
def Fits (p : PgState) : Command → Prop
  | .createVersion parentId _ => ∀ w, parentId = some w → p.Room w 0
  | .appendClaim v _ _ => p.Room v 1
  | .appendClaims v claims _ => p.Room v claims.length
  | .appendEvaluatedClaims v claims _ _ => p.Room v claims.length
  | .lockAnchor v _ _ _ _ _ => p.Room v 1
  | .registerPromise v _ _ _ _ _ => p.Room v 1
  | .fulfillPromise v _ => p.Room v 1
  | .recordCounts v _ _ count budget =>
      p.Room v 1 ∧ count < 2 ^ 63 ∧ ∀ b, budget = some b → b < 2 ^ 63
  | .recordFindings _ seq _ => seq < 2 ^ 63

/-- A policy change is assessed against claims of which those of one stamp joined root to leaf. -/
def AssessesAlike (p : PgState) (chain : List String) : Prop :=
  ∀ n, (byGroup (·.versionId) chain p.claims).filter (fun c => c.seq == n) =
    (p.claims.filter fun c => chain.contains c.versionId).filter fun c => c.seq == n

/-- What a command asks of the state before it for both stores to answer alike. -/
def InStep (p : PgState) (c : Command) : Prop :=
  p.Fits c ∧ match c with
    | .fulfillPromise v key => ∀ chain, p.lineageChain v = .ok chain → p.FulfilsAlike chain key
    | .createVersion (some w) metadata =>
        (metadata.bind (·.get "governance_transition")).isSome →
          ∀ chain, p.lineageChain w = .ok chain → p.AssessesAlike chain
    | _ => True

variable {p : PgState} {s : State} {v : String}

omit [Platform] [IdGenerator] in
theorem pgBigint_ok {n : ℕ} (h : n < 2 ^ 63) (field : String) : pgBigint n field = .ok n :=
  if_pos h

omit [Platform] [IdGenerator] in
theorem nextSeq_ok {head : ℕ} (h : head + 1 < 2 ^ 63) : nextSeq head = .ok (head + 1) := by
  simp only [nextSeq, pgBigint_ok (by omega : head < 2 ^ 63), pgBigint_ok h, bind, Except.bind]

/-- Both stores know a version, with one lineage and one head, or neither does. -/
theorem Coupled.known (h : p.Coupled s) (v : String) :
    (∃ lineage head, s.lineageOf v = .ok lineage ∧ s.headOf v = .ok head ∧
      p.lineageChain v = .ok lineage ∧ p.lockedHead v = .ok (lineage, head)) ∨
    (s.versions v = none ∧ s.lineageOf v = .error (State.unknownVersion v) ∧
      p.lineageChain v = .error (State.unknownVersion v)) := by
  by_cases hv : s.versions v = none
  · exact .inr ⟨hv, h.mirrors.unknown hv⟩
  · obtain ⟨lineage, hl⟩ := h.sound.exists_lineage hv
    obtain ⟨head, hh⟩ := State.exists_head hl
    exact .inl ⟨lineage, head, hl, hh, h.mirrors.lineageChain h.sound hl,
      h.mirrors.lockedHead h.sound hl hh⟩

theorem Coupled.policy (h : p.Coupled s) {lineage : List String}
    (hl : s.lineageOf v = .ok lineage) : ∃ policy revision,
      GovernancePolicy.fromStoredMetadata (p.metadataOf v) = .ok policy ∧
        policy.revision = .ok revision := by
  rw [← h.mirrors.metadata]
  exact h.sound.stored (State.lineage_known hl (State.self_mem_lineage hl))

end

section Rows
variable {v : String}

/-- Rows of one version join its rows alike on both sides. -/
theorem update_append {ρ α : Type} {version : ρ → String} (value : ρ → α) {f : String → List α}
    {rows more : List ρ} (h : ∀ w, f w = (rows.filter fun r => version r = w).map value)
    (hmore : ∀ r ∈ more, version r = v) (w : String) :
    Function.update f v (f v ++ more.map value) w =
      ((rows ++ more).filter fun r => version r = w).map value := by
  rw [List.filter_append, List.map_append]
  by_cases hw : w = v
  · subst hw
    have hall : more.filter (fun r => version r = w) = more :=
      List.filter_eq_self.mpr fun r hr => decide_eq_true (hmore r hr)
    rw [Function.update_self, h, hall]
  · have hnone : more.filter (fun r => version r = w) = [] := by
      rw [List.filter_eq_nil_iff]
      intro r hr
      rw [decide_eq_true_eq, hmore r hr]
      exact Ne.symm hw
    rw [Function.update_of_ne hw, h, hnone, List.map_nil, List.append_nil]

theorem update_append_rows {α : Type} {version : α → String} {f : String → List α}
    {rows more : List α} (h : ∀ w, f w = rows.filter fun r => version r = w)
    (hmore : ∀ r ∈ more, version r = v) (w : String) :
    Function.update f v (f v ++ more) w = (rows ++ more).filter fun r => version r = w := by
  have hjoined := update_append id (fun w => (h w).trans (List.map_id _).symm) hmore w
  rwa [List.map_id, List.map_id] at hjoined

theorem update_append_values {α : Type} {f : String → List α} {rows : List (String × α)}
    (h : ∀ w, f w = (rows.filter fun r => r.1 = w).map (·.2)) (more : List α) (w : String) :
    Function.update f v (f v ++ more) w =
      ((rows ++ more.map fun a => (v, a)).filter fun r => r.1 = w).map (·.2) := by
  have hvalues : (more.map fun a => (v, a)).map (·.2) = more := by
    rw [List.map_map]
    exact List.map_id more
  have hversion : ∀ r ∈ more.map fun a => (v, a), r.1 = v := by simp
  have hjoined := update_append Prod.snd h hversion w
  rwa [hvalues] at hjoined

/-- An anchor stamped past those of its version. -/
theorem rises_append {f : String → List Anchor} {a : Anchor}
    (h : ∀ w, (f w).Pairwise fun b c => b.seq ≤ c.seq) (ha : ∀ b ∈ f v, b.seq ≤ a.seq)
    (w : String) : (Function.update f v (f v ++ [a]) w).Pairwise fun b c => b.seq ≤ c.seq := by
  by_cases hw : w = v
  · subst hw
    rw [Function.update_self, List.pairwise_append]
    exact ⟨h w, List.pairwise_singleton _ _, by simpa using ha⟩
  · rw [Function.update_of_ne hw]
    exact h w

end Rows

/-- The promise of the id, fulfilled. -/
def fulfilled (id : String) (seq : ℕ) (r : Promise) : Promise :=
  if r.id == id then { r with status := .fulfilled, fulfilledSeq := some seq } else r

theorem fulfilled_of_ne {id : String} {seq : ℕ} {r : Promise} (h : r.id ≠ id) :
    fulfilled id seq r = r := if_neg (by simpa using h)

theorem map_fulfilled_of_ne {id : String} (seq : ℕ) {rows : List Promise}
    (h : ∀ r ∈ rows, r.id ≠ id) : rows.map (fulfilled id seq) = rows :=
  (List.map_congr_left fun r hr => fulfilled_of_ne (h r hr)).trans (List.map_id rows)

@[simp] theorem fulfilled_id (id : String) (seq : ℕ) (r : Promise) :
    (fulfilled id seq r).id = r.id := by unfold fulfilled; split_ifs <;> rfl

@[simp] theorem fulfilled_versionId (id : String) (seq : ℕ) (r : Promise) :
    (fulfilled id seq r).versionId = r.versionId := by unfold fulfilled; split_ifs <;> rfl

section Steps
variable [Unicode] [Platform] [IdGenerator] {p : PgState} {s : State} {v : String}

omit [Unicode] in
theorem Coupled.drawn (h : p.Coupled s) {n : ℕ} (hle : p.issued ≤ n) :
    ∀ r ∈ p.promises, ∃ i < n, r.id = "prom-" ++ IdGenerator.next i := by
  intro r hr
  obtain ⟨i, hi, hid⟩ := h.promisesDrawn r hr
  exact ⟨i, hi.trans_le hle, hid⟩

omit [Unicode] in
theorem lockAnchor_alike (h : p.Coupled s) (subject key value : String)
    (scopePath : Option String) (evidence : Option Json) (hroom : p.Room v 1) :
    Alike (p.lockAnchor v subject key value scopePath evidence)
      (s.lockAnchor v subject key value scopePath evidence) := by
  rcases h.known v with ⟨lineage, head, hl, hh, -, hlocked⟩ | ⟨-, hl, hchain⟩
  · obtain ⟨policy, revision, hpolicy, hrevision⟩ := h.policy hl
    have hrises : ∀ a ∈ s.anchors v, a.seq ≤ head + 1 := fun a ha =>
      (State.le_head hh hl (State.self_mem_lineage hl)
        (State.mem_stamps.mpr (.inr (.inl ⟨a, ha, rfl⟩)))).trans (Nat.le_succ head)
    simp only [PgState.lockAnchor, State.lockAnchor, hlocked, hh, nextSeq_ok (hroom _ _ hlocked),
      hpolicy, hrevision, bind, Except.bind, h.mirrors.issued]
    refine ⟨rfl, ?_, ?_, ?_, ?_, h.promiseIds, ?_, h.stamped⟩
    · exact ⟨rfl, h.mirrors.versions, h.mirrors.metadata, h.mirrors.claims,
        update_append_rows h.mirrors.anchors (by simp), h.mirrors.promises, h.mirrors.counters,
        h.mirrors.findings⟩
    · exact h.sound.frame rfl rfl (Nat.le_succ _)
    · exact rises_append h.anchorsRise hrises
    · intro a ha
      rcases List.mem_append.mp ha with hold | hnew
      · exact h.anchorsLocked a hold
      · obtain rfl := List.mem_singleton.mp hnew
        rfl
    · rw [← h.mirrors.issued]
      exact h.drawn (Nat.le_succ _)
  · simp only [PgState.lockAnchor, State.lockAnchor, PgState.lockedHead, State.headOf, hl, hchain,
      bind, Except.bind]
    rfl

omit [Unicode] in
theorem registerPromise_alike (h : p.Coupled s) (key kind description : String)
    (originScope dueScope : Option String) (hroom : p.Room v 1) :
    Alike (p.registerPromise v key kind description originScope dueScope)
      (s.registerPromise v key kind description originScope dueScope) := by
  rcases h.known v with ⟨lineage, head, hl, hh, -, hlocked⟩ | ⟨-, hl, hchain⟩
  · simp only [PgState.registerPromise, State.registerPromise, hlocked, hh,
      nextSeq_ok (hroom _ _ hlocked), bind, Except.bind]
    rw [h.mirrors.issued]
    refine ⟨rfl, ?_, ?_, h.anchorsRise, h.anchorsLocked, ?_, ?_, h.stamped⟩
    · exact ⟨rfl, h.mirrors.versions, h.mirrors.metadata, h.mirrors.claims, h.mirrors.anchors,
        update_append_rows h.mirrors.promises (by simp), h.mirrors.counters, h.mirrors.findings⟩
    · exact h.sound.frame rfl rfl (Nat.le_succ _)
    · rw [List.map_append, List.map_singleton]
      apply List.Nodup.append h.promiseIds (List.nodup_singleton _)
      rw [List.disjoint_singleton]
      intro hmem
      obtain ⟨r, hr, hid⟩ := List.mem_map.mp hmem
      obtain ⟨i, hi, hdrawn⟩ := h.promisesDrawn r hr
      have hsame := IdGenerator.unique ((String.append_right_inj _).mp (hdrawn.symm.trans hid))
      rw [h.mirrors.issued] at hi
      omega
    · intro r hr
      rcases List.mem_append.mp hr with hold | hnew
      · exact h.drawn (h.mirrors.issued ▸ Nat.le_succ _) r hold
      · obtain rfl := List.mem_singleton.mp hnew
        exact ⟨s.issued, Nat.lt_succ_self _, rfl⟩
  · simp only [PgState.registerPromise, State.registerPromise, PgState.lockedHead, State.headOf,
      hl, hchain, bind, Except.bind]
    rfl

omit [Unicode] in
/-- Findings filed for one version. -/
theorem Coupled.file (h : p.Coupled s) {seq : ℕ} (hseq : seq < 2 ^ 63)
    (findings : List GateFinding) :
    PgState.Coupled
      { p with findings := p.findings ++ findings.map fun f => (v, { seq := seq, finding := f }) }
      { s with
        findings := Function.update s.findings v
          (s.findings v ++ findings.map fun f => { seq := seq, finding := f }) } := by
  refine ⟨?_, h.sound.frame rfl rfl le_rfl, h.anchorsRise, h.anchorsLocked, h.promiseIds,
    h.promisesDrawn, ?_⟩
  · have hjoined := update_append_values (v := v) h.mirrors.findings
      (findings.map fun f => ({ seq := seq, finding := f } : StoredFinding))
    rw [List.map_map] at hjoined
    exact ⟨h.mirrors.issued, h.mirrors.versions, h.mirrors.metadata, h.mirrors.claims,
      h.mirrors.anchors, h.mirrors.promises, h.mirrors.counters, hjoined⟩
  · intro r hr
    rcases List.mem_append.mp hr with hold | hnew
    · exact h.stamped r hold
    · obtain ⟨f, -, rfl⟩ := List.mem_map.mp hnew
      exact hseq

omit [Unicode] in
theorem recordFindings_alike (h : p.Coupled s) {seq : ℕ} (findings : List GateFinding)
    (hseq : seq < 2 ^ 63) :
    Alike (p.recordFindings v seq findings) (s.recordFindings v seq findings) := by
  rcases h.known v with ⟨lineage, head, hl, -, -, -⟩ | ⟨hv, hl, -⟩
  · have hknown : (p.version v).isNone = false := by
      have hne := State.lineage_known hl (State.self_mem_lineage hl)
      rw [h.mirrors.versions, ne_eq, Option.map_eq_none_iff] at hne
      rwa [Option.isNone_eq_false_iff, Option.isSome_iff_ne_none]
    simp only [PgState.recordFindings, State.recordFindings, findingsTx, pgBigint_ok hseq, hknown,
      hl, bind, Except.bind]
    exact ⟨rfl, h.file hseq findings⟩
  · have hunknown : (p.version v).isNone = true := by
      rw [h.mirrors.versions, Option.map_eq_none_iff] at hv
      simp [hv]
    simp only [PgState.recordFindings, State.recordFindings, pgBigint_ok hseq, hunknown, hl, bind,
      Except.bind]
    rfl

omit [Unicode] [Platform] [IdGenerator] in
/-- The counters of a version after an upsert. -/
theorem filter_upsertCounter (v key scopePath : String) (count : ℕ) (budget : Option ℕ) (seq : ℕ)
    (rows : List (String × CounterRow)) :
    ((upsertCounter v key scopePath count budget seq rows).filter fun r => r.1 = v).map (·.2) =
      State.recordRow key scopePath count budget seq
        ((rows.filter fun r => r.1 = v).map (·.2)) := by
  induction rows with
  | nil => simp [upsertCounter, State.recordRow]
  | cons r rest ih =>
    obtain ⟨w, r⟩ := r
    unfold upsertCounter
    by_cases hw : w = v
    · subst hw
      rw [List.filter_cons_of_pos (by simp), List.map_cons, State.recordRow]
      by_cases hrow : State.isCounterRow key scopePath r = true
      · simp [hrow]
      · simp only [hrow, Bool.and_false, Bool.false_eq_true, if_false]
        rw [List.filter_cons_of_pos (by simp), List.map_cons, ih]
    · have hother : (w == v) = false := beq_false_of_ne hw
      simp only [hother, Bool.false_and, Bool.false_eq_true, if_false]
      rw [List.filter_cons_of_neg (by simpa), List.filter_cons_of_neg (by simpa), ih]

omit [Unicode] [Platform] [IdGenerator] in
/-- An upsert leaves the other versions' counters. -/
theorem filter_upsertCounter_of_ne {v w : String} (hw : w ≠ v) (key scopePath : String)
    (count : ℕ) (budget : Option ℕ) (seq : ℕ) (rows : List (String × CounterRow)) :
    (upsertCounter v key scopePath count budget seq rows).filter (fun r => r.1 = w) =
      rows.filter fun r => r.1 = w := by
  induction rows with
  | nil => simp [upsertCounter, Ne.symm hw]
  | cons r rest ih =>
    unfold upsertCounter
    split_ifs with hrow
    · obtain ⟨hv, -⟩ := Bool.and_eq_true_iff.mp hrow
      have hv := eq_of_beq hv
      rw [List.filter_cons_of_neg (by simpa using Ne.symm hw),
        List.filter_cons_of_neg (by simpa [hv] using Ne.symm hw)]
    · rw [List.filter_cons, List.filter_cons, ih]

omit [Unicode] in
theorem recordCounts_alike (h : p.Coupled s) (key scopePath : String) {count : ℕ}
    {budget : Option ℕ} (hroom : p.Room v 1) (hcount : count < 2 ^ 63)
    (hbudget : ∀ b, budget = some b → b < 2 ^ 63) :
    Alike (p.recordCounts v key scopePath count budget)
      (s.recordCounts v key scopePath count budget) := by
  have hkept : budget.mapM (pgBigint · "budget") = .ok budget := by
    cases budget with
    | none => rfl
    | some b =>
      show some <$> pgBigint b "budget" = .ok (some b)
      rw [pgBigint_ok (hbudget b rfl)]
      rfl
  rcases h.known v with ⟨lineage, head, hl, hh, -, hlocked⟩ | ⟨-, hl, hchain⟩
  · simp only [PgState.recordCounts, State.recordCounts, pgBigint_ok hcount, hkept, hlocked, hh,
      nextSeq_ok (hroom _ _ hlocked), bind, Except.bind]
    refine ⟨rfl, ?_, h.sound.frame rfl rfl le_rfl, h.anchorsRise, h.anchorsLocked, h.promiseIds,
      h.promisesDrawn, h.stamped⟩
    refine ⟨h.mirrors.issued, h.mirrors.versions, h.mirrors.metadata, h.mirrors.claims,
      h.mirrors.anchors, h.mirrors.promises, ?_, h.mirrors.findings⟩
    intro w
    by_cases hw : w = v
    · subst hw
      refine (Function.update_self ..).trans ?_
      rw [filter_upsertCounter, h.mirrors.counters]
    · refine (Function.update_of_ne hw ..).trans ?_
      rw [filter_upsertCounter_of_ne hw, h.mirrors.counters]
  · simp only [PgState.recordCounts, State.recordCounts, pgBigint_ok hcount, hkept,
      PgState.lockedHead, State.headOf, hl, hchain, bind, Except.bind]
    rfl

section Batch

omit [Unicode] [Platform] [IdGenerator] in
theorem checkSupersedes_congr {existing existing' : List Claim}
    (h : ∀ c, c ∈ existing ↔ c ∈ existing') (claims : List NewClaim) :
    State.checkSupersedes existing claims = State.checkSupersedes existing' claims := by
  have hids (sup : String) :
      (existing.map (·.id)).contains sup = (existing'.map (·.id)).contains sup := by
    rw [Bool.eq_iff_iff, List.contains_iff_mem, List.contains_iff_mem]
    simp only [List.mem_map, h]
  induction claims with
  | nil => rfl
  | cons c rest ih =>
    unfold State.checkSupersedes
    cases c.supersedesId with
    | none => exact ih
    | some sup => simp only [hids, ih]

omit [Unicode] [Platform] in
theorem stampClaims_version {v : String} {seq n : ℕ} {batch : List NewClaim} {c : Claim}
    (h : c ∈ State.stampClaims v seq n batch) : c.versionId = v := by
  obtain ⟨m, -, i, j, rfl⟩ := exists_of_mem_stampClaims h
  rfl

omit [Unicode] in
theorem Coupled.checkSupersedes (h : p.Coupled s) (lineage : List String)
    (claims : List NewClaim) :
    State.checkSupersedes (p.claims.filter fun c => lineage.contains c.versionId) claims =
      State.checkSupersedes (lineage.flatMap s.claims) claims := by
  apply checkSupersedes_congr
  intro c
  simp only [List.mem_filter, List.contains_iff_mem, List.mem_flatMap, h.mirrors.claims,
    decide_eq_true_eq]
  exact ⟨fun hc => ⟨_, hc.2, hc.1, rfl⟩, fun ⟨_, hw, hc, heq⟩ => ⟨hc, heq ▸ hw⟩⟩

omit [Unicode] in
/-- A batch joins the claims of one version. -/
theorem Coupled.append (h : p.Coupled s) (seq : ℕ) (claims : List NewClaim) :
    PgState.Coupled
      { p with
        claims := p.claims ++ State.stampClaims v seq p.issued claims
        issued := p.issued + claims.length }
      { s with
        claims :=
          Function.update s.claims v (s.claims v ++ State.stampClaims v seq s.issued claims)
        issued := s.issued + claims.length } := by
  rw [h.mirrors.issued]
  refine ⟨?_, h.sound.frame rfl rfl (Nat.le_add_right _ _), h.anchorsRise, h.anchorsLocked,
    h.promiseIds, h.drawn (h.mirrors.issued ▸ Nat.le_add_right _ _), h.stamped⟩
  exact ⟨rfl, h.mirrors.versions, h.mirrors.metadata,
    update_append_rows h.mirrors.claims fun c hc => stampClaims_version hc,
    h.mirrors.anchors, h.mirrors.promises, h.mirrors.counters, h.mirrors.findings⟩

omit [Unicode] in
theorem appendClaim_alike (h : p.Coupled s) (claim : NewClaim) (expectedHead : Option ℕ)
    (hroom : p.Room v 1) :
    Alike (p.appendClaim v claim expectedHead) (s.appendClaim v claim expectedHead) := by
  unfold PgState.appendClaim PgState.appendClaims PgState.appendClaimsUncommitted
    State.appendClaim
  rcases h.known v with ⟨lineage, head, hl, hh, -, hlocked⟩ | ⟨-, hl, hchain⟩
  · obtain ⟨policy, revision, hpolicy, hrevision⟩ := h.policy hl
    have hfits := hroom _ _ hlocked
    simp only [List.isEmpty_cons, Bool.false_eq_true, if_false, List.length_singleton, hlocked,
      hh, hl, State.lineageClaims, pgBigint_ok (by omega : head < 2 ^ 63), pgBigint_ok hfits,
      hpolicy, hrevision, h.checkSupersedes, bind, Except.bind]
    cases State.checkHead expectedHead head with
    | error e => rfl
    | ok _ =>
      cases State.checkSupersedes (lineage.flatMap s.claims) [claim] with
      | error e => rfl
      | ok _ =>
        have hstamped : State.stampClaims v (head + 1) p.issued [claim] =
            [State.storedClaim v (head + 1) s.issued claim] := by
          rw [h.mirrors.issued]
          rfl
        have hjoined := h.append (v := v) (head + 1) [claim]
        simp only [hstamped] at hjoined ⊢
        exact ⟨rfl, hjoined⟩
  · simp only [List.isEmpty_cons, Bool.false_eq_true, if_false, PgState.lockedHead, State.headOf,
      hl, hchain, bind, Except.bind]
    rfl

omit [Unicode] in
theorem appendClaims_alike (h : p.Coupled s) (claims : List NewClaim) (expectedHead : Option ℕ)
    (hroom : p.Room v claims.length) :
    Alike (p.appendClaims v claims expectedHead) (s.appendClaims v claims expectedHead) := by
  unfold PgState.appendClaims PgState.appendClaimsUncommitted State.appendClaims State.appendBatch
  split_ifs with hempty
  · exact ⟨rfl, h⟩
  rcases h.known v with ⟨lineage, head, hl, hh, -, hlocked⟩ | ⟨-, hl, hchain⟩
  · obtain ⟨policy, revision, hpolicy, hrevision⟩ := h.policy hl
    have hfits := hroom _ _ hlocked
    simp only [hlocked, hh, hl, State.lineageClaims, pgBigint_ok (by omega : head < 2 ^ 63),
      pgBigint_ok hfits, hpolicy, hrevision, h.checkSupersedes, bind, Except.bind]
    cases State.checkHead expectedHead head with
    | error e => rfl
    | ok _ =>
      cases State.checkSupersedes (lineage.flatMap s.claims) claims with
      | error e => rfl
      | ok _ =>
        refine ⟨by rw [h.mirrors.issued], ?_⟩
        have hjoined := h.append (v := v) (head + 1) claims
        have hfindings : Function.update s.findings v (s.findings v ++ []) = s.findings := by
          rw [List.append_nil, Function.update_eq_self]
        simpa only [List.map_nil, hfindings] using hjoined
  · simp only [PgState.lockedHead, State.headOf, hl, hchain, bind, Except.bind]
    rfl

omit [Unicode] in
/-- The findings are filed with the stamp of the last claim. -/
theorem appendEvaluatedClaims_alike (h : p.Coupled s) (claims : List NewClaim)
    (expectedHead : ℕ) (findings : List GateFinding) (hroom : p.Room v claims.length) :
    Alike (p.appendEvaluatedClaims v claims expectedHead findings)
      (s.appendEvaluatedClaims v claims expectedHead findings) := by
  unfold PgState.appendEvaluatedClaims PgState.appendClaimsUncommitted
    State.appendEvaluatedClaims State.appendBatch
  split_ifs with hempty
  · exact ⟨rfl, h⟩
  rcases h.known v with ⟨lineage, head, hl, hh, -, hlocked⟩ | ⟨-, hl, hchain⟩
  · obtain ⟨policy, revision, hpolicy, hrevision⟩ := h.policy hl
    have hfits := hroom _ _ hlocked
    simp only [hlocked, hh, hl, State.lineageClaims, pgBigint_ok (by omega : head < 2 ^ 63),
      pgBigint_ok hfits, hpolicy, hrevision, h.checkSupersedes, bind, Except.bind]
    cases State.checkHead (some expectedHead) head with
    | error e => rfl
    | ok _ =>
      cases State.checkSupersedes (lineage.flatMap s.claims) claims with
      | error e => rfl
      | ok _ =>
        obtain ⟨last, hlast, hseq⟩ := getLast?_stampClaims v head p.issued
          (fun hnil => hempty (List.isEmpty_iff.mpr hnil))
        simp only [hlast, hseq, findingsTx, pgBigint_ok hfits, bind, Except.bind]
        refine ⟨by rw [h.mirrors.issued], ?_⟩
        exact (h.append (v := v) (head + 1) claims).file hfits findings
  · simp only [PgState.lockedHead, State.headOf, hl, hchain, bind, Except.bind]
    rfl

end Batch

section Fulfilment

omit [Unicode] [Platform] [IdGenerator] in
theorem eq_of_id {rows : List Promise} (hids : (rows.map (·.id)).Nodup) {r t : Promise}
    (hr : r ∈ rows) (ht : t ∈ rows) (h : r.id = t.id) : r = t :=
  List.inj_on_of_nodup_map hids hr ht h

omit [Unicode] [Platform] [IdGenerator] in
/-- The first open promise is fulfilled by its id. -/
theorem fulfillFirst_eq_map {key : String} (seq : ℕ) {rows : List Promise} {t : Promise}
    (hids : (rows.map (·.id)).Nodup) (ht : rows.find? (State.isOpenPromise key) = some t) :
    State.fulfillFirst key seq rows = rows.map (fulfilled t.id seq) := by
  induction rows with
  | nil => cases ht
  | cons r rest ih =>
    rw [List.map_cons, List.nodup_cons] at hids
    obtain ⟨hfresh, hrest⟩ := hids
    rw [List.find?_cons] at ht
    unfold State.fulfillFirst
    by_cases hopen : State.isOpenPromise key r = true
    · rw [hopen] at ht
      obtain rfl := Option.some.inj ht
      have hkept : rest.map (fulfilled r.id seq) = rest :=
        map_fulfilled_of_ne seq fun q hq heq => hfresh (heq ▸ List.mem_map_of_mem hq)
      rw [if_pos hopen, List.map_cons, hkept, fulfilled, if_pos (beq_self_eq_true _)]
    · rw [Bool.not_eq_true] at hopen
      rw [hopen] at ht
      have hne : r.id ≠ t.id := by
        intro heq
        rw [heq] at hfresh
        exact hfresh (List.mem_map_of_mem (List.mem_of_find?_eq_some ht))
      rw [if_neg (by simp [hopen]), List.map_cons, fulfilled_of_ne hne, ih hrest ht]

omit [Unicode] in
/-- One promise of the lineage is fulfilled. -/
theorem Coupled.fulfil (h : p.Coupled s) {key w : String} {t : Promise} (seq : ℕ)
    (ht : (s.promises w).find? (State.isOpenPromise key) = some t) :
    PgState.Coupled { p with promises := p.promises.map (fulfilled t.id seq) }
      { s with
        promises :=
          Function.update s.promises w (State.fulfillFirst key seq (s.promises w)) } := by
  have hrows (w' : String) :
      (p.promises.map (fulfilled t.id seq)).filter (fun r => r.versionId = w') =
        (s.promises w').map (fulfilled t.id seq) := by
    rw [h.mirrors.promises, List.filter_map]
    simp only [Function.comp_def, fulfilled_versionId]
  have hids (w' : String) : ((s.promises w').map (·.id)).Nodup := by
    rw [h.mirrors.promises]
    exact h.promiseIds.sublist (List.filter_sublist.map _)
  have ht' : t ∈ p.promises ∧ t.versionId = w := by
    have hmem := List.mem_of_find?_eq_some ht
    rw [h.mirrors.promises, List.mem_filter, decide_eq_true_eq] at hmem
    exact hmem
  refine ⟨?_, h.sound.frame rfl rfl le_rfl, h.anchorsRise, h.anchorsLocked, ?_, ?_, h.stamped⟩
  · refine ⟨h.mirrors.issued, h.mirrors.versions, h.mirrors.metadata, h.mirrors.claims,
      h.mirrors.anchors, ?_, h.mirrors.counters, h.mirrors.findings⟩
    intro w'
    rw [hrows]
    by_cases hw : w' = w
    · subst hw
      exact (Function.update_self ..).trans (fulfillFirst_eq_map seq (hids w') ht)
    · refine (Function.update_of_ne hw ..).trans (Eq.symm ?_)
      apply map_fulfilled_of_ne
      intro r hr heq
      rw [h.mirrors.promises, List.mem_filter, decide_eq_true_eq] at hr
      rw [eq_of_id h.promiseIds hr.1 ht'.1 heq] at hr
      exact hw (hr.2.symm.trans ht'.2)
  · rw [List.map_map]
    simpa only [Function.comp_def, fulfilled_id] using h.promiseIds
  · intro r hr
    obtain ⟨q, hq, rfl⟩ := List.mem_map.mp hr
    rw [fulfilled_id]
    exact h.promisesDrawn q hq

omit [Unicode] in
theorem fulfillPromise_alike (h : p.Coupled s) {key : String} (hroom : p.Room v 1)
    (halike : ∀ chain, p.lineageChain v = .ok chain → p.FulfilsAlike chain key) :
    Alike (p.fulfillPromise v key) (s.fulfillPromise v key) := by
  rcases h.known v with ⟨lineage, head, hl, hh, hchain, hlocked⟩ | ⟨-, hl, hchain⟩
  · have htarget := (openPromise_eq_firstOpen.mpr (halike _ hchain)).trans
      (h.mirrors.fulfillTarget hl key).symm
    simp only [State.fulfillTarget, hl] at htarget
    simp only [PgState.fulfillPromise, State.fulfillPromise, hlocked, hh, hl,
      nextSeq_ok (hroom _ _ hlocked), htarget, bind, Except.bind]
    cases hfind : lineage.find? fun w => (s.promises w).any (State.isOpenPromise key) with
    | none => exact ⟨rfl, h⟩
    | some w =>
      obtain ⟨t, ht⟩ : ∃ t, (s.promises w).find? (State.isOpenPromise key) = some t := by
        have hany := List.find?_some hfind
        rw [← Option.isSome_iff_exists, List.find?_isSome]
        exact List.any_eq_true.mp hany
      have hmem := List.mem_of_find?_eq_some ht
      rw [h.mirrors.promises, List.mem_filter, decide_eq_true_eq] at hmem
      have hw : w ∈ lineage := List.mem_of_find?_eq_some hfind
      have hhits (r : Promise) (hr : r ∈ p.promises) :
          (State.isOpenPromise key r && lineage.contains r.versionId && r.id == t.id) =
            (r.id == t.id) := by
        by_cases hid : r.id = t.id
        · obtain rfl := eq_of_id h.promiseIds hr hmem.1 hid
          simp [List.find?_some ht, hmem.2, hw]
        · simp [hid]
      have hany : p.promises.any (fun r => State.isOpenPromise key r &&
          lineage.contains r.versionId && r.id == t.id) = true := by
        rw [List.any_eq_true]
        exact ⟨t, hmem.1, by rw [hhits t hmem.1, beq_self_eq_true]⟩
      have hmap : (p.promises.map fun r =>
          if (State.isOpenPromise key r && lineage.contains r.versionId && r.id == t.id) = true then
            { r with status := .fulfilled, fulfilledSeq := some (head + 1) } else r) =
            p.promises.map (fulfilled t.id (head + 1)) := by
        apply List.map_congr_left
        intro r hr
        rw [hhits r hr]
        rfl
      simp only [Option.bind_some, ht, Option.map_some, hany, hmap]
      exact ⟨rfl, h.fulfil (head + 1) ht⟩
  · simp only [PgState.fulfillPromise, State.fulfillPromise, PgState.lockedHead, State.headOf,
      hl, hchain, bind, Except.bind]
    rfl

end Fulfilment

end Steps

end PgState
end Munarium

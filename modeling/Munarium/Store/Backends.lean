import Munarium.Lib.TieOrder
import Munarium.Store.Postgres
import Munarium.Store.PromiseReads
import Munarium.Store.Rows

/-! The two stores side by side: tables that hold the rows of the in-memory store, version by
version, and what is read of a lineage from both. -/
namespace Munarium

open StableSort (byGroup)

/-- The tables hold the rows of the in-memory store, those of a version in their order. -/
structure PgState.Mirrors (p : PgState) (s : State) : Prop where
  issued : p.issued = s.issued
  versions : ∀ v, s.versions v = (p.version v).map (·.parentId)
  metadata : ∀ v, s.versionMeta v = p.metadataOf v
  claims : ∀ v, s.claims v = p.claims.filter fun c => c.versionId = v
  anchors : ∀ v, s.anchors v = p.anchors.filter fun a => a.versionId = v
  promises : ∀ v, s.promises v = p.promises.filter fun r => r.versionId = v
  counters : ∀ v, s.counters v = (p.counters.filter fun r => r.1 = v).map (·.2)
  findings : ∀ v, s.findings v = (p.findings.filter fun r => r.1 = v).map (·.2)

namespace PgState
variable {p : PgState} {s : State} {v : String} {lineage : List String}

theorem version_id {row : VersionRow} (h : p.version v = some row) : row.id = v := by
  have hfound := List.find?_some (show p.versions.find? (·.id == v) = some row from h)
  exact eq_of_beq hfound

/-- The findings of the chain in the order in which they were filed. -/
def filedFindings (p : PgState) (chain : List String) : List StoredFinding :=
  (p.findings.filter fun r => r.1 ∈ chain).map (·.2)

/-- The findings of the chain root to leaf, those of one version as they were filed. -/
def lineageFindings (p : PgState) (chain : List String) : List StoredFinding :=
  (byGroup Prod.fst chain p.findings).map (·.2)

/-- Findings of one stamp stand root to leaf in the order of their rules, and those of one stamp
and rule in the order in which they were filed. -/
def ReadsAlike [Collation] (p : PgState) (chain : List String) : Prop :=
  ((p.lineageFindings chain).Pairwise fun f g => f.seq = g.seq →
    Collation.sortKey f.finding.ruleId ≤ Collation.sortKey g.finding.ruleId) ∧
  ∀ n k, (p.lineageFindings chain).filter
      (fun f => f.seq == n && Collation.sortKey f.finding.ruleId == k) =
    (p.filedFindings chain).filter fun f => f.seq == n && Collation.sortKey f.finding.ruleId == k

/-- The first open promise of the key, root to leaf. -/
def firstOpen (p : PgState) (chain : List String) (key : String) : Option Promise :=
  (byGroup (·.versionId) chain p.promises).find? (State.isOpenPromise key)

/-- The first open promise of the key, root to leaf, has the least stamp of the open ones, and it
was the first of those to be registered. -/
def FulfilsAlike (p : PgState) (chain : List String) (key : String) : Prop :=
  ∀ first, p.firstOpen chain key = some first →
    (∀ r ∈ p.promises, State.isOpenPromise key r → r.versionId ∈ chain → first.seq ≤ r.seq) ∧
    p.promises.find? (fun r => State.isOpenPromise key r && chain.contains r.versionId &&
      r.seq = first.seq) = some first

section Ancestry
variable [Platform] [IdGenerator]

omit [Platform] [IdGenerator] in
/-- The walk up the tables is the walk up the versions. -/
theorem Mirrors.ancestry (h : p.Mirrors s) {path : List String}
    (hpath : Forest.Chain s.versions v path) (fuel : ℕ) (hfuel : path.length ≤ fuel) :
    (p.ancestry fuel v).map (·.id) = path ∧ ∀ row ∈ p.ancestry fuel v,
      p.version row.id = some row := by
  have hrow {v : String} {parent : Option String} (hv : s.versions v = some parent) :
      ∃ row, p.version v = some row ∧ row.parentId = parent := by
    rw [h.versions, Option.map_eq_some_iff] at hv
    exact hv
  induction hpath generalizing fuel with
  | @root v hv =>
    obtain ⟨row, hversion, hparent⟩ := hrow hv
    obtain ⟨fuel, rfl⟩ : ∃ n, fuel = n + 1 := ⟨fuel - 1, by simp at hfuel; omega⟩
    have hid := version_id hversion
    simp [PgState.ancestry, hversion, hparent, hid]
  | @child v parent path hv _ ih =>
    obtain ⟨row, hversion, hparent⟩ := hrow hv
    obtain ⟨fuel, rfl⟩ : ∃ n, fuel = n + 1 := ⟨fuel - 1, by simp at hfuel; omega⟩
    have hid := version_id hversion
    obtain ⟨hids, hrows⟩ := ih fuel (by simpa using hfuel)
    simp only [PgState.ancestry, hversion, hparent, Option.map_some, Option.getD_some,
      List.map_cons, hid, hids, List.mem_cons, true_and]
    rintro r (rfl | hr)
    · rwa [hid]
    · exact hrows r hr

theorem Mirrors.lineageChain (h : p.Mirrors s) (hs : Sound s) (hl : s.lineageOf v = .ok lineage) :
    p.lineageChain v = .ok lineage := by
  have hpath := State.chain_of_lineageOf hl
  obtain ⟨rank, hr⟩ := hs.ranked
  have hv : s.versions v ≠ none := hpath.known v hpath.self_mem
  obtain ⟨path, hc, hlen⟩ := hr.exists_chain hv
  have hbound := hr.bounded v hv
  rw [← hpath.unique hc] at hlen
  obtain ⟨hids, hrows⟩ := h.ancestry hpath (p.issued + 1) (by rw [h.issued]; omega)
  have hids' : (p.ancestry (p.issued + 1) v).reverse.map (·.id) = lineage := by
    rw [List.map_reverse, hids, List.reverse_reverse]
  have hverified : ∃ policies, (p.ancestry (p.issued + 1) v).reverse.mapM
      (fun row => GovernancePolicy.fromStoredMetadata row.metadata) = .ok policies := by
    apply exists_mapM_ok
    intro row hrow
    have hversion := hrows row (List.mem_reverse.mp hrow)
    have hmeta : s.versionMeta row.id = row.metadata := by
      rw [h.metadata, metadataOf, hversion]
      rfl
    rw [← hmeta]
    apply State.verifyMetadata_ok_iff.mp
    apply hs.verified
    rw [h.versions, hversion]
    simp
  obtain ⟨policies, hpolicies⟩ := hverified
  have hne : lineage ≠ [] := List.ne_nil_of_mem (State.self_mem_lineage hl)
  unfold PgState.lineageChain
  rw [← hids'] at hne
  simp only [List.isEmpty_iff]
  rw [if_neg (by simpa using hne), hpolicies]
  show Except.ok _ = _
  rw [hids']

omit [IdGenerator] in
theorem Mirrors.unknown (h : p.Mirrors s) (hv : s.versions v = none) :
    s.lineageOf v = .error (State.unknownVersion v) ∧
      p.lineageChain v = .error (State.unknownVersion v) := by
  have hnone : p.version v = none := by
    rw [h.versions, Option.map_eq_none_iff] at hv
    exact hv
  constructor
  · simp [State.lineageOf, Forest.walk, hv, Except.map]
  · simp [PgState.lineageChain, PgState.ancestry, hnone]

theorem lineage_nodup (hs : Sound s) (hl : s.lineageOf v = .ok lineage) : lineage.Nodup := by
  obtain ⟨rank, hr⟩ := hs.ranked
  exact List.nodup_reverse.mp (hr.nodup (State.chain_of_lineageOf hl))

omit [Platform] [IdGenerator] in
theorem mem_stampsOf {chain : List String} {x : ℕ} : x ∈ p.stampsOf chain ↔
    (∃ c ∈ p.claims, c.versionId ∈ chain ∧ c.seq = x) ∨
      (∃ a ∈ p.anchors, a.versionId ∈ chain ∧ a.seq = x) ∨
      (∃ r ∈ p.promises, r.versionId ∈ chain ∧ max r.seq (r.fulfilledSeq.getD 0) = x) ∨
      ∃ r ∈ p.counters, r.1 ∈ chain ∧ r.2.seq = x := by
  simp only [stampsOf, List.mem_append, List.mem_map, List.mem_filter, List.contains_iff_mem,
    and_assoc, or_assoc]

omit [IdGenerator] in
/-- Both stores count from one head. -/
theorem Mirrors.chainHead (h : p.Mirrors s) {head : ℕ} (hl : s.lineageOf v = .ok lineage)
    (hh : s.headOf v = .ok head) : p.chainHead lineage = head := by
  apply eq_of_forall_ge_iff
  intro b
  rw [State.head_le_iff hh hl, PgState.chainHead, foldl_max_le_iff]
  constructor
  · rintro ⟨-, hb⟩ w hw x hx
    rw [State.mem_stamps, h.claims, h.anchors, h.promises, h.counters] at hx
    rcases hx with ⟨c, hc, rfl⟩ | ⟨a, ha, rfl⟩ | ⟨r, hr, hx⟩ | ⟨r, hr, rfl⟩
    · obtain ⟨hc, hv⟩ := List.mem_filter.mp hc
      exact hb _ (mem_stampsOf.mpr (.inl ⟨c, hc, of_decide_eq_true hv ▸ hw, rfl⟩))
    · obtain ⟨ha, hv⟩ := List.mem_filter.mp ha
      exact hb _ (mem_stampsOf.mpr (.inr (.inl ⟨a, ha, of_decide_eq_true hv ▸ hw, rfl⟩)))
    · obtain ⟨hr, hv⟩ := List.mem_filter.mp hr
      have hmax := hb _
        (mem_stampsOf.mpr (.inr (.inr (.inl ⟨r, hr, of_decide_eq_true hv ▸ hw, rfl⟩))))
      rw [max_le_iff] at hmax
      rcases hx with rfl | rfl
      · exact hmax.1
      · exact hmax.2
    · obtain ⟨row, hrow, rfl⟩ := List.mem_map.mp hr
      obtain ⟨hrow, hv⟩ := List.mem_filter.mp hrow
      exact hb _ (mem_stampsOf.mpr (.inr (.inr (.inr ⟨row, hrow, of_decide_eq_true hv ▸ hw, rfl⟩))))
  · intro hb
    refine ⟨Nat.zero_le b, ?_⟩
    intro x hx
    rcases mem_stampsOf.mp hx with ⟨c, hc, hv, rfl⟩ | ⟨a, ha, hv, rfl⟩ | ⟨r, hr, hv, rfl⟩ |
      ⟨r, hr, hv, rfl⟩
    · apply hb _ hv _ (State.mem_stamps.mpr (.inl ⟨c, ?_, rfl⟩))
      rw [h.claims]
      exact List.mem_filter.mpr ⟨hc, decide_eq_true rfl⟩
    · apply hb _ hv _ (State.mem_stamps.mpr (.inr (.inl ⟨a, ?_, rfl⟩)))
      rw [h.anchors]
      exact List.mem_filter.mpr ⟨ha, decide_eq_true rfl⟩
    · have hmem : r ∈ s.promises r.versionId := by
        rw [h.promises]
        exact List.mem_filter.mpr ⟨hr, decide_eq_true rfl⟩
      rw [max_le_iff]
      exact ⟨hb _ hv _ (State.mem_stamps.mpr (.inr (.inr (.inl ⟨r, hmem, .inl rfl⟩)))),
        hb _ hv _ (State.mem_stamps.mpr (.inr (.inr (.inl ⟨r, hmem, .inr rfl⟩))))⟩
    · apply hb _ hv _ (State.mem_stamps.mpr (.inr (.inr (.inr ⟨r.2, ?_, rfl⟩))))
      rw [h.counters]
      exact List.mem_map_of_mem (List.mem_filter.mpr ⟨hr, decide_eq_true rfl⟩)

theorem Mirrors.lockedHead (h : p.Mirrors s) (hs : Sound s) {head : ℕ}
    (hl : s.lineageOf v = .ok lineage) (hh : s.headOf v = .ok head) :
    p.lockedHead v = .ok (lineage, head) := by
  simp only [PgState.lockedHead, h.lineageChain hs hl, bind, Except.bind, h.chainHead hl hh]

end Ancestry
section Reads

theorem severity_text_inj {a b : Severity} : a.text = b.text ↔ a = b := by
  cases a <;> cases b <;> decide

theorem selects_eq_admits (q : FindingsQuery) {f : StoredFinding} (hf : f.seq < 2 ^ 63) :
    q.selects f = q.admits f := by
  have hpin : State.pinAdmits (pgPin q.asOfSeq) f.seq = State.pinAdmits q.asOfSeq f.seq := by
    cases hq : q.asOfSeq with
    | none => rfl
    | some pin =>
      show decide (f.seq ≤ min pin (2 ^ 63 - 1)) = decide (f.seq ≤ pin)
      rw [decide_eq_decide]
      omega
  have hseverity (a b : Severity) : (a.text == b.text) = (a == b) := by
    rw [Bool.eq_iff_iff, beq_iff_eq, beq_iff_eq, severity_text_inj]
  unfold FindingsQuery.selects FindingsQuery.admits
  rw [hpin]
  simp only [hseverity, likeMatch_escaped, startsWith]

section Findings
variable [Platform] [IdGenerator] [Collation]

/-- Both reads are sorts of what the query admits. -/
theorem Mirrors.findingsAt_eq (h : p.Mirrors s) (hs : Sound s)
    (hstamps : ∀ r ∈ p.findings, r.2.seq < 2 ^ 63) (hl : s.lineageOf v = .ok lineage)
    {q : FindingsQuery} (hlimit : q.limit.getD 1000 < 2 ^ 63) :
    p.findingsAt v q = .ok ((StableSort.sortByKey
      (fun f => toLex (f.seq, Collation.sortKey f.finding.ruleId))
        ((p.filedFindings lineage).filter q.admits)).take (q.limit.getD 1000)) ∧
    s.findingsAt v q = .ok ((StableSort.sortByKey (·.seq)
      ((p.lineageFindings lineage).filter q.admits)).take (q.limit.getD 1000)) := by
  have hrows : lineage.flatMap s.findings = p.lineageFindings lineage := by
    rw [lineageFindings, byGroup, List.map_flatMap]
    exact List.flatMap_congr fun w _ => h.findings w
  have hselected : (p.findings.filter fun r => lineage.contains r.1 && q.selects r.2).map (·.2) =
      (p.filedFindings lineage).filter q.admits := by
    rw [filedFindings, List.filter_map, List.filter_filter]
    congr 1
    apply List.filter_congr
    intro r hr
    rw [selects_eq_admits q (hstamps r hr), List.contains_eq_mem, Bool.and_comm]
    rfl
  simp only [PgState.findingsAt, State.findingsAt, pgBigint, if_pos hlimit,
    h.lineageChain hs hl, hl, bind, Except.bind, hrows, hselected, StableSort.filter_sortByKey,
    and_self]

omit [Platform] [IdGenerator] in
theorem readsAlike_iff : p.ReadsAlike lineage ↔
    StableSort.sortByKey (·.seq) (p.lineageFindings lineage) =
      StableSort.sortByKey (fun f => toLex (f.seq, Collation.sortKey f.finding.ruleId))
        (p.filedFindings lineage) := by
  symm
  apply StableSort.sortByKey_eq_iff
  simp

/-- Where ties stand alike, every query reads the same from both stores. -/
theorem Mirrors.findingsAt (h : p.Mirrors s) (hs : Sound s)
    (hstamps : ∀ r ∈ p.findings, r.2.seq < 2 ^ 63) (hl : s.lineageOf v = .ok lineage)
    (halike : p.ReadsAlike lineage) {q : FindingsQuery} (hlimit : q.limit.getD 1000 < 2 ^ 63) :
    p.findingsAt v q = s.findingsAt v q := by
  obtain ⟨hp, hs⟩ := h.findingsAt_eq hs hstamps hl hlimit
  rw [hp, hs, ← StableSort.filter_sortByKey, ← StableSort.filter_sortByKey,
    readsAlike_iff.mp halike]

omit [Platform] [IdGenerator] [Collation] in
theorem length_filedFindings (chain : List String) :
    (p.filedFindings chain).length ≤ p.findings.length := by
  rw [filedFindings, List.length_map]
  exact List.length_filter_le _ _

omit [Collation] in
theorem length_lineageFindings (hs : Sound s) (hl : s.lineageOf v = .ok lineage) :
    (p.lineageFindings lineage).length = (p.filedFindings lineage).length := by
  rw [lineageFindings, filedFindings, List.length_map, List.length_map]
  exact (StableSort.byGroup_perm (lineage_nodup hs hl) p.findings).length_eq

/-- Both stores read every query alike only where ties stand alike. -/
theorem Mirrors.readsAlike (h : p.Mirrors s) (hs : Sound s)
    (hstamps : ∀ r ∈ p.findings, r.2.seq < 2 ^ 63) (hl : s.lineageOf v = .ok lineage)
    (hlength : p.findings.length < 2 ^ 63)
    (hread : ∀ q, q.limit.getD 1000 < 2 ^ 63 → p.findingsAt v q = s.findingsAt v q) :
    p.ReadsAlike lineage := by
  have hfiled := length_filedFindings (p := p) lineage
  have hlineage := length_lineageFindings (p := p) hs hl
  have hsame := hread { limit := some p.findings.length } hlength
  obtain ⟨hp, hm⟩ := h.findingsAt_eq hs hstamps hl (q := { limit := some p.findings.length })
    hlength
  have hall (rows : List StoredFinding) : rows.filter
      ({ limit := some p.findings.length } : FindingsQuery).admits = rows :=
    List.filter_eq_self.mpr fun _ _ => rfl
  rw [hp, hm, hall, hall, Except.ok.injEq, Option.getD_some] at hsame
  rw [List.take_of_length_le, List.take_of_length_le] at hsame
  · exact readsAlike_iff.mpr hsame.symm
  · rw [StableSort.sortByKey, StableSort.length_sortBy, hlineage]
    exact hfiled
  · rw [StableSort.sortByKey, StableSort.length_sortBy]
    exact hfiled

end Findings

theorem find?_flatMap_any {α β : Type} (q : β → Bool) (f : α → List β) (l : List α) :
    (l.flatMap f).find? q = (l.find? fun a => (f a).any q).bind fun a => (f a).find? q := by
  induction l with
  | nil => rfl
  | cons a l ih =>
    rw [List.flatMap_cons, List.find?_append, List.find?_cons]
    cases ha : (f a).find? q with
    | none =>
      have hnone : (f a).any q = false := by
        rw [List.any_eq_false]
        exact fun x hx hq => List.find?_eq_none.mp ha x hx hq
      rw [hnone, Option.none_or, ih]
    | some x =>
      have hany : (f a).any q = true :=
        List.any_eq_true.mpr ⟨x, List.mem_of_find?_eq_some ha, List.find?_some ha⟩
      rw [hany, Option.some_or]
      exact ha.symm

/-- The in-memory store fulfils the first open promise, root to leaf. -/
theorem Mirrors.fulfillTarget [Platform] (h : p.Mirrors s) (hl : s.lineageOf v = .ok lineage)
    (key : String) : (s.fulfillTarget v key).map Prod.snd = p.firstOpen lineage key := by
  have hrows : byGroup (·.versionId) lineage p.promises = lineage.flatMap s.promises :=
    (List.flatMap_congr fun w _ => h.promises w).symm
  simp only [State.fulfillTarget, hl, firstOpen, hrows, find?_flatMap_any, Option.map_bind]
  congr 1
  funext w
  simp

theorem openPromise_eq_some {chain : List String} {key : String} {r : Promise} :
    p.openPromise chain key = some r ↔
      (∀ q ∈ p.promises, State.isOpenPromise key q → q.versionId ∈ chain → r.seq ≤ q.seq) ∧
      p.promises.find? (fun q => State.isOpenPromise key q && chain.contains q.versionId &&
        q.seq = r.seq) = some r := by
  rw [openPromise, StableSort.head?_sortByKey, List.filter_filter, List.head?_filter]
  apply and_congr
  · simp [List.mem_filter]
  · simp only [Bool.and_comm]

theorem firstOpen_eq_none {chain : List String} {key : String} : p.firstOpen chain key = none ↔
    ∀ q ∈ p.promises, State.isOpenPromise key q → q.versionId ∉ chain := by
  rw [firstOpen, List.find?_eq_none]
  simp only [StableSort.mem_byGroup]
  exact ⟨fun h q hq hopen hchain => h q ⟨hq, hchain⟩ hopen,
    fun h q hq hopen => h q hq.1 hopen hq.2⟩

/-- Both stores fulfil one promise exactly where the first open one stands alike. -/
theorem openPromise_eq_firstOpen {chain : List String} {key : String} :
    p.openPromise chain key = p.firstOpen chain key ↔ p.FulfilsAlike chain key := by
  cases hfirst : p.firstOpen chain key with
  | none =>
    refine iff_of_true ?_ fun first h => absurd (hfirst.symm.trans h) (by simp)
    cases hopen : p.openPromise chain key with
    | none => rfl
    | some r =>
      have hfound := (openPromise_eq_some.mp hopen).2
      have hr := List.find?_some hfound
      simp only [Bool.and_eq_true, List.contains_iff_mem] at hr
      exact absurd hr.1.2 (firstOpen_eq_none.mp hfirst r (List.mem_of_find?_eq_some hfound) hr.1.1)
  | some first =>
    rw [openPromise_eq_some]
    constructor
    · rintro h _ hsame
      obtain rfl := Option.some.inj (hfirst.symm.trans hsame)
      exact h
    · exact fun h => h first hfirst

end Reads

end PgState
end Munarium

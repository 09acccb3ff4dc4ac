import Munarium.Lib.NumberedChain
import Munarium.Platform.Authority

/-! The in-memory authority store over whole runs: enrollment, then installs in any order,
whatever is signed, presented or clocked. -/
namespace Munarium

namespace PlatformAuthority
open PlatformRecord (canonicalRecord canonicalRecord_ok recordDigest recordDigest_injective)

structure Records where
  state : Option AuthorityState := none
  receipts : SortedMap String AuthorityReceipt := .empty

structure MemAuthorityStore where
  tenant : String
  records : Records := {}

def unavailable : KernelError := .forbidden "platform authority is not enrolled"

namespace MemAuthorityStore

section
variable [Base64] [Ed25519] [SerdeJson] [Sha256]

/-- Enroll once, or confirm the identical configuration; never reset the state. -/
def enroll (m : MemAuthorityStore) (config : AuthorityConfig) :
    Result AuthorityState × MemAuthorityStore :=
  if config.tenant ≠ m.tenant then (.error unavailable, m)
  else
    match AuthorityState.enrolled config with
    | .error e => (.error e, m)
    | .ok initial =>
        match m.records.state with
        | some current =>
            if current.config = initial.config then (.ok current, m)
            else (.error (.forbidden "authority enrollment cannot be replaced"), m)
        | none => (.ok initial, { m with records := { m.records with state := some initial } })

/-- One install: the state and the receipt of its nonce change together. -/
def apply (m : MemAuthorityStore) (a : AuthorityAdmission) (signed : String)
    (artifact : GovernanceArtifact) : Result AuthorityReceipt × MemAuthorityStore :=
  match untrustedNonce signed with
  | .error e => (.error e, m)
  | .ok nonce =>
      match m.records.state with
      | none => (.error unavailable, m)
      | some s =>
          match transition s a signed artifact (m.records.receipts.get? nonce) with
          | .error e => (.error e, m)
          | .ok (next, receipt) =>
              (.ok receipt, { m with records := {
                state := some next
                receipts := if (m.records.receipts.get? nonce).isSome then m.records.receipts
                  else m.records.receipts.insert nonce receipt } })

end
end MemAuthorityStore

section Spec
variable [Base64] [SerdeJson]

/-- What a part reads as does not depend on the error it would be refused with. -/
theorem readPart_ok {α : Type} {read : Json → Option α} {failed failed' : KernelError}
    {part : String} {x : α} (h : readPart read failed part = .ok x) :
    readPart read failed' part = .ok x := by
  unfold readPart at h ⊢
  cases hd : decode part with
  | error e => simp [hd, bind, Except.bind] at h
  | ok bytes =>
    cases hc : canonicalRecord bytes with
    | error e => simp [hd, hc, bind, Except.bind] at h
    | ok value =>
      cases hr : read value with
      | none => simp [hd, hc, hr, bind, Except.bind] at h
      | some y => simpa [hd, hc, hr, bind, Except.bind] using h

omit [SerdeJson] in
theorem decode_ok {s : String} {bytes : Bytes} (h : decode s = .ok bytes) :
    Base64.encode bytes = s := by
  obtain ⟨bytes', -, h⟩ := bind_eq_ok.mp h
  split at h
  · cases h
  · rename_i hsame
    cases h
    exact not_not.mp hsame

variable [Ed25519] [Sha256]

omit [SerdeJson] [Sha256] in
theorem validateKeys_nonempty {keys : Keys} (h : validateKeys keys = .ok ()) :
    keys.entries ≠ [] := by
  intro hempty
  simp [validateKeys, hempty] at h

/-- What an install does. -/
structure Installed (s : AuthorityState) (artifact : GovernanceArtifact)
    (attestation digest : String) (p : AuthorityAttestation) (next : AuthorityState)
    (receipt : AuthorityReceipt) : Prop where
  config : next.config = s.config
  head : next.head = s.head + 1 ∧ receipt.head = s.head + 1
  revision : receipt.priorRevision = s.revision ∧ receipt.revision = next.revision
  nonce : receipt.nonce = p.nonce
  digests : receipt.attestationDigest = attestation ∧ receipt.artifactDigest = digest
  retired : next.bootstrapRetired = (s.bootstrapRetired || artifact.retireBootstrap)
  retires : s.bootstrapRetired = true → artifact.retireBootstrap = true
  governing : next.bootstrapRetired = true → next.governingKeys = artifact.successorKeys
  successors : ∀ k ∈ artifact.successorKeys.values, ∀ old ∈ s.config.bootstrapKeys.values,
    old.publicKey ≠ k.publicKey

omit [Base64] [Ed25519] in
theorem install_ok {s next : AuthorityState} {a : AuthorityAdmission}
    {p : AuthorityAttestation} {artifact : GovernanceArtifact}
    {kid attestation digest : String} {receipt : AuthorityReceipt}
    (h : install s a p artifact kid attestation digest = .ok (next, receipt)) :
    Installed s artifact attestation digest p next receipt := by
  unfold install at h
  split at h
  · cases h
  split at h
  · cases h
  split at h
  · cases h
  rename_i hretires
  split at h
  · cases h
  rename_i hsuccessors
  obtain ⟨head, hhead, h⟩ := bind_eq_ok.mp h
  obtain ⟨revision, -, h⟩ := bind_eq_ok.mp h
  have hsucc : head = s.head + 1 := by
    unfold orInvalid at hhead
    split at hhead
    · rename_i n hn
      cases hhead
      rw [Option.filter_eq_some_iff] at hn
      have hadd := hn.1
      unfold checkedAdd at hadd
      split_ifs at hadd
      exact (Option.some.inj hadd).symm
    · cases hhead
  cases h
  refine ⟨rfl, ⟨hsucc, hsucc⟩, ⟨rfl, rfl⟩, rfl, ⟨rfl, rfl⟩, rfl, ?_, ?_, ?_⟩
  · intro hretired
    by_contra hnot
    exact hretires ⟨hretired, hnot⟩
  · intro hretired
    exact if_pos hretired
  · intro k hk old hold hsame
    apply hsuccessors
    rw [List.any_eq_true]
    exact ⟨k, hk, List.any_eq_true.mpr ⟨old, hold, by simpa using hsame⟩⟩

/-- What a transition returns: the receipt of the same request, or an install. -/
theorem transition_ok {s next : AuthorityState} {a : AuthorityAdmission} {signed : String}
    {artifact : GovernanceArtifact} {prior : Option AuthorityReceipt}
    {receipt : AuthorityReceipt} (h : transition s a signed artifact prior = .ok (next, receipt)) :
    ∃ attestation digest p, attestationDigest signed = .ok attestation ∧
      artifact.digest = .ok digest ∧
      (∀ nonce, untrustedNonce signed = .ok nonce → p.nonce = nonce) ∧
      ((∃ r, prior = some r ∧ r.attestationDigest = attestation ∧ r.artifactDigest = digest ∧
          next = s ∧ receipt = r) ∨
        prior = none ∧ Installed s artifact attestation digest p next receipt) := by
  obtain ⟨⟨⟩, -, h⟩ := bind_eq_ok.mp h
  split at h
  · cases h
  rename_i hbounds
  split at h
  · rename_i header payload signature hparts
    obtain ⟨head, -, h⟩ := bind_eq_ok.mp h
    split at h
    · cases h
    obtain ⟨p, hp, h⟩ := bind_eq_ok.mp h
    obtain ⟨attestation, hattestation, h⟩ := bind_eq_ok.mp h
    obtain ⟨digest, hdigest, h⟩ := bind_eq_ok.mp h
    refine ⟨attestation, digest, p, hattestation, hdigest, ?_, ?_⟩
    · intro nonce hnonce
      unfold untrustedNonce at hnonce
      rw [hparts] at hnonce
      rw [not_or] at hbounds
      simp only [if_neg hbounds.2] at hnonce
      obtain ⟨p', hp', hnonce⟩ := bind_eq_ok.mp hnonce
      obtain rfl : p = p' := Except.ok.inj (hp.symm.trans (readPart_ok hp'))
      split at hnonce
      · exact Except.ok.inj hnonce
      · cases hnonce
    · cases prior with
      | some r =>
        refine .inl ⟨r, rfl, ?_⟩
        simp only [replay] at h
        split_ifs at h with hwho hwhat
        cases h
        rw [not_or, not_not, not_not] at hwhat
        exact ⟨hwhat.1, hwhat.2, rfl, rfl⟩
      | none =>
        obtain ⟨key, -, h⟩ := bind_eq_ok.mp h
        split at h
        · exact .inr ⟨rfl, install_ok h⟩
        · cases h
  · cases h

/-- A retiring artifact with a digest names valid successors. -/
theorem digest_successors {artifact : GovernanceArtifact} {digest : String}
    (h : artifact.digest = .ok digest) (hretires : artifact.retireBootstrap = true) :
    validateKeys artifact.successorKeys = .ok () := by
  unfold GovernanceArtifact.digest at h
  split at h
  · cases h
  obtain ⟨⟨⟩, hkeys, -⟩ := bind_eq_ok.mp h
  exact hkeys

end Spec

section Encoding

theorem texts_injective : Function.Injective TextSet.texts := by
  intro a b h
  apply SortedMap.entries_injective
  have hunit (l : List (String × Unit)) : l = (l.map Prod.fst).map fun t => (t, ()) := by
    induction l with
    | nil => rfl
    | cons e rest ih => simpa using ih
  rw [hunit a.entries, hunit b.entries]
  exact congrArg (List.map fun t => (t, ())) h

theorem AuthorityKey.toJson_injective : Function.Injective AuthorityKey.toJson := by
  intro a b h
  have hvalues := Json.object_zip_injective
    ["public_key", "issuer", "presenter", "subjects"]
    [.str a.publicKey, .str a.issuer, .str a.presenter, .arr (a.subjects.texts.map .str)]
    [.str b.publicKey, .str b.issuer, .str b.presenter, .arr (b.subjects.texts.map .str)]
    (by simp) rfl rfl h
  simp only [List.cons.injEq, Json.str.injEq, Json.arr.injEq, and_true] at hvalues
  obtain ⟨hkey, hissuer, hpresenter, hsubjects⟩ := hvalues
  have htexts := List.map_injective_iff.mpr (fun _ _ => Json.str.inj) hsubjects
  cases a
  cases b
  cases hkey
  cases hissuer
  cases hpresenter
  cases texts_injective htexts
  rfl

theorem Keys.toJson_injective : Function.Injective Keys.toJson := by
  intro a b h
  apply SortedMap.entries_injective
  apply List.map_injective_iff.mpr _ (Json.obj.inj h)
  intro e e' he
  rw [Prod.mk.injEq] at he
  exact Prod.ext he.1 (AuthorityKey.toJson_injective he.2)

theorem GovernanceArtifact.toJson_injective : Function.Injective GovernanceArtifact.toJson := by
  intro a b h
  have hvalues := Json.object_zip_injective
    ["schema_version", "bindings", "retire_bootstrap", "successor_keys"]
    [.int a.schemaVersion, .obj a.bindings.entries, .bool a.retireBootstrap,
      a.successorKeys.toJson]
    [.int b.schemaVersion, .obj b.bindings.entries, .bool b.retireBootstrap,
      b.successorKeys.toJson] (by simp) rfl rfl h
  simp only [List.cons.injEq, Json.int.injEq, Json.obj.injEq, Json.bool.injEq, and_true,
    Nat.cast_inj] at hvalues
  obtain ⟨hversion, hbindings, hretire, hkeys⟩ := hvalues
  cases a
  cases b
  cases hversion
  cases SortedMap.entries_injective hbindings
  cases hretire
  cases Keys.toJson_injective hkeys
  rfl

variable [Base64] [Ed25519] [SerdeJson] [Sha256] [SerdeRoundTrip]

omit [Base64] [Ed25519] in
/-- Two texts with one digest are one text. -/
theorem attestationDigest_injective (hinj : Function.Injective Sha256.digest)
    {signed signed' d : String} (h : attestationDigest signed = .ok d)
    (h' : attestationDigest signed' = .ok d) : signed = signed' := by
  have hobject := recordDigest_injective hinj h h'
  have hvalues := Json.object_zip_injective ["jws"] [.str signed] [.str signed'] (by simp)
    rfl rfl hobject
  simpa using hvalues

theorem digest_injective (hinj : Function.Injective Sha256.digest)
    {artifact artifact' : GovernanceArtifact} {d : String} (h : artifact.digest = .ok d)
    (h' : artifact'.digest = .ok d) : artifact = artifact' := by
  have hrecord {x : GovernanceArtifact} (hx : x.digest = .ok d) :
      recordDigest "munarium:governance-artifact:v1" x.toJson = .ok d := by
    unfold GovernanceArtifact.digest at hx
    split at hx
    · cases hx
    split at hx
    · obtain ⟨⟨⟩, -, hx⟩ := bind_eq_ok.mp hx
      exact hx
    · split at hx
      · obtain ⟨⟨⟩, -, hx⟩ := bind_eq_ok.mp hx
        exact hx
      · obtain ⟨⟨⟩, hno, -⟩ := bind_eq_ok.mp hx
        cases hno
  exact GovernanceArtifact.toJson_injective
    (recordDigest_injective hinj (hrecord h) (hrecord h'))

end Encoding
/-- No signer that an operator enrolled is among the governing keys, and those are valid. -/
structure GovernedBy (s : AuthorityState) [Base64] [Ed25519] : Prop where
  valid : validateKeys s.governingKeys = .ok ()
  distinct : ∀ k ∈ s.governingKeys.values, ∀ old ∈ s.config.bootstrapKeys.values,
    old.publicKey ≠ k.publicKey

/-- Receipts in the order of their heads, each naming the revision before it. -/
abbrev ReceiptChain (revision : String) : List AuthorityReceipt → Prop :=
  NumberedChain (fun r => some r.head) (fun r => r.priorRevision = revision)
    fun r next => next.priorRevision = r.revision

/-- What every run keeps, from an enrolled state on. -/
structure Governed [Base64] [Ed25519] (initial : AuthorityState) (m : MemAuthorityStore)
    (s : AuthorityState) : Prop where
  state : m.records.state = some s
  config : s.config = initial.config
  keys : s.bootstrapRetired = true → GovernedBy s
  receipts : ∃ chain, chain.Perm m.records.receipts.values ∧
    ReceiptChain initial.revision chain ∧ s.head = chain.length ∧
    s.revision = (chain.getLast?.map (·.revision)).getD initial.revision

inductive Call where
  | enroll (config : AuthorityConfig)
  | apply (a : AuthorityAdmission) (signed : String) (artifact : GovernanceArtifact)

namespace MemAuthorityStore
variable [Base64] [Ed25519] [SerdeJson] [Sha256]

def step (m : MemAuthorityStore) : Call → MemAuthorityStore
  | .enroll config => (m.enroll config).2
  | .apply a signed artifact => (m.apply a signed artifact).2

def run (m : MemAuthorityStore) (calls : List Call) : MemAuthorityStore := calls.foldl step m

theorem run_snoc (m : MemAuthorityStore) (calls : List Call) (c : Call) :
    m.run (calls ++ [c]) = (m.run calls).step c := by simp [run]

/-- An enrolled store is not enrolled again. -/
theorem enroll_enrolled {m : MemAuthorityStore} {s : AuthorityState}
    (hs : m.records.state = some s) (config : AuthorityConfig) : (m.enroll config).2 = m := by
  unfold enroll
  split
  · rfl
  split
  · rfl
  rw [hs]
  simp only
  split <;> rfl

/-- An install of an enrolled store is refused, replayed or new. -/
theorem apply_cases {m : MemAuthorityStore} {s : AuthorityState} (hs : m.records.state = some s)
    (a : AuthorityAdmission) (signed : String) (artifact : GovernanceArtifact) :
    (∃ e, m.apply a signed artifact = (.error e, m)) ∨
    ∃ nonce receipt attestation digest, untrustedNonce signed = .ok nonce ∧
      attestationDigest signed = .ok attestation ∧ artifact.digest = .ok digest ∧
      receipt.attestationDigest = attestation ∧ receipt.artifactDigest = digest ∧
      (m.records.receipts.get? nonce = some receipt ∧
          m.apply a signed artifact = (.ok receipt, m) ∨
        m.records.receipts.get? nonce = none ∧ ∃ next p, p.nonce = nonce ∧
          Installed s artifact attestation digest p next receipt ∧
          m.apply a signed artifact = (.ok receipt, { m with records := {
            state := some next, receipts := m.records.receipts.insert nonce receipt } })) := by
  unfold apply
  cases hnonce : untrustedNonce signed with
  | error e => exact .inl ⟨e, rfl⟩
  | ok nonce =>
    simp only [hs]
    cases ht : transition s a signed artifact (m.records.receipts.get? nonce) with
    | error e => exact .inl ⟨e, rfl⟩
    | ok out =>
      obtain ⟨next, receipt⟩ := out
      obtain ⟨attestation, digest, p, hattestation, hdigest, hp, hcases⟩ := transition_ok ht
      refine .inr ⟨nonce, receipt, attestation, digest, rfl, hattestation, hdigest, ?_⟩
      rcases hcases with ⟨r, hr, ha, hd, rfl, rfl⟩ | ⟨hnone, hinstalled⟩
      · refine ⟨ha, hd, .inl ⟨hr, ?_⟩⟩
        rw [hr, Option.isSome_some]
        simp only [if_true, ← hs]
      · refine ⟨hinstalled.digests.1, hinstalled.digests.2, .inr ⟨hnone, next, p, hp nonce hnonce,
          hinstalled, ?_⟩⟩
        simp [hnone]

end MemAuthorityStore

section
variable [Base64] [Ed25519] [SerdeJson] [Sha256]

/-- A new install keeps the store governed. -/
theorem Governed.install {initial s next : AuthorityState} {m : MemAuthorityStore}
    (h : Governed initial m s) {artifact : GovernanceArtifact} {attestation digest nonce : String}
    {p : AuthorityAttestation} {receipt : AuthorityReceipt}
    (hnew : m.records.receipts.get? nonce = none) (hdigest : artifact.digest = .ok digest)
    (hi : Installed s artifact attestation digest p next receipt) :
    Governed initial { m with records := {
      state := some next, receipts := m.records.receipts.insert nonce receipt } } next := by
  refine ⟨rfl, hi.config.trans h.config, ?_, ?_⟩
  · intro hretired
    have hretires : artifact.retireBootstrap = true := by
      have hor := hi.retired
      rw [hretired, eq_comm, Bool.or_eq_true] at hor
      exact hor.elim hi.retires id
    have hgoverning := hi.governing hretired
    refine ⟨?_, ?_⟩
    · rw [hgoverning]
      exact digest_successors hdigest hretires
    · rw [hgoverning, hi.config]
      exact hi.successors
  · obtain ⟨chain, hperm, hchain, hhead, hrevision⟩ := h.receipts
    refine ⟨chain ++ [receipt], ?_, ?_, ?_, ?_⟩
    · exact (List.perm_append_singleton receipt chain).trans
        ((hperm.cons receipt).trans (SortedMap.values_insert_perm receipt hnew).symm)
    · apply hchain.append
      · rw [hi.head.2, hhead]
      · rintro rfl
        rw [hi.revision.1, hrevision]
        rfl
      · intro last hlast
        rw [hi.revision.1, hrevision, Option.mem_def.mp hlast]
        rfl
    · rw [hi.head.1, hhead, List.length_append, List.length_singleton]
    · rw [List.getLast?_concat, Option.map_some, Option.getD_some, hi.revision.2]

/-- Any call keeps the store governed; retirement and receipts stay. -/
theorem Governed.step {initial s : AuthorityState} {m : MemAuthorityStore}
    (h : Governed initial m s) (c : Call) :
    ∃ s', Governed initial (m.step c) s' ∧
      (s.bootstrapRetired = true → s'.bootstrapRetired = true) ∧
      ∀ nonce receipt, m.records.receipts.get? nonce = some receipt →
        (m.step c).records.receipts.get? nonce = some receipt := by
  have hstay {m' : MemAuthorityStore} (hm : m' = m) : ∃ s', Governed initial m' s' ∧
      (s.bootstrapRetired = true → s'.bootstrapRetired = true) ∧
      ∀ nonce receipt, m.records.receipts.get? nonce = some receipt →
        m'.records.receipts.get? nonce = some receipt := by
    subst hm
    exact ⟨s, h, id, fun _ _ => id⟩
  cases c with
  | enroll config => exact hstay (MemAuthorityStore.enroll_enrolled h.state config)
  | apply a signed artifact =>
    rcases MemAuthorityStore.apply_cases h.state a signed artifact with ⟨e, he⟩ |
      ⟨nonce, receipt, attestation, digest, -, -, hdigest, -, -,
        ⟨-, heq⟩ | ⟨hnew, next, p, -, hi, heq⟩⟩
    · exact hstay (congrArg Prod.snd he)
    · exact hstay (congrArg Prod.snd heq)
    · have hm : m.step (.apply a signed artifact) = { m with records := {
          state := some next, receipts := m.records.receipts.insert nonce receipt } } :=
        congrArg Prod.snd heq
      rw [hm]
      refine ⟨next, h.install hnew hdigest hi, ?_, ?_⟩
      · intro hretired
        rw [hi.retired, hretired, Bool.true_or]
      · intro nonce' receipt' hold
        have hne : nonce' ≠ nonce := by
          rintro rfl
          rw [hnew] at hold
          cases hold
        rw [SortedMap.get?_insert_of_ne hne]
        exact hold

theorem Governed.run {initial s : AuthorityState} {m : MemAuthorityStore}
    (h : Governed initial m s) (calls : List Call) :
    ∃ s', Governed initial (m.run calls) s' ∧
      (s.bootstrapRetired = true → s'.bootstrapRetired = true) ∧
      ∀ nonce receipt, m.records.receipts.get? nonce = some receipt →
        (m.run calls).records.receipts.get? nonce = some receipt := by
  induction calls using List.reverseRecOn with
  | nil => exact ⟨s, h, id, fun _ _ => id⟩
  | append_singleton calls c ih =>
    obtain ⟨s', hs', hretired, hreceipts⟩ := ih
    obtain ⟨s'', hs'', hretired', hreceipts'⟩ := hs'.step c
    rw [MemAuthorityStore.run_snoc]
    exact ⟨s'', hs'', fun hr => hretired' (hretired hr),
      fun nonce receipt hn => hreceipts' nonce receipt (hreceipts nonce receipt hn)⟩

/-- The call of a run that a receipt was given to, and what it was given for. -/
structure GivenTo (m₀ : MemAuthorityStore) (calls : List Call) (nonce : String)
    (receipt : AuthorityReceipt) (signed : String) (artifact : GovernanceArtifact) : Prop where
  call : ∃ before a after, calls = before ++ .apply a signed artifact :: after ∧
    (m₀.run before).records.receipts.get? nonce = none ∧
    ((m₀.run before).apply a signed artifact).1 = .ok receipt
  nonce : untrustedNonce signed = .ok nonce
  attestation : attestationDigest signed = .ok receipt.attestationDigest
  digest : artifact.digest = .ok receipt.artifactDigest

/-- Every stored receipt was given to a call of the run. -/
theorem Governed.given {initial s₀ : AuthorityState} {m₀ : MemAuthorityStore}
    (h : Governed initial m₀ s₀) (hempty : m₀.records.receipts = .empty) (calls : List Call)
    {nonce : String} {receipt : AuthorityReceipt}
    (hstored : (m₀.run calls).records.receipts.get? nonce = some receipt) :
    ∃ signed artifact, GivenTo m₀ calls nonce receipt signed artifact := by
  induction calls using List.reverseRecOn with
  | nil =>
    change m₀.records.receipts.get? nonce = some receipt at hstored
    rw [hempty] at hstored
    cases hstored
  | append_singleton calls c ih =>
    obtain ⟨s, hs, -, -⟩ := h.run calls
    rw [MemAuthorityStore.run_snoc] at hstored
    have hearlier (hold : (m₀.run calls).records.receipts.get? nonce = some receipt) :
        ∃ signed artifact, GivenTo m₀ (calls ++ [c]) nonce receipt signed artifact := by
      obtain ⟨signed, artifact, hgiven⟩ := ih hold
      obtain ⟨before, a, after, rfl, hnew, hreply⟩ := hgiven.call
      exact ⟨signed, artifact, ⟨before, a, after ++ [c], by simp, hnew, hreply⟩, hgiven.nonce,
        hgiven.attestation, hgiven.digest⟩
    cases c with
    | enroll config =>
      rw [MemAuthorityStore.step, MemAuthorityStore.enroll_enrolled hs.state] at hstored
      exact hearlier hstored
    | apply a signed artifact =>
      rw [MemAuthorityStore.step] at hstored
      rcases MemAuthorityStore.apply_cases hs.state a signed artifact with ⟨e, he⟩ |
        ⟨nonce', receipt', attestation, digest, hnonce, hattestation, hdigest, ha, hd,
          ⟨-, heq⟩ | ⟨hnew, next, p, -, hi, heq⟩⟩
      · rw [he] at hstored
        exact hearlier hstored
      · rw [heq] at hstored
        exact hearlier hstored
      · rw [heq, SortedMap.get?_insert] at hstored
        split_ifs at hstored with hsame
        · subst hsame
          obtain rfl := Option.some.inj hstored
          refine ⟨signed, artifact, ⟨calls, a, [], rfl, hnew, congrArg Prod.fst heq⟩, hnonce, ?_,
            ?_⟩
          · rw [hattestation, ha]
          · rw [hdigest, hd]
        · exact hearlier hstored

/-- A nonce that has a receipt gets that receipt again for the same request, or nothing. -/
theorem Governed.used_nonce [SerdeRoundTrip] (hinj : Function.Injective Sha256.digest)
    {initial s : AuthorityState} {m m₀ : MemAuthorityStore} {calls : List Call}
    (h : Governed initial m s) {nonce signed signed' : String} {receipt : AuthorityReceipt}
    {artifact artifact' : GovernanceArtifact}
    (hstored : m.records.receipts.get? nonce = some receipt)
    (hgiven : GivenTo m₀ calls nonce receipt signed artifact) (a : AuthorityAdmission)
    (hnonce : untrustedNonce signed' = .ok nonce) :
    (m.apply a signed' artifact').2 = m ∧ ∀ r, (m.apply a signed' artifact').1 = .ok r →
      r = receipt ∧ signed' = signed ∧ artifact' = artifact := by
  rcases MemAuthorityStore.apply_cases h.state a signed' artifact' with ⟨e, he⟩ |
    ⟨nonce', receipt', attestation, digest, hnonce', hattestation, hdigest, ha, hd, hcases⟩
  · rw [he]
    refine ⟨rfl, ?_⟩
    intro r hr
    cases hr
  · obtain rfl : nonce = nonce' := Except.ok.inj (hnonce.symm.trans hnonce')
    rcases hcases with ⟨hfound, heq⟩ | ⟨hnew, -⟩
    · rw [heq]
      refine ⟨rfl, ?_⟩
      intro r hr
      obtain rfl := Except.ok.inj hr
      obtain rfl := Option.some.inj (hfound.symm.trans hstored)
      subst ha
      subst hd
      exact ⟨rfl, attestationDigest_injective hinj hattestation hgiven.attestation,
        digest_injective hinj hdigest hgiven.digest⟩
    · rw [hstored] at hnew
      cases hnew

/-- An accepted install's receipt is stored, whatever else is called. -/
theorem Governed.stored {initial s : AuthorityState} {m : MemAuthorityStore}
    (h : Governed initial m s) {a : AuthorityAdmission} {signed : String}
    {artifact : GovernanceArtifact} {receipt : AuthorityReceipt}
    (hreply : (m.apply a signed artifact).1 = .ok receipt) (after : List Call) :
    ∃ nonce, untrustedNonce signed = .ok nonce ∧
      (m.run (.apply a signed artifact :: after)).records.receipts.get? nonce = some receipt := by
  obtain ⟨s', hs', -, -⟩ := h.step (.apply a signed artifact)
  obtain ⟨-, -, -, hkept⟩ := hs'.run after
  rcases MemAuthorityStore.apply_cases h.state a signed artifact with ⟨e, he⟩ |
    ⟨nonce, receipt', _, _, hnonce, -, -, -, -, ⟨hfound, heq⟩ | ⟨-, next, p, -, -, heq⟩⟩
  · rw [he] at hreply
    cases hreply
  · rw [heq] at hreply
    cases hreply
    refine ⟨nonce, hnonce, hkept nonce receipt ?_⟩
    rw [MemAuthorityStore.step, heq]
    exact hfound
  · rw [heq] at hreply
    cases hreply
    refine ⟨nonce, hnonce, hkept nonce receipt ?_⟩
    rw [MemAuthorityStore.step, heq]
    exact SortedMap.get?_insert_self _ _ _

theorem governed_enrolled {tenant : String} {config : AuthorityConfig} {initial : AuthorityState}
    {m₀ : MemAuthorityStore}
    (h : ({ tenant := tenant } : MemAuthorityStore).enroll config = (.ok initial, m₀)) :
    Governed initial m₀ initial ∧ m₀.records.receipts = .empty ∧
      initial.config = config := by
  unfold MemAuthorityStore.enroll at h
  split at h
  · cases h
  split at h
  · cases h
  rename_i initial' henrolled
  cases h
  obtain ⟨⟨⟩, -, h⟩ := bind_eq_ok.mp henrolled
  obtain ⟨revision, -, h⟩ := bind_eq_ok.mp h
  cases h
  refine ⟨⟨rfl, rfl, ?_, [], .refl _, numberedChain_nil, rfl, rfl⟩, rfl, rfl⟩
  intro hretired
  cases hretired

end

section

/-- Each character stands for one byte. -/
abbrev latinBase64 : Base64 where
  encode bytes := String.ofList (bytes.map fun b => Char.ofNat b.toNat)
  decode s := some (s.toList.map fun c => UInt8.ofNat c.toNat)

abbrev signedByS : Ed25519 where
  isKey _ := true
  isWeak _ := false
  verifyStrict _ _ signature := signature == [115]

abbrev injectiveSha256 : Sha256 := tabledSha256 []

attribute [local instance] latinBase64 signedByS injectiveSha256

def enrolledKey : AuthorityKey where
  publicKey := "kkkkkkkkkkkkkkkkkkkkkkkkkkkkkkkk"
  issuer := "issuer"
  presenter := "svc"
  subjects := SortedMap.empty.insert "alice" ()

def successorKey : AuthorityKey :=
  { enrolledKey with publicKey := "nnnnnnnnnnnnnnnnnnnnnnnnnnnnnnnn" }

def sampleConfig : AuthorityConfig where
  deployment := "dep"
  tenant := "alpha"
  audience := "gov"
  epoch := 1
  bootstrapKeys := SortedMap.empty.insert "boot" enrolledKey

def retiringArtifact : GovernanceArtifact where
  schemaVersion := 1
  bindings := .empty
  retireBootstrap := true
  successorKeys := SortedMap.empty.insert "next" successorKey

def domainDigest (domain text : String) : String :=
  "sha256:" ++ sha256Hex (utf8 domain ++ [0] ++ utf8 text)

def sampleHeader : Json := .object
  [("alg", .str "Ed25519"), ("kid", .str "boot"), ("typ", .str "munarium-authority+jws")]

def samplePayload : Json := .object
  [("schema_version", .int 1), ("deployment", .str "dep"), ("tenant", .str "alpha"),
    ("audience", .str "gov"), ("issuer", .str "issuer"), ("subject", .str "alice"),
    ("subject_kind", .str "human"), ("action", .str "install-governance"),
    ("artifact_digest", .str (domainDigest "munarium:governance-artifact:v1" "a")),
    ("expected_revision", .str (domainDigest "munarium:authority-enrollment:v1" "c")),
    ("expected_head", .int 0), ("epoch", .int 1), ("nonce", .str "n-1"), ("iat", .int 100),
    ("nbf", .int 100), ("exp", .int 200)]

def sampleRevision : Json := .object
  [("prior", .str (domainDigest "munarium:authority-enrollment:v1" "c")), ("head", .int 1),
    ("attestation", .str (domainDigest "munarium:authority-attestation:v1" "j")),
    ("artifact", .str (domainDigest "munarium:governance-artifact:v1" "a"))]

abbrev authorityTexts : List (Json × String) :=
  [(sampleConfig.toJson, "c"), (retiringArtifact.toJson, "a"), (sampleHeader, "h"),
    (samplePayload, "p"), (.object [("jws", .str "h.p.s")], "j"), (sampleRevision, "r")]

abbrev authoritySerde : SerdeJson := tabledSerde authorityTexts

attribute [local instance] authoritySerde

theorem authorityRoundTrip : SerdeRoundTrip where
  read_back _ _ h _ := tabledSerde_reads (by decide) (by decide) h

def retirement : Call := .apply
  { tenant := "alpha", peerService := "svc", now := 150,
    fence := { deployment := "dep", tenant := "alpha", epoch := 1, minimumHead := 0,
               bootstrapRetired := false } } "h.p.s" retiringArtifact

def enrolledStore : MemAuthorityStore :=
  (({ tenant := "alpha" } : MemAuthorityStore).enroll sampleConfig).2

end
end PlatformAuthority
end Munarium

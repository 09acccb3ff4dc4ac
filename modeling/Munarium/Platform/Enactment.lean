import Munarium.Platform.Legible

/-! What an attempt to apply an activation has read when it goes through, and the rows it
stores: all of the policy's scope. -/
namespace Munarium

namespace PlatformAction
open PlatformRecord (MAX canonicalRecord canonicalRecord_ok)

section Scopes

theorem mem_of_mem_object {e : String × Json} (fields m : List (String × Json))
    (h : e ∈ fields.foldl (fun m f => SortedMap.insertEntry f.1 f.2 m) m) : e ∈ fields ∨ e ∈ m := by
  induction fields generalizing m with
  | nil => exact .inr h
  | cons f rest ih =>
    rcases ih _ h with hrest | hm
    · exact .inl (List.mem_cons_of_mem _ hrest)
    · rcases SortedMap.mem_insertEntry hm with rfl | hm
      · exact .inl List.mem_cons_self
      · exact .inr hm

theorem fieldsWithin_of_forall {scope : Json} {fields : List (String × Json)}
    (h : ∀ f ∈ fields, scopesWithin scope f.2 = true) : fieldsWithin scope fields = true := by
  induction fields with
  | nil => rfl
  | cons f rest ih =>
    have hf := h f List.mem_cons_self
    have hrest := ih fun g hg => h g (List.mem_cons_of_mem _ hg)
    simp [fieldsWithin, hf, hrest]

/-- An object stays in a scope when its fields do and no other scope is named. -/
theorem scopesWithin_object {scope : Json} {fields : List (String × Json)}
    (hvalues : ∀ f ∈ fields, scopesWithin scope f.2 = true)
    (hscope : ∀ x, ("scope", x) ∈ fields → x = scope) :
    scopesWithin scope (Json.object fields) = true := by
  have hmem : ∀ e ∈ fields.foldl (fun m f => SortedMap.insertEntry f.1 f.2 m) [], e ∈ fields := by
    intro e he
    rcases mem_of_mem_object fields [] he with he | he
    · exact he
    · cases he
  unfold Json.object
  simp only [scopesWithin, Bool.and_eq_true]
  refine ⟨?_, fieldsWithin_of_forall fun f hf => hvalues f (hmem f hf)⟩
  cases hlookup : (fields.foldl (fun m f => SortedMap.insertEntry f.1 f.2 m) []).lookup "scope" with
  | none => rfl
  | some x =>
    obtain ⟨before, after, heq, -⟩ := List.lookup_eq_some_iff.mp hlookup
    have hx : ("scope", x) ∈ fields := hmem _ (heq ▸ by simp)
    simp [hscope x hx]

@[simp] theorem scopesWithin_str (scope : Json) (s : String) :
    scopesWithin scope (.str s) = true := rfl

@[simp] theorem scopesWithin_int (scope : Json) (n : ℤ) :
    scopesWithin scope (.int n) = true := rfl

@[simp] theorem scopesWithin_arr_nil (scope : Json) : scopesWithin scope (.arr []) = true := rfl

theorem scopesWithin_scope (s : Scope) : scopesWithin s.value s.value = true := by
  apply scopesWithin_object
  · simp only [List.forall_mem_cons, scopesWithin_str, List.not_mem_nil, false_imp_iff,
      implies_true, and_true]
  · simp

theorem scopesWithin_receiptOf {scope t : Json} (h : scopesWithin scope t = true)
    (participant phase digest : String) :
    scopesWithin scope (receiptOf t participant phase digest) = true := by
  have hindex (k : String) : scopesWithin scope t[k] = true := scopesWithin_index h k
  apply scopesWithin_object
  · simp only [List.forall_mem_cons, scopesWithin_str, scopesWithin_int, hindex, List.not_mem_nil,
      false_imp_iff, implies_true, and_true]
  · simp

theorem scopesWithin_streamRef (s : Scope) (id : String) :
    scopesWithin s.value (streamRef s.value id) = true := by
  apply scopesWithin_object
  · simp only [List.forall_mem_cons, scopesWithin_str, scopesWithin_scope, List.not_mem_nil,
      false_imp_iff, implies_true, and_true]
  · simp

theorem scopesWithin_payload {scope r : Json} (h : scopesWithin scope r = true) :
    scopesWithin scope (ActionLedger.activationPayload r) = true := by
  apply scopesWithin_object
  · simp only [List.forall_mem_cons, scopesWithin_str, h, List.not_mem_nil, false_imp_iff,
      implies_true, and_true]
  · simp

/-- The audit event is of the policy's scope, and names it. -/
theorem activationEvent_scope {l : ActionLedger} {e : ActivationEnrollment}
    {stream : StreamRegistration} {r predecessor : Json} {digest payloadDigest : String}
    {now prior : ℕ} (hr : scopesWithin l.policy.scope.value r = true)
    (hpredecessor : scopesWithin l.policy.scope.value predecessor = true) :
    scopesWithin l.policy.scope.value
        (l.activationEvent e stream r digest payloadDigest now prior predecessor) = true ∧
      (l.activationEvent e stream r digest payloadDigest now prior predecessor).get "scope" =
        some l.policy.scope.value := by
  constructor
  · apply scopesWithin_object
    · simp only [ActionLedger.activationFields, List.forall_mem_cons, scopesWithin_str,
        scopesWithin_int, scopesWithin_arr_nil, scopesWithin_scope, scopesWithin_streamRef,
        scopesWithin_payload hr, hpredecessor, List.not_mem_nil, false_imp_iff, implies_true,
        and_true]
    · simp [ActionLedger.activationFields]
  · apply Json.get_object_of_mem
    · simp only [ActionLedger.activationFields, List.map_cons, List.map_nil]
      decide
    · simp [ActionLedger.activationFields]

theorem activationEvent_generation {l : ActionLedger} {e : ActivationEnrollment}
    {stream : StreamRegistration} {r predecessor : Json} {digest payloadDigest : String}
    {now prior : ℕ} :
    (l.activationEvent e stream r digest payloadDigest now prior predecessor)[
      "source_generation"] = .int stream.generation := by
  apply Json.index_object
  · simp only [ActionLedger.activationFields, List.map_cons, List.map_nil]
    decide
  · simp [ActionLedger.activationFields]

end Scopes

section
variable [SerdeJson]

def isApplied (c : Claim) : Bool := c.subject == APPLIED

/-- The canonical record a row holds. -/
def storedValue (c : Claim) : Option Json := (canonicalRecord (utf8 c.value)).toOption

theorem storedValue_eq_some {c : Claim} {v : Json} :
    storedValue c = some v ↔ canonicalRecord (utf8 c.value) = .ok v := by
  unfold storedValue
  cases canonicalRecord (utf8 c.value) <;> simp [Except.toOption]

/-- The newest of the applied rows, if its number is above all the others'. -/
theorem matchApplied_some {t r : Json} {current : Option (ℕ × Json)} {rows : List Claim}
    {found : Option (ℕ × Json)} (hascending : rows.Pairwise fun a b => a.seq < b.seq)
    (hcurrent : ∀ c ∈ rows, current.all (·.1 < c.seq) = true)
    (h : ActionLedger.matchApplied t r current rows = .ok (some found)) :
    (∀ c ∈ rows, ∃ old, storedValue c = some old ∧
      old["receipt"]["transition"] ≠ t["transition"]) ∧
    (rows = [] → found = current) ∧
    ∀ c ∈ rows.getLast?, ∃ old, storedValue c = some old ∧ found = some (c.seq, old) := by
  induction rows generalizing current with
  | nil =>
    cases h
    exact ⟨by simp, fun _ => rfl, by simp⟩
  | cons c rest ih =>
    obtain ⟨hfirst, hrest⟩ := List.pairwise_cons.mp hascending
    obtain ⟨old, hold, h⟩ := bind_eq_ok.mp h
    have hread : storedValue c = some old := storedValue_eq_some.mpr hold
    by_cases htransition : old["receipt"]["transition"] = t["transition"]
    · rw [if_pos htransition] at h
      split_ifs at h
      cases h
    rw [if_neg htransition] at h
    have hnewest : (if current.all (·.1 < c.seq) then some (c.seq, old) else current) =
        some (c.seq, old) := if_pos (hcurrent c List.mem_cons_self)
    rw [hnewest] at h
    obtain ⟨hother, hempty, hlast⟩ := ih hrest (fun d hd => by simpa using hfirst d hd) h
    refine ⟨?_, by simp, ?_⟩
    · intro d hd
      rcases List.mem_cons.mp hd with rfl | hd
      · exact ⟨old, hread, htransition⟩
      · exact hother d hd
    · intro d hd
      cases rest with
      | nil =>
        obtain rfl : c = d := by simpa using hd
        exact ⟨old, hread, hempty rfl⟩
      | cons c' rest =>
        rw [List.getLast?_cons_cons] at hd
        exact hlast d hd

/-- A transition that was applied before has its receipt in a row. -/
theorem matchApplied_none {t r : Json} {current : Option (ℕ × Json)} {rows : List Claim}
    (h : ActionLedger.matchApplied t r current rows = .ok none) :
    ∃ c ∈ rows, ∃ old, storedValue c = some old ∧ old["receipt"] = r ∧
      old["receipt"]["transition"] = t["transition"] := by
  induction rows generalizing current with
  | nil => cases h
  | cons c rest ih =>
    obtain ⟨old, hold, h⟩ := bind_eq_ok.mp h
    by_cases htransition : old["receipt"]["transition"] = t["transition"]
    · rw [if_pos htransition] at h
      split_ifs at h with hreceipt
      exact ⟨c, List.mem_cons_self, old, storedValue_eq_some.mpr hold, not_not.mp hreceipt,
        htransition⟩
    · rw [if_neg htransition] at h
      obtain ⟨d, hd, hfound⟩ := ih h
      exact ⟨d, List.mem_cons_of_mem _ hd, hfound⟩

/-- The row of an applied transition is found, whatever comes after it. -/
theorem matchApplied_replay {t r : Json} {current : Option (ℕ × Json)} {rows : List Claim}
    (hreadable : ∀ c ∈ rows, ∃ old, storedValue c = some old ∧
      (old["receipt"]["transition"] = t["transition"] → old["receipt"] = r))
    (hrow : ∃ c ∈ rows, ∃ old, storedValue c = some old ∧
      old["receipt"]["transition"] = t["transition"]) :
    ActionLedger.matchApplied t r current rows = .ok none := by
  induction rows generalizing current with
  | nil => simp at hrow
  | cons c rest ih =>
    obtain ⟨old, hold, hsame⟩ := hreadable c List.mem_cons_self
    unfold ActionLedger.matchApplied
    rw [storedValue_eq_some.mp hold]
    simp only [bind, Except.bind]
    by_cases htransition : old["receipt"]["transition"] = t["transition"]
    · rw [if_pos htransition, if_neg (not_not.mpr (hsame htransition))]
    · rw [if_neg htransition]
      refine ih (fun d hd => hreadable d (List.mem_cons_of_mem _ hd)) ?_
      obtain ⟨d, hd, old', hread, htransition'⟩ := hrow
      rcases List.mem_cons.mp hd with rfl | hd
      · obtain rfl := Option.some.inj (hread.symm.trans hold)
        exact absurd htransition' htransition
      · exact ⟨d, hd, old', hread, htransition'⟩

variable [Sha256] [ActionSchema]

omit [Sha256] [ActionSchema] in
theorem encoded_canonical [SerdeRoundTrip] {value : Json} {content : String}
    (h : encoded value = .ok content) : canonicalRecord (utf8 content) = .ok value := by
  obtain ⟨value', hcanonical, h⟩ := bind_eq_ok.mp h
  rw [utf8_of_fromUtf8 (orInvalid_ok h), hcanonical]
  obtain ⟨hread, hcheck, -⟩ := canonicalRecord_ok hcanonical
  rw [SerdeRoundTrip.read_back _ _ hread hcheck]

/-- What an activation has shown before any row is read. -/
theorem prepareActivation_checked {l : ActionLedger} {e : ActivationEnrollment} {t r : Json}
    {proof : ActivationEvidence} {digest : String} {stream : StreamRegistration}
    (h : l.prepareActivation e t proof = .ok (r, digest, stream)) :
    validateActionRecord t = .ok () ∧ scopesWithin l.policy.scope.value t = true ∧
      proof.now ≤ MAX := by
  obtain ⟨⟨⟩, hvalid, h⟩ := bind_eq_ok.mp h
  obtain ⟨⟨⟩, hscope, h⟩ := bind_eq_ok.mp h
  obtain ⟨⟨⟩, hallowed, -⟩ := bind_eq_ok.mp h
  have hallowed := allow_ok hallowed
  simp only [Bool.and_eq_true, decide_eq_true_eq] at hallowed
  exact ⟨hvalid, allow_ok hscope, hallowed.1.1.2⟩

/-- A valid record's whole numbers are within bounds. -/
theorem number_of_valid [SerdeRoundTrip] {v : Json} (h : validateActionRecord v = .ok ())
    {k : String} {n : ℕ} (hn : v[k] = .int n) : number v[k] = .ok n := by
  obtain ⟨value, hcanonical, -⟩ := bind_eq_ok.mp h
  obtain ⟨hread, hcheck, -⟩ := canonicalRecord_ok hcanonical
  obtain rfl := SerdeRoundTrip.read_back _ _ hread hcheck
  have hle := PlatformRecord.check_index hcheck k
  rw [hn] at hle ⊢
  simp only [PlatformRecord.check, Bool.and_eq_true, decide_eq_true_eq] at hle
  exact number_int (by omega)

/-- What an attempt that goes through has read, and the rows it stores. -/
structure Enacts (l : ActionLedger) (e : ActivationEnrollment) (t : Json)
    (proof : ActivationEvidence) (r : Json) (digest : String) (facts : List Claim)
    (archive : List NewClaim) (audit applied : NewClaim) (event : Json) : Prop where
  legible : Legible l.policy.scope.value facts
  head : ∃ found epoch set,
    ActionLedger.matchApplied t r none (facts.filter isApplied) = .ok (some found) ∧
    ActionLedger.currentHead e found = .ok (epoch, set) ∧ t["prior_epoch"] = .int epoch ∧
    t["prior_artifact_set_digest"] = .str set
  archive : (archive = [] ∧ .artifact t ∈ logOf facts) ∨ ∃ content, encoded t = .ok content ∧
    archive = [ActionLedger.activationRow e proof ARTIFACTS digest content]
  audit : ∃ id content, encoded event = .ok content ∧
    audit = ActionLedger.activationRow e proof EVENTS id content
  scope : scopesWithin l.policy.scope.value event = true ∧
    event.get "scope" = some l.policy.scope.value
  receipt : event["payload"]["receipt"] = r
  generation : ∃ n, number event["source_generation"] = .ok n
  applied : ∃ id content, encoded (.object [("receipt", r)]) = .ok content ∧
    applied = ActionLedger.activationRow e proof APPLIED id content

theorem judgeApply_enacts [SerdeRoundTrip] {l : ActionLedger} {e : ActivationEnrollment}
    {t r : Json} {proof : ActivationEvidence} {digest : String} {stream : StreamRegistration}
    {head : ℕ} {facts : List Claim} {claims : List NewClaim} {reply : Result Json}
    (hprepared : l.prepareActivation e t proof = .ok (r, digest, stream))
    (h : l.judgeApply e t proof r digest stream head facts = .ok (.appendAll claims reply)) :
    reply = .ok r ∧ ∃ archive audit applied event, claims = archive ++ [audit, applied] ∧
      Enacts l e t proof r digest facts archive audit applied event := by
  obtain ⟨-, -, hr⟩ := prepareActivation_ok hprepared
  obtain ⟨-, hscope, -⟩ := prepareActivation_checked hprepared
  obtain ⟨⟨artifacts, events⟩, hsnapshot, h⟩ := bind_eq_ok.mp h
  obtain ⟨hartifacts, -, -⟩ := snapshot_ok hsnapshot
  obtain ⟨found, hmatch, h⟩ := bind_eq_ok.mp h
  cases found with
  | none => cases h
  | some found =>
    obtain ⟨⟨epoch, set⟩, hcurrent, h⟩ := bind_eq_ok.mp h
    simp only at h
    split at h
    · cases h
    rename_i hprior
    obtain ⟨prior, -, h⟩ := bind_eq_ok.mp h
    obtain ⟨predecessor, hpredecessor, h⟩ := bind_eq_ok.mp h
    obtain ⟨payloadDigest, -, h⟩ := bind_eq_ok.mp h
    obtain ⟨⟨⟩, hvalid, h⟩ := bind_eq_ok.mp h
    split at h
    · cases h
    split at h
    · cases h
    rename_i hold
    obtain ⟨archive, harchive, h⟩ := bind_eq_ok.mp h
    obtain ⟨id, -, h⟩ := bind_eq_ok.mp h
    obtain ⟨audit, haudit, h⟩ := bind_eq_ok.mp h
    obtain ⟨transition, -, h⟩ := bind_eq_ok.mp h
    obtain ⟨applied, happlied, h⟩ := bind_eq_ok.mp h
    cases h
    simp only [not_or, not_not] at hprior
    have hwithin : scopesWithin l.policy.scope.value predecessor = true := by
      revert hpredecessor
      cases ActionLedger.lastActivation e stream events with
      | none =>
        intro hpredecessor
        cases hpredecessor
        rfl
      | some v =>
        intro hpredecessor
        change (eventDigest v).map .str = .ok predecessor at hpredecessor
        cases hdigest : eventDigest v with
        | error err => simp [hdigest, Except.map] at hpredecessor
        | ok d =>
          rw [hdigest] at hpredecessor
          cases hpredecessor
          rfl
    refine ⟨rfl, archive, _, _, _, rfl, (legible_of_snapshot hsnapshot).1,
      ⟨found, epoch, set, hmatch, hcurrent, hprior⟩, ?_, ⟨_, audit, haudit, rfl⟩,
      activationEvent_scope (hr ▸ scopesWithin_receiptOf hscope _ _ _) hwithin,
      (activationEvent_index rfl).2.2.2.2.2.2,
      ⟨_, number_of_valid hvalid activationEvent_generation⟩,
      ⟨_, applied, happlied, rfl⟩⟩
    unfold ActionLedger.archiveRows at harchive
    split_ifs at harchive with hnone
    · obtain ⟨content, hcontent, harchive⟩ := bind_eq_ok.mp harchive
      cases harchive
      exact .inr ⟨content, hcontent, rfl⟩
    · cases harchive
      rw [Option.isNone_iff_eq_none] at hnone
      obtain ⟨a, ha⟩ := Option.ne_none_iff_exists'.mp hnone
      have hmem := List.mem_map_of_mem (f := (·.value)) (List.mem_of_find?_eq_some ha)
      have hsame : a.value = t := by
        rw [ha] at hold
        simpa using hold
      rw [hartifacts, hsame] at hmem
      exact .inl ⟨rfl, mem_artifactsOf.mp hmem⟩

/-- An attempt that is answered at once read its own receipt. -/
theorem judgeApply_reply {l : ActionLedger} {e : ActivationEnrollment} {t r : Json}
    {proof : ActivationEvidence} {digest : String} {stream : StreamRegistration} {head : ℕ}
    {facts : List Claim} {a : Json}
    (h : l.judgeApply e t proof r digest stream head facts = .ok (.reply a)) :
    a = r ∧ Legible l.policy.scope.value facts ∧
      ActionLedger.matchApplied t r none (facts.filter isApplied) = .ok none := by
  obtain ⟨⟨artifacts, events⟩, hsnapshot, h⟩ := bind_eq_ok.mp h
  obtain ⟨found, hmatch, h⟩ := bind_eq_ok.mp h
  cases found with
  | none =>
    cases h
    exact ⟨rfl, (legible_of_snapshot hsnapshot).1, hmatch⟩
  | some current =>
    obtain ⟨⟨epoch, set⟩, -, h⟩ := bind_eq_ok.mp h
    simp only at h
    split at h
    · cases h
    obtain ⟨prior, -, h⟩ := bind_eq_ok.mp h
    obtain ⟨predecessor, -, h⟩ := bind_eq_ok.mp h
    obtain ⟨payloadDigest, -, h⟩ := bind_eq_ok.mp h
    obtain ⟨⟨⟩, -, h⟩ := bind_eq_ok.mp h
    split at h
    · cases h
    split at h
    · cases h
    obtain ⟨archive, -, h⟩ := bind_eq_ok.mp h
    obtain ⟨id, -, h⟩ := bind_eq_ok.mp h
    obtain ⟨audit, -, h⟩ := bind_eq_ok.mp h
    obtain ⟨transition, -, h⟩ := bind_eq_ok.mp h
    obtain ⟨applied, -, h⟩ := bind_eq_ok.mp h
    cases h

end

end PlatformAction
end Munarium

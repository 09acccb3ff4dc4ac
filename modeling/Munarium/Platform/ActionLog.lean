import Mathlib.Logic.Relation
import Munarium.Lib.Justified
import Munarium.Platform.Activation

/-! The action ledger as a log of artifacts and events, each of which finds what it needs
among those before it; what every such log keeps. -/
namespace Munarium

namespace PlatformAction

inductive Entry where
  | artifact (value : Json)
  | event (value : Json)
  deriving DecidableEq

def Entry.artifact? : Entry → Option Json
  | .artifact v => some v
  | .event _ => none

def Entry.event? : Entry → Option Json
  | .artifact _ => none
  | .event v => some v

def artifactsOf (log : List Entry) : List Json := log.filterMap (·.artifact?)

def eventsOf (log : List Entry) : List Json := log.filterMap (·.event?)

theorem mem_artifactsOf {log : List Entry} {v : Json} :
    v ∈ artifactsOf log ↔ .artifact v ∈ log := by
  rw [artifactsOf, List.mem_filterMap]
  constructor
  · intro ⟨e, he, hv⟩
    cases e with
    | artifact w =>
      cases hv
      exact he
    | event w => cases hv
  · exact fun h => ⟨_, h, rfl⟩

theorem mem_eventsOf {log : List Entry} {v : Json} : v ∈ eventsOf log ↔ .event v ∈ log := by
  rw [eventsOf, List.mem_filterMap]
  constructor
  · intro ⟨e, he, hv⟩
    cases e with
    | artifact w => cases hv
    | event w =>
      cases hv
      exact he
  · exact fun h => ⟨_, h, rfl⟩

theorem eventsOf_artifact (log : List Entry) (v : Json) :
    eventsOf (log ++ [.artifact v]) = eventsOf log := by simp [eventsOf, Entry.event?]

theorem eventsOf_event (log : List Entry) (v : Json) :
    eventsOf (log ++ [.event v]) = eventsOf log ++ [v] := by simp [eventsOf, Entry.event?]

/-- Each kind of action event and the kind that has to precede it. -/
def precedes : List (String × String) :=
  [("claim-created", "approval-recorded"), ("grant-issued", "claim-created"),
    ("consumption-reserved", "claim-created"), ("predispatch", "consumption-reserved"),
    ("send-intent", "predispatch"), ("outcome", "send-intent")]

/-- Of one operation and attempt. -/
structure SameTry (a b : Json) : Prop where
  operation : a["operation"] = b["operation"]
  attempt : a["attempt"] = b["attempt"]

section
variable [SerdeJson] [Sha256]

/-- The request a record names by its digests, of the same operation and attempt. -/
structure RequestFor (log : List Entry) (record request : Json) : Prop where
  archived : request ∈ artifactsOf log
  kind : request["type"] = .str "action-request"
  same : SameTry request record
  digest : ∃ d, actionDigest "action-request" request = .ok d ∧ record["request_digest"] = .str d
  context : record["context_digest"] = request["context_digest"]

/-- What an artifact finds before it: no other of its kind and attempt, and for a decision
and an approval the records they answer. -/
structure ArtifactNeeds (log : List Entry) (v : Json) : Prop where
  sole : v["type"] ≠ .str "activation" → ∀ old ∈ artifactsOf log, old["type"] = v["type"] →
    old["attempt"]["id"] ≠ v["attempt"]["id"]
  decision : v["type"] = .str "action-decision" → ∃ request, RequestFor log v request
  approval : v["type"] = .str "action-approval" →
    (∃ request, RequestFor log v request ∧ v["approver"] ≠ request["intent"]["actor"] ∧
      v["approver"] ≠ request["intent"]["origin"]) ∧
    ∃ decision ∈ artifactsOf log, decision["type"] = .str "action-decision" ∧
      SameTry decision v ∧ decision["outcome"] = .str "approval-required" ∧
      ∃ d, actionDigest "action-decision" decision = .ok d ∧ v["decision_digest"] = .str d

/-- What an event finds before it, by its kind. -/
structure EventNeeds (log : List Entry) (v : Json) : Prop where
  request : v["kind"] ≠ .str "activation-applied" →
    ∃ request, RequestFor log v["payload"] request
  approval : v["kind"] = .str "approval-recorded" →
    ∃ approval ∈ artifactsOf log, approval["type"] = .str "action-approval" ∧
      SameTry approval v["payload"] ∧ approval["approval"] = v["payload"]["approval"] ∧
      ∃ d, actionDigest "action-approval" approval = .ok d ∧
        v["payload"]["approval_digest"] = .str d
  step : ∀ later earlier, (later, earlier) ∈ precedes → v["kind"] = .str later →
    ∃ prior ∈ eventsOf log, prior["kind"] = .str earlier ∧
      SameTry prior["payload"] v["payload"]
  reconciled : v["kind"] = .str "reconciliation" → ∃ prior ∈ eventsOf log,
    (prior["kind"] = .str "outcome" ∨ prior["kind"] = .str "reconciliation") ∧
      SameTry prior["payload"] v["payload"]
  applied : v["kind"] = .str "activation-applied" →
    ∃ transition ∈ artifactsOf log, transition["type"] = .str "activation" ∧
      transition["transition"] = v["payload"]["receipt"]["transition"] ∧
      ∃ d, actionDigest "activation" transition = .ok d ∧
        v["payload"]["receipt"]["transition_digest"] = .str d

/-- An event names the digest of the event before it. -/
def PointsAt (old event : Json) : Prop :=
  ∃ digest, eventDigest old = .ok digest ∧ event["predecessor"] = .str digest

/-- An event continues its stream. -/
def Continues (event : Json) : Option Json → Prop
  | none => sequence event = some 1 ∧ event["predecessor"] = .null
  | some last => ∃ n, sequence last = some n ∧ sequence event = some (n + 1) ∧
      PointsAt last event

/-- A stream without gaps: numbers from one, each event pointing at the one before it. -/
abbrev Gapless (events : List Json) : Prop :=
  NumberedChain sequence (fun event => event["predecessor"] = .null) PointsAt events

variable [ActionSchema]

structure EventStep (log : List Entry) (v : Json) : Prop where
  valid : validateActionRecord v = .ok ()
  event : v["type"] = .str "accountability-event"
  ids : ∀ old ∈ eventsOf log, old["event_id"] ≠ v["event_id"]
  payloads : ∀ old ∈ eventsOf log, old["family"] = .str "action" →
    v["family"] = .str "action" → payloadsClash old["payload"] v["payload"] = .ok false
  next : Continues v ((eventsOf log).filter fun old => streamOf old = streamOf v).getLast?
  needs : EventNeeds log v

/-- An entry joins the log when it finds there what it needs. -/
def Admits (log : List Entry) : Entry → Prop
  | .artifact v => ArtifactNeeds log v
  | .event v => EventStep log v

abbrev Ledgered : List Entry → Prop := Justified Admits

omit [SerdeJson] [Sha256] [ActionSchema] in
/-- Payloads that do not clash are one in a kind an attempt has one of. -/
theorem eq_of_not_clash {a b : Json} (h : payloadsClash a b = .ok false)
    (hattempt : a["attempt"] = b["attempt"]) {kind : String} (ha : a["kind"] = .str kind)
    (hb : b["kind"] = .str kind) (hone : kind ∈ oneShot) : a = b := by
  by_contra hne
  have hkind : a["attempt"] = b["attempt"] ∧ a["kind"] = b["kind"] ∧ a ≠ b :=
    ⟨hattempt, ha.trans hb.symm, hne⟩
  unfold payloadsClash at h
  split_ifs at h
  · cases h
  · cases h
  · have htext : text b["kind"] = .ok kind := by rw [hb]; rfl
    rw [htext] at h
    have hnot : kind ∉ oneShot := by simpa [bind, Except.bind] using h
    exact hnot hone

/-- Every stream and generation of a log is a contiguous hash chain. -/
theorem Ledgered.gapless {log : List Entry} (h : Ledgered log) (key : Json × Json) :
    Gapless ((eventsOf log).filter fun event => streamOf event = key) := by
  induction h with
  | nil => exact numberedChain_nil
  | @snoc log e _ hok ih =>
    cases e with
    | artifact v =>
      rw [eventsOf_artifact]
      exact ih
    | event v =>
      rw [eventsOf_event, List.filter_append]
      by_cases hkey : streamOf v = key
      · subst hkey
        have hone : [v].filter (fun event => streamOf event = streamOf v) = [v] := by simp
        rw [hone]
        have hnext := hok.next
        cases hlast : ((eventsOf log).filter fun old => streamOf old = streamOf v).getLast? with
        | none =>
          rw [hlast] at hnext
          have hnil := List.getLast?_eq_none_iff.mp hlast
          rw [hnil]
          exact NumberedChain.append numberedChain_nil hnext.1 (fun _ => hnext.2) (by simp)
        | some last =>
          rw [hlast] at hnext
          obtain ⟨n, hn, hv, hpoints⟩ := hnext
          have hlength := ih.number_last hlast
          rw [hn, Option.some.injEq] at hlength
          apply NumberedChain.append ih
          · rw [hv, hlength]
          · intro hnil
            rw [hnil] at hlast
            cases hlast
          · intro x hx
            obtain rfl : last = x := Option.some.inj (hlast.symm.trans hx)
            exact hpoints
      · have hnone : [v].filter (fun event => streamOf event = key) = [] := by simp [hkey]
        rw [hnone, List.append_nil]
        exact ih

omit [ActionSchema] [SerdeJson] [Sha256] in
theorem SameTry.trans {a b c : Json} (hab : SameTry a b) (hbc : SameTry b c) : SameTry a c :=
  ⟨hab.operation.trans hbc.operation, hab.attempt.trans hbc.attempt⟩

/-- The artifact kinds an attempt has one of are told apart by type and attempt. -/
theorem Ledgered.sole {log : List Entry} (h : Ledgered log) {a b : Json}
    (ha : a ∈ artifactsOf log) (hb : b ∈ artifactsOf log) (htype : a["type"] = b["type"])
    (hactivation : b["type"] ≠ .str "activation")
    (hattempt : a["attempt"]["id"] = b["attempt"]["id"]) : a = b := by
  let R : Json → Json → Prop := fun a b => a["type"] = b["type"] →
    b["type"] ≠ .str "activation" → a["attempt"]["id"] = b["attempt"]["id"] → a = b
  have hpair : (artifactsOf log).Pairwise R := by
    apply h.pairwise
    intro log e v _ hok hv old hold htype hactivation hattempt
    cases e with
    | event w => cases hv
    | artifact w =>
      cases hv
      exact absurd hattempt (hok.sole hactivation old hold htype)
  have hsymm : Std.Symm R := ⟨fun a b hab htype hne hattempt =>
    (hab htype.symm (htype ▸ hne) hattempt.symm).symm⟩
  exact hpair.forall_of_forall (fun x _ _ _ _ => rfl) ha hb htype hactivation hattempt

/-- An attempt has one payload of each of the kinds it has one of. -/
theorem Ledgered.one_shot {log : List Entry} (h : Ledgered log) {a b : Json}
    (ha : a ∈ eventsOf log) (hb : b ∈ eventsOf log)
    (hattempt : a["payload"]["attempt"] = b["payload"]["attempt"]) {kind : String}
    (hkind : kind ∈ oneShot) (hkindA : a["kind"] = .str kind) (hkindB : b["kind"] = .str kind) :
    a["payload"] = b["payload"] := by
  let R : Json → Json → Prop := fun a b =>
    a["payload"]["attempt"] = b["payload"]["attempt"] →
      a["kind"] = .str kind → b["kind"] = .str kind → a["payload"] = b["payload"]
  have haction : kind ≠ "activation-applied" := by
    rintro rfl
    simp [oneShot] at hkind
  have hpair : (eventsOf log).Pairwise R := by
    apply h.pairwise
    intro log e v hlog hok hv old hold hattempt hkindOld hkindV
    cases e with
    | artifact w => cases hv
    | event w =>
      cases hv
      obtain ⟨_, _, _, holdOk⟩ := hlog.of_mem (mem_eventsOf.mp hold)
      have hfamily {v : Json} {log : List Entry} (hok : EventStep log v)
          (hv : v["kind"] = .str kind) :
          v["payload"]["kind"] = .str kind ∧ v["family"] = .str "action" := by
        obtain ⟨kind', hk, hpayload, hfamily⟩ := kind_of_valid hok.valid hok.event
        rw [hv, Json.str.injEq] at hk
        subst hk
        rw [if_neg haction] at hfamily
        exact ⟨hpayload, hfamily⟩
      obtain ⟨hpayloadOld, hfamilyOld⟩ := hfamily holdOk hkindOld
      obtain ⟨hpayload, hfamily⟩ := hfamily hok hkindV
      exact eq_of_not_clash (hok.payloads old hold hfamilyOld hfamily) hattempt hpayloadOld
        hpayload hkind
  have hsymm : Std.Symm R := ⟨fun a b hab hattempt hb ha => (hab hattempt.symm ha hb).symm⟩
  exact hpair.forall_of_forall (fun x _ _ _ _ => rfl) ha hb hattempt hkindA hkindB

/-- Nobody approves a request of their own. -/
theorem Ledgered.approver {log : List Entry} (h : Ledgered log) {approval request : Json}
    (happroval : approval ∈ artifactsOf log) (hkind : approval["type"] = .str "action-approval")
    (hrequest : request ∈ artifactsOf log) (htype : request["type"] = .str "action-request")
    (hattempt : request["attempt"] = approval["attempt"]) :
    approval["approver"] ≠ request["intent"]["actor"] ∧
      approval["approver"] ≠ request["intent"]["origin"] := by
  obtain ⟨before, after, hlog, hok⟩ := h.of_mem (mem_artifactsOf.mp happroval)
  obtain ⟨⟨request', hfor, hactor, horigin⟩, -⟩ := hok.approval hkind
  have hmem : request' ∈ artifactsOf log := by
    rw [mem_artifactsOf, hlog]
    exact List.mem_append_left _ (mem_artifactsOf.mp hfor.archived)
  have hsame : request = request' := by
    apply h.sole hrequest hmem (htype.trans hfor.kind.symm)
    · simp [hfor.kind]
    · rw [hattempt, hfor.same.attempt]
  subst hsame
  exact ⟨hactor, horigin⟩

/-- What a kind of event needs, directly or through what that needs. -/
def Behind : String → String → Prop := Relation.TransGen fun later earlier =>
  (later, earlier) ∈ precedes

/-- An event has every kind its own kind needs, and the kinds those need, before it. -/
theorem Ledgered.behind {log before after : List Entry} (h : Ledgered log) {v : Json}
    (hlog : log = before ++ .event v :: after) {later earlier : String}
    (hbehind : Behind later earlier) (hkind : v["kind"] = .str later) :
    ∃ prior ∈ eventsOf before, prior["kind"] = .str earlier ∧
      SameTry prior["payload"] v["payload"] := by
  induction hbehind with
  | single hstep => exact (h.split hlog).needs.step _ _ hstep hkind
  | tail _ hstep ih =>
    obtain ⟨middle, hmiddle, hmiddleKind, hmiddleTry⟩ := ih
    obtain ⟨before', between, rfl⟩ := List.append_of_mem (mem_eventsOf.mp hmiddle)
    have hlog' : log = before' ++ .event middle :: (between ++ .event v :: after) := by
      simp [hlog]
    obtain ⟨prior, hprior, hpriorKind, hpriorTry⟩ :=
      (h.split hlog').needs.step _ _ hstep hmiddleKind
    refine ⟨prior, ?_, hpriorKind, hpriorTry.trans hmiddleTry⟩
    rw [mem_eventsOf] at hprior ⊢
    exact List.mem_append_left _ hprior

end
end PlatformAction
end Munarium

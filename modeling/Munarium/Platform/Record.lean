import Munarium.Core.Types
import Munarium.Std.Digest
import Munarium.Std.Text
import Munarium.Std.Usize

/-! Platform decision records: exact canonical JSON, domain-separated digests and the
checks of each kind of record. Reading and writing JSON and the pinned schema are
parameters. -/
namespace Munarium

/-- `serde_json`'s reader and writer. -/
class SerdeJson where
  fromSlice : Bytes → Option Json
  toVec : Json → Bytes

/-- Validity under a definition of the pinned foundation schema; a kind without a
definition validates nothing. -/
class FoundationSchema where
  isValid : String → Json → Bool

def isAsciiText (s : String) : Bool := s.toList.all fun c => c.toNat < 128

namespace PlatformRecord

/-- A lowercase SHA-256 digest with its prefix. -/
def hash (s : String) : Bool :=
  (utf8 s).length == 71 && startsWith "sha256:" s &&
    ((utf8 s).drop 7).all fun b => (48 ≤ b && b ≤ 57) || (97 ≤ b && b ≤ 102)

/-- The greatest integer a canonical record holds. -/
def MAX : ℕ := 9007199254740991

def invalidRecord : KernelError := .invalidInput "invalid platform decision record"

def deniedRecord : KernelError := .forbidden "platform record authority refused"

def require (holds : Bool) : Result Unit := if holds then .ok () else .error invalidRecord

def orInvalid {α : Type} : Option α → Result α
  | some a => .ok a
  | none => .error invalidRecord

theorem require_ok {b : Bool} (h : require b = .ok ()) : b = true := by
  unfold require at h
  split_ifs at h with hb
  exact hb

theorem orInvalid_ok {α : Type} {o : Option α} {a : α} (h : orInvalid o = .ok a) :
    o = some a := by
  cases o with
  | none => cases h
  | some b =>
    cases h
    rfl

mutual
/-- What a canonical record may hold: bounded depth, ASCII names, safe integers. -/
def check (n : ℕ) : Json → Bool
  | .obj o => decide (n < 16) && checkFields (n + 1) o
  | .arr a => decide (n < 16) && checkItems (n + 1) a
  | .int i => decide (-(MAX : ℤ) ≤ i) && decide (i ≤ MAX)
  | .float _ => false
  | _ => true

def checkItems (n : ℕ) : List Json → Bool
  | [] => true
  | x :: xs => check n x && checkItems n xs

def checkFields (n : ℕ) : List (String × Json) → Bool
  | [] => true
  | (k, x) :: xs => isAsciiText k && check n x && checkFields n xs
end

theorem check_of_mem {n : ℕ} {fields : List (String × Json)} (h : checkFields n fields = true)
    {e : String × Json} (he : e ∈ fields) : check n e.2 = true := by
  induction fields with
  | nil => cases he
  | cons f rest ih =>
    simp only [checkFields, Bool.and_eq_true] at h
    rcases List.mem_cons.mp he with rfl | he
    · exact h.1.2
    · exact ih h.2 he

/-- The members of what passes pass as well. -/
theorem check_index {n : ℕ} {v : Json} (h : check n v = true) (k : String) :
    check (n + 1) v[k] = true := by
  show check (n + 1) ((v.get k).getD .null) = true
  cases hget : v.get k with
  | none => simp [check]
  | some x =>
    cases v with
    | obj fields =>
      obtain ⟨before, after, rfl, -⟩ := List.lookup_eq_some_iff.mp hget
      simp only [check, Bool.and_eq_true] at h
      exact check_of_mem h.2 (e := (k, x)) (by simp)
    | _ => cases hget

theorem asU64_le {n m : ℕ} {v : Json} (h : check n v = true) (hm : v.asU64 = some m) :
    m ≤ MAX := by
  cases v with
  | int i =>
    simp only [check, Bool.and_eq_true, decide_eq_true_eq] at h
    simp only [Json.asU64] at hm
    split_ifs at hm
    cases hm
    omega
  | _ => cases hm

section
variable [SerdeJson]

/-- Exact canonical JSON: what is written again is what was read. -/
def canonicalRecord (raw : Bytes) : Result Json :=
  if raw.length > 65536 then .error invalidRecord
  else
    match SerdeJson.fromSlice raw with
    | none => .error invalidRecord
    | some v =>
        if v.asObject.isNone || !check 0 v || SerdeJson.toVec v != raw then .error invalidRecord
        else .ok v

theorem canonicalRecord_ok {raw : Bytes} {v : Json} (h : canonicalRecord raw = .ok v) :
    SerdeJson.fromSlice raw = some v ∧ check 0 v = true ∧ SerdeJson.toVec v = raw := by
  unfold canonicalRecord at h
  split_ifs at h
  split at h
  · cases h
  · split_ifs at h with hc
    cases h
    simp only [Bool.or_eq_true, Bool.not_eq_true', bne_iff_ne, not_or, not_not,
      Bool.not_eq_false] at hc
    exact ⟨by assumption, hc.1.2, hc.2⟩

variable [Sha256]

/-- Domain-separated record digest. -/
def recordDigest (domain : String) (value : Json) : Result String := do
  let raw := SerdeJson.toVec value
  let _ ← canonicalRecord raw
  .ok ("sha256:" ++ sha256Hex (utf8 domain ++ [0] ++ raw))

variable [FoundationSchema]

def validateShape (kind : String) (v : Json) : Result Unit := do
  let _ ← canonicalRecord (SerdeJson.toVec v)
  require (FoundationSchema.isValid kind v)

def validateRequest (v : Json) : Result Unit := do
  validateShape "request" v
  let attachments ← orInvalid v["attachments"].asArray
  let total ← orInvalid (attachments.foldlM
    (fun sum a => checkedAdd sum (a["bytes"].asU64.getD (2 ^ 64 - 1))) 0)
  require (total ≤ 1048576)

def validateLineage (v : Json) : Result Unit := do
  validateShape "lineage" v
  require !(v["trust"] == .str "verified" &&
    v.asObject.all fun o => o.any fun field => field.2.isNull)

def validateDecision (v : Json) : Result Unit := do
  validateShape "decision" v
  let obligations ← orInvalid v["obligations"].asArray
  require ((v["outcome"] == .str "approval-required") == !obligations.isEmpty)
  require (obligations.all fun o => o["request_digest"] == v["request_digest"] &&
    o["policy_digest"] == v["policy_digest"])
  let lineages ← orInvalid v["lineage"].asArray
  lineages.forM fun lineage => do
    validateLineage lineage
    require (lineage["tenant"] == v["tenant"] &&
      (v["outcome"] == .str "denied" || lineage["trust"] == .str "verified"))

/-- The request digest an event has to name: its proposal's own, or the one its decision
or refusal answers. -/
def payloadRequest (v : Json) : Result String :=
  let payload := v["payload"]
  if v["kind"] = .str "proposal" then do
    validateRequest payload
    recordDigest "munarium:decision-request:v1" payload
  else if v["kind"] = .str "decision" then do
    validateDecision payload
    orInvalid payload["request_digest"].asStr
  else if v["kind"] = .str "refusal" then do
    validateShape "refusal" payload
    orInvalid payload["request_digest"].asStr
  else .error invalidRecord

def validateEvent (v : Json) : Result Unit := do
  validateShape "event" v
  let request ← payloadRequest v
  let payload := v["payload"]
  let payloadDigest ← recordDigest "munarium:decision-event-payload:v1" payload
  require (v["tenant"] == payload["tenant"] && v["operation_id"] == payload["operation_id"] &&
    v["request_digest"] == .str request && v["payload_digest"] == .str payloadDigest &&
    (v["sequence"] == .int 1) == v["prior_event_digest"].isNull)

def validateRecord (kind : String) (v : Json) : Result Unit :=
  if kind = "request" then validateRequest v
  else if kind = "lineage" then validateLineage v
  else if kind = "decision" then validateDecision v
  else if kind = "event" then validateEvent v
  else validateShape kind v

end
end PlatformRecord

/-- A value read from the text written for a value is that value. -/
class SerdeRoundTrip [SerdeJson] : Prop where
  read_back : ∀ v w, SerdeJson.fromSlice (SerdeJson.toVec v) = some w →
    PlatformRecord.check 0 w = true → w = v

/-- A record's digest tells it from any other of its domain. -/
theorem PlatformRecord.recordDigest_injective [SerdeJson] [Sha256] [SerdeRoundTrip]
    (hinj : Function.Injective Sha256.digest) {domain digest : String} {v w : Json}
    (hv : recordDigest domain v = .ok digest) (hw : recordDigest domain w = .ok digest) :
    v = w := by
  obtain ⟨x, hx, hv⟩ := bind_eq_ok.mp hv
  obtain ⟨y, hy, hw⟩ := bind_eq_ok.mp hw
  cases hv
  have hhex := (String.append_right_inj _).mp (Except.ok.inj hw)
  have hbytes := sha256Hex_injective hinj hhex
  have hsame : SerdeJson.toVec w = SerdeJson.toVec v := List.append_cancel_left hbytes
  obtain ⟨hread, hcheck, -⟩ := canonicalRecord_ok hx
  have hread' := hread
  rw [← hsame] at hread'
  rw [← SerdeRoundTrip.read_back _ _ hread hcheck, SerdeRoundTrip.read_back _ _ hread' hcheck]

/-- Reader and writer of a few values, each with a text of its own. -/
abbrev tabledSerde (known : List (Json × String)) : SerdeJson where
  fromSlice raw := (known.find? fun e => utf8 e.2 == raw).map Prod.fst
  toVec v := ((known.lookup v).map utf8).getD []

theorem tabledSerde_reads {known : List (Json × String)} (htexts : (known.map Prod.snd).Nodup)
    (hnonempty : "" ∉ known.map Prod.snd) {v w : Json}
    (h : (tabledSerde known).fromSlice ((tabledSerde known).toVec v) = some w) : w = v := by
  change (known.find? fun e => utf8 e.2 == ((known.lookup v).map utf8).getD []).map Prod.fst =
    some w at h
  obtain ⟨e, hfind, rfl⟩ := Option.map_eq_some_iff.mp h
  have hmem := List.mem_of_find?_eq_some hfind
  have hsame := List.find?_some hfind
  rw [beq_iff_eq] at hsame
  cases hv : known.lookup v with
  | none =>
    rw [hv, Option.map_none, Option.getD_none] at hsame
    have hempty : e.2 = "" := utf8_injective hsame
    exact absurd (hempty ▸ List.mem_map_of_mem hmem) hnonempty
  | some text =>
    rw [hv, Option.map_some, Option.getD_some] at hsame
    obtain ⟨before, after, rfl, -⟩ := List.lookup_eq_some_iff.mp hv
    have hentry : (v, text) ∈ before ++ (v, text) :: after := by simp
    exact congrArg Prod.fst (List.inj_on_of_nodup_map htexts hmem hentry (utf8_injective hsame))

end Munarium

import Munarium.Lib.Paging
import Munarium.Lib.StableSort
import Munarium.Platform.ActionLedger

/-! `ActionLedger::checkpoint`: the retained records up to a cutoff, in bounded pages that share
one descriptor and one digest, and the client that follows `next_after` through them. -/
namespace Munarium

namespace PlatformAction
open PlatformRecord (MAX canonicalRecord)

def CHECKPOINT_PROFILE : String := "stage2-recovery-checkpoint-v1"

def PAGE_BYTES : ℕ := 1024 * 1024

/-- What the pages of one checkpoint share. -/
structure Export where
  descriptor : List (String × Json)
  digest : String
  entries : List Json

/-- The newest retained event of each stream and generation. -/
abbrev SourceHeads := SortedMap (String ×ₗ ℕ) Json

def Export.page (x : Export) (after : ℕ) (records : List Json) (complete : Bool)
    (next : Json) : Json :=
  .object (x.descriptor ++ [("checkpoint_digest", .str x.digest), ("after", .int after),
    ("records", .arr records), ("complete", .bool complete), ("next_after", next)])

def lastPosition (records : List Json) : Json :=
  (records.getLast?.map fun record => record["position"]).getD .null

/-- The order of `as_u64` keys: no number comes first. -/
def positionKey (entry : Json) : WithBot ℕ := entry["position"].asU64

def entryOfRecord (kind : String) (stored : Stored) (receipt : Json) : Json := .object
  [("kind", .str kind), ("position", .int stored.seq), ("received_at", .int stored.receivedAt),
    ("record", stored.value), ("receipt", receipt)]

section
variable [SerdeJson]

def Export.fits (x : Export) (after : ℕ) (selected : List Json) : Bool :=
  decide ((SerdeJson.toVec (x.page after selected false (lastPosition selected))).length ≤
    PAGE_BYTES - 32)

def Export.remaining (x : Export) (after : ℕ) : List Json :=
  x.entries.filter fun record => record["position"].asU64.any (after < ·)

/-- One page of a checkpoint. -/
def Export.answer (x : Export) (after limit : ℕ) : Result Json :=
  let remaining := x.remaining after
  let selected := Paging.fill (x.fits after) [] (remaining.take limit)
  if selected.isEmpty && !remaining.isEmpty then .error invalidAction
  else do
    let complete := selected.length == remaining.length
    let page := x.page after selected complete (if complete then .null else lastPosition selected)
    require (decide ((SerdeJson.toVec page).length ≤ PAGE_BYTES))
    .ok page

variable [Sha256]

/-- The digest covers the descriptor and every record, each behind a zero byte. -/
def checkpointDigest (descriptor : Json) (entries : List Json) : String :=
  "sha256:" ++ sha256Hex (utf8 "munarium:stage2:recovery-checkpoint:v1" ++ [0] ++
    SerdeJson.toVec descriptor ++ entries.flatMap fun record => 0 :: SerdeJson.toVec record)

/-- The newest event of a stream and generation, as the descriptor names it. -/
def sourceHead (event : Json) (generation sequence : ℕ) : Result Json := do
  let digest ← eventDigest event
  .ok (.object [("stream", event["stream"]), ("source_generation", .int generation),
    ("producer", event["producer"]), ("sequence", .int sequence), ("event_digest", .str digest)])

def addHead (heads : SourceHeads) (event : Json) : Result SourceHeads := do
  let id ← text event["stream"]["id"]
  let generation ← number event["source_generation"]
  let sequence ← number event["sequence"]
  let key : String ×ₗ ℕ := toLex (id, generation)
  if (heads.get? key).all fun old => old["sequence"].asU64.all (· < sequence) then do
    let head ← sourceHead event generation sequence
    .ok (heads.insert key head)
  else .ok heads

variable [ActionSchema]

def artifactEntry (stored : Stored) : Result Json := do
  validateActionRecord stored.value
  let kind ← text stored.value["type"]
  let digest ← actionDigest kind stored.value
  .ok (entryOfRecord "artifact" stored (ActionLedger.archived digest kind stored.seq))

namespace ActionLedger

/-- One event's part of a checkpoint: its stream's head and its entry. -/
def exportEvent (l : ActionLedger) (acc : SourceHeads × List Json) (stored : Stored) :
    Result (SourceHeads × List Json) := do
  validateActionRecord stored.value
  let heads ← addHead acc.1 stored.value
  let receipt ← l.acknowledgement stored.value stored.seq stored.receivedAt
  .ok (heads, acc.2 ++ [entryOfRecord "event" stored receipt])

omit [SerdeJson] [Sha256] [ActionSchema] in
def descriptorFields (l : ActionLedger) (pin total : ℕ) (heads : List Json) :
    List (String × Json) :=
  [("schema_version", .int 1), ("type", .str "recovery-checkpoint"),
    ("profile", .str CHECKPOINT_PROFILE), ("coverage", .str "action-artifacts-and-events"),
    ("scope", l.policy.scope.value), ("ledger", .object [("scope", l.policy.scope.value),
      ("kind", .str "ledger"), ("id", .str l.version)]), ("ledger_position", .int pin),
    ("total_records", .int total), ("source_heads", .arr heads),
    ("digest_profile", .str "sha256-delimited-canonical-v1"), ("execution_enabled", .bool false)]

def exportOf (l : ActionLedger) (pin : ℕ) (artifacts events : List Stored) : Result Export := do
  let archived ← artifacts.mapM artifactEntry
  let (heads, recorded) ← events.foldlM l.exportEvent (SortedMap.empty, [])
  let entries := StableSort.sortByKey positionKey (archived ++ recorded)
  require (!(entries.zip entries.tail).any fun pair => pair.1["position"] == pair.2["position"])
  let descriptor := l.descriptorFields pin entries.length heads.values
  .ok ⟨descriptor, checkpointDigest (.object descriptor) entries, entries⟩

/-- One page from the facts at a pin. -/
def judgeCheckpoint (l : ActionLedger) (after limit pin : ℕ) (facts : List Claim) :
    Result Json := do
  let (artifacts, events) ← l.snapshot pin facts
  require (decide (after ≤ pin))
  let x ← l.exportOf pin artifacts events
  x.answer after limit

/-- The cutoff, or the current head, unless it is in the future or out of bounds. -/
def checkPin (current : ℕ) (cutoff : Option ℕ) : Result ℕ := do
  let head := cutoff.getD current
  require (decide (head ≤ current) && decide (head ≤ MAX))
  .ok head

def prepareCheckpoint (l : ActionLedger) (a : ActionAdmission) (after limit : ℕ) :
    Result Unit := do
  l.authorize a false
  require (decide (1 ≤ limit) && decide (limit ≤ 64) && decide (after ≤ MAX))

variable [Platform] [IdGenerator]

def checkpoint (l : ActionLedger) (a : ActionAdmission) (cutoff : Option ℕ) (after limit : ℕ) :
    Shared State (Result Json) :=
  onOk (fun _ => Shared.read (fun s => s.headOf l.version) (onOk fun current =>
      onOk (fun pin => Shared.read (fun s => s.sliceFacts l.version { asOfSeq := some pin })
          (onOk fun facts => .done (l.judgeCheckpoint after limit pin facts)))
        (checkPin current cutoff)))
    (l.prepareCheckpoint a after limit)

/-- The reader gives up. -/
def unfinished : KernelError := .storage "checkpoint export did not complete"

/-- A page and those that follow it, if it is not the last one. -/
def withRest (rest : ℕ → ℕ → ℕ → Shared State (Result (List Json))) (page : Json) :
    Shared State (Result (List Json)) :=
  if page["complete"] = .bool true then .done (.ok [page])
  else onOk (fun (pin, total, next) => (rest pin total next).map fun a => a.map (page :: ·)) do
    let pin ← number page["ledger_position"]
    let total ← number page["total_records"]
    let next ← number page["next_after"]
    .ok (pin, total, next)

/-- The pages of a pinned cutoff that follow a position: at most so many of them. -/
def followPages (l : ActionLedger) (a : ActionAdmission) (limit : ℕ) (pin : ℕ) :
    ℕ → ℕ → Shared State (Result (List Json))
  | 0, _ => .done (.error unfinished)
  | n + 1, after => (l.checkpoint a (some pin) after limit).bind
      (onOk (withRest fun _ _ next => l.followPages a limit pin n next))

/-- All pages of a checkpoint as its documentation has them read: the first one from the
start, each further one at the position the first has pinned, from where the last ended. -/
def readPages (l : ActionLedger) (a : ActionAdmission) (cutoff : Option ℕ) (limit : ℕ) :
    Shared State (Result (List Json)) :=
  (l.checkpoint a cutoff 0 limit).bind
    (onOk (withRest fun pin total next => l.followPages a limit pin total next))

end ActionLedger
end

end PlatformAction
end Munarium

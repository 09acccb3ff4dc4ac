import Munarium.Datastore.Verify
import Mathlib.Logic.Function.Basic

/-! `L1Cache`: hydration, eviction and quarantine by any number of threads. A step is one section
under the lock or one file operation, a file with its parents being written in one; the clock, the
store and the file system answer as they like. -/
namespace Munarium

structure ArtifactCacheKey where
  isolationDomain : String
  logicalVersionId : String
  artifactId : String
  deriving DecidableEq

namespace ArtifactCacheKey

def isPathByte (b : UInt8) : Bool :=
  (0x30 ≤ b && b ≤ 0x39) || Verify.isAsciiAlphabetic b || b == 0x2d || b == 0x5f

def elements (key : ArtifactCacheKey) : List (String × String) :=
  [("isolation_domain", key.isolationDomain), ("logical_version_id", key.logicalVersionId),
    ("artifact_id", key.artifactId)]

section
variable [DebugText]

def elementError (label part : String) : Option DatastoreError :=
  if part = "" then some (.path (label ++ " is empty"))
  else if (utf8 part).all isPathByte then none
  else some (.path (label ++ " " ++ DebugText.text part ++
    " may hold only [A-Za-z0-9_-]; it becomes a path element"))

def l1RelativePath (key : ArtifactCacheKey) : Except DatastoreError String :=
  match key.elements.findSome? fun e => elementError e.1 e.2 with
  | some e => .error e
  | none => .ok (key.isolationDomain ++ "/" ++ key.logicalVersionId ++ "/" ++ key.artifactId)

end
end ArtifactCacheKey

/-- The files of a directory, by their paths in it. -/
abbrev Dir := List (String × Bytes)

def Dir.write (d : Dir) (path : String) (bytes : Bytes) : Dir :=
  (path, bytes) :: d.filter (·.1 != path)

def COMPLETE_MARKER : String := "COMPLETE"

def Shard.MANIFEST : String := "manifest.json"

/-- Where a key's download is kept until it is sealed. -/
def partialPath (path : String) : String := path ++ ".partial"

inductive Residency where
  | opportunistic | stagedPrewarm | servingRequired | pinned
  deriving DecidableEq

namespace Residency

def rank : Residency → ℕ
  | opportunistic => 0
  | stagedPrewarm => 1
  | servingRequired => 2
  | pinned => 3

def max (a b : Residency) : Residency := if a.rank ≤ b.rank then b else a

end Residency

structure ResidentArtifact where
  key : ArtifactCacheKey
  path : String
  bytes : ℕ
  residency : Residency
  lastAccess : ℤ
  deriving DecidableEq

structure CacheBudget where
  highWatermarkBytes : ℕ
  lowWatermarkBytes : ℕ
  low_lt_high : lowWatermarkBytes < highWatermarkBytes

structure HydrateRequest where
  key : ArtifactCacheKey
  reader : ReaderCapabilities
  limits : Limits
  residency : Residency

inductive CacheCall where
  | hydrate (rq : HydrateRequest)
  | evictToLowWatermark
  | evict (key : ArtifactCacheKey)
  | setResidency (key : ArtifactCacheKey) (residency : Residency)
  | clearQuarantine (key : ArtifactCacheKey)

/-- A download, with the manifest that it fetched and the bytes that it wrote so far. -/
structure Download where
  request : HydrateRequest
  path : String
  manifest : Bytes
  written : ℕ

inductive DownloadPoint where
  | clearing
  | sweeping
  | creating
  | fetchingManifest
  | listing (rest : List ManifestComponent)
  | fetching (c : ManifestComponent) (rest : List ManifestComponent)
  | writing (c : ManifestComponent) (bytes : Bytes) (rest : List ManifestComponent)
  | writingManifest
  | failing (e : DatastoreError)
  | makingParent
  | probing
  | replacing
  | renaming
  | marking
  | inserting

/-- An eviction of its own, or one to the low watermark, for a hydration that returns an entry. -/
inductive Eviction where
  | direct
  | lowWatermark (returning : Option ResidentArtifact)

inductive CachePhase where
  | called (call : CacheCall)
  | waiting (rq : HydrateRequest)
  | downloading (d : Download) (p : DownloadPoint)
  | unwinding (key : ArtifactCacheKey)
  | concluded (rq : HydrateRequest) (outcome : Except DatastoreError ResidentArtifact)
  | released (rq : HydrateRequest) (outcome : Except DatastoreError ResidentArtifact)
  | choosing (returning : Option ResidentArtifact)
  | removing (ev : Eviction) (key : ArtifactCacheKey)
  | probingLeaf (ev : Eviction) (key : ArtifactCacheKey) (path : String)
  | deleting (ev : Eviction) (key : ArtifactCacheKey) (path : String)
  | over

/-- What a step finds: the time, how a file operation ends (a failure leaves its directory as it
likes), what the store says, which of equal victims the map yields first, and whether the store
panics. -/
structure CacheAnswer where
  now : ℤ
  fault : Option (Option Dir)
  bytes : Except DatastoreError Bytes
  found : Except DatastoreError Bool
  victim : Option ArtifactCacheKey
  panics : Bool

/-- The cache, the disk and the threads, with the keys whose last download failed integrity and was
not cleared since, and the components last verified for each key. -/
structure L1State where
  budget : CacheBudget
  resident : List ResidentArtifact
  quarantined : List ArtifactCacheKey
  inFlight : List ArtifactCacheKey
  disk : String → Option Dir
  threads : List CachePhase
  corrupt : List ArtifactCacheKey
  verified : ArtifactCacheKey → List (String × Bytes)

namespace L1State

def find (s : L1State) (key : ArtifactCacheKey) : Option ResidentArtifact :=
  s.resident.find? (·.key == key)

def put (s : L1State) (path : String) (dir : Option Dir) : L1State :=
  { s with disk := Function.update s.disk path dir }

def adjust (s : L1State) (key : ArtifactCacheKey) (f : ResidentArtifact → ResidentArtifact) :
    L1State :=
  { s with resident := s.resident.map fun r => if r.key = key then f r else r }

/-- A hit: the residency is raised and the entry is fresh. -/
def touch (s : L1State) (rq : HydrateRequest) (now : ℤ) : L1State :=
  s.adjust rq.key fun r =>
    { r with residency := r.residency.max rq.residency, lastAccess := now }

def claim (s : L1State) (key : ArtifactCacheKey) : L1State :=
  { s with
    inFlight := key :: s.inFlight
    verified := Function.update s.verified key [] }

/-- `InFlightGuard` dropped. -/
def release (s : L1State) (key : ArtifactCacheKey) : L1State :=
  { s with inFlight := s.inFlight.filter (· != key) }

def quarantine (s : L1State) (key : ArtifactCacheKey) : L1State :=
  { s with quarantined := key :: s.quarantined }

def clearQuarantine (s : L1State) (key : ArtifactCacheKey) : L1State :=
  { s with
    quarantined := s.quarantined.filter (· != key)
    corrupt := s.corrupt.filter (· != key) }

def setResidency (s : L1State) (key : ArtifactCacheKey) (residency : Residency) : L1State :=
  s.adjust key fun r => { r with residency := residency }

def insert (s : L1State) (r : ResidentArtifact) : L1State :=
  { s with resident := r :: s.resident.filter (·.key != r.key) }

def remove (s : L1State) (key : ArtifactCacheKey) : L1State :=
  { s with resident := s.resident.filter (·.key != key) }

def verify (s : L1State) (key : ArtifactCacheKey) (path : String) (bytes : Bytes) : L1State :=
  { s with verified := Function.update s.verified key (s.verified key ++ [(path, bytes)]) }

/-- `hydrate_inner` returns. -/
def conclude (s : L1State) (rq : HydrateRequest)
    (outcome : Except DatastoreError ResidentArtifact) : L1State × CachePhase :=
  (match outcome with
    | .error (.integrity _) => { s with corrupt := rq.key :: s.corrupt }
    | _ => s,
    .concluded rq outcome)

def totalBytes (s : L1State) : ℕ :=
  s.resident.foldl (fun sum r => min (sum + r.bytes) (2 ^ 64 - 1)) 0

/-- Weaker residency first, then the older access. -/
def goesFirst (a b : ResidentArtifact) : Bool :=
  decide (a.residency.rank < b.residency.rank ∨
    a.residency.rank = b.residency.rank ∧ a.lastAccess < b.lastAccess)

def candidates (s : L1State) (returning : Option ResidentArtifact) : List ResidentArtifact :=
  s.resident.filter fun r =>
    decide (r.residency.rank < Residency.pinned.rank) && returning.all (·.key != r.key)

/-- A least candidate: the one that the map yields first, where there are several. -/
def victim (s : L1State) (returning : Option ResidentArtifact)
    (first : Option ArtifactCacheKey) : Option ArtifactCacheKey :=
  if s.totalBytes ≤ s.budget.lowWatermarkBytes then none
  else
    let least := (s.candidates returning).filter fun r =>
      (s.candidates returning).all fun q => !goesFirst q r
    ((least.find? fun r => first == some r.key).or least.head?).map (·.key)

section
variable [DebugText] [Sha256] [ManifestText]

def ioError : DatastoreError := .io "file operation failed"

/-- From the in-flight mark on. -/
def startDownload (rq : HydrateRequest) : CachePhase :=
  match rq.key.l1RelativePath with
  | .ok path => .downloading ⟨rq, path, [], 0⟩ .clearing
  | .error e => .concluded rq (.error e)

/-- The section that answers a hit or takes the key up. -/
def take (s : L1State) (rq : HydrateRequest) (now : ℤ) : L1State × CachePhase :=
  if rq.key ∈ s.quarantined then (s, .over)
  else if (s.find rq.key).isSome then (s.touch rq now, .over)
  else if rq.key ∈ s.inFlight then (s, .waiting rq)
  else (s.claim rq.key, startDownload rq)

/-- A wake, for whatever reason. -/
def wake (s : L1State) (rq : HydrateRequest) (now : ℤ) : L1State × CachePhase :=
  if rq.key ∈ s.inFlight then (s, .waiting rq) else s.take rq now

/-- The manifest's bytes, checked against the artifact id before they are parsed. -/
def readManifest (budget : CacheBudget) (rq : HydrateRequest) (bytes : Bytes) :
    Except DatastoreError (List ManifestComponent) :=
  match Verify.verifyManifestBytes bytes rq.key.artifactId with
  | .error e => .error e
  | .ok () =>
      match ManifestText.fromSlice bytes with
      | .error e => .error (.invalid ("manifest does not parse: " ++ e))
      | .ok manifest =>
          match Verify.validateManifest manifest rq.reader rq.limits with
          | .error e => .error e
          | .ok () =>
              if budget.highWatermarkBytes < (manifest.components.map (·.bytesLen.toNat)).sum then
                .error (.limit ("artifact declares " ++
                  toString (manifest.components.map (·.bytesLen.toNat)).sum ++
                  " bytes, over the whole cache high watermark of " ++
                  toString budget.highWatermarkBytes ++ "; it can never be resident and " ++
                  "waiting for space would never end"))
              else .ok manifest.components

/-- A file operation of `?` outside the download's closure. -/
def orConclude (s : L1State) (d : Download) (path : String) (fault : Option (Option Dir))
    (done : L1State × CachePhase) : L1State × CachePhase :=
  match fault with
  | none => done
  | some left => (s.put path left).conclude d.request (.error ioError)

def download (s : L1State) (d : Download) (a : CacheAnswer) :
    DownloadPoint → L1State × CachePhase
  | .clearing =>
      if (s.disk (partialPath d.path)).isSome then (s, .downloading d .sweeping)
      else (s, .downloading d .creating)
  | .sweeping =>
      match s.disk (partialPath d.path) with
      | some _ => s.orConclude d (partialPath d.path) a.fault
          (s.put (partialPath d.path) none, .downloading d .creating)
      | none => s.conclude d.request (.error ioError)
  | .creating =>
      s.orConclude d (partialPath d.path) a.fault
        (s.put (partialPath d.path) (some ((s.disk (partialPath d.path)).getD [])),
          .downloading d .fetchingManifest)
  | .fetchingManifest =>
      match a.bytes with
      | .error e => (s, .downloading d (.failing e))
      | .ok bytes =>
          match readManifest s.budget d.request bytes with
          | .error e => (s, .downloading d (.failing e))
          | .ok components => (s, .downloading { d with manifest := bytes } (.listing components))
  | .listing [] => (s, .downloading d .writingManifest)
  | .listing (c :: rest) =>
      match a.found with
      | .error e => (s, .downloading d (.failing e))
      | .ok true => (s, .downloading d (.fetching c rest))
      | .ok false =>
          if c.required then
            (s, .downloading d (.failing (.io ("required component " ++ DebugText.text c.path ++
              " is absent from the store"))))
          else (s, .downloading d (.listing rest))
  | .fetching c rest =>
      match a.bytes with
      | .error e => (s, .downloading d (.failing e))
      | .ok bytes =>
          match Verify.verifyComponent c bytes with
          | .error e => (s, .downloading d (.failing e))
          | .ok () => (s.verify d.request.key c.path bytes, .downloading d (.writing c bytes rest))
  | .writing c bytes rest =>
      match a.fault, s.disk (partialPath d.path) with
      | none, some dir => (s.put (partialPath d.path) (some (dir.write c.path bytes)),
          .downloading { d with written := d.written + bytes.length } (.listing rest))
      | none, none => (s, .downloading d (.failing ioError))
      | some left, _ => (s.put (partialPath d.path) left,
          .downloading d (.failing ioError))
  | .writingManifest =>
      match a.fault, s.disk (partialPath d.path) with
      | none, some dir => (s.put (partialPath d.path) (some (dir.write Shard.MANIFEST d.manifest)),
          .downloading { d with written := d.written + d.manifest.length } .makingParent)
      | none, none => (s, .downloading d (.failing ioError))
      | some left, _ => (s.put (partialPath d.path) left,
          .downloading d (.failing ioError))
  | .failing e =>
      (s.put (partialPath d.path) (a.fault.getD none)).conclude d.request (.error e)
  | .makingParent =>
      match a.fault with
      | none => (s, .downloading d .probing)
      | some _ => s.conclude d.request (.error ioError)
  | .probing =>
      if (s.disk d.path).isSome then (s, .downloading d .replacing)
      else (s, .downloading d .renaming)
  | .replacing =>
      match s.disk d.path with
      | some _ => s.orConclude d d.path a.fault (s.put d.path none, .downloading d .renaming)
      | none => s.conclude d.request (.error ioError)
  | .renaming =>
      match a.fault, s.disk (partialPath d.path), s.disk d.path with
      | none, some dir, none =>
          ((s.put d.path (some dir)).put (partialPath d.path) none, .downloading d .marking)
      | none, some dir, some [] =>
          ((s.put d.path (some dir)).put (partialPath d.path) none, .downloading d .marking)
      | _, _, _ => s.conclude d.request (.error ioError)
  | .marking =>
      match s.disk d.path with
      | some dir => s.orConclude d d.path a.fault
          (s.put d.path (some (dir.write COMPLETE_MARKER [])), .downloading d .inserting)
      | none => s.conclude d.request (.error ioError)
  | .inserting =>
      let r : ResidentArtifact :=
        ⟨d.request.key, d.path, d.written, d.request.residency, a.now⟩
      (s.insert r).conclude d.request (.ok r)

/-- What follows an eviction that did not fail. -/
def afterEvict : Eviction → CachePhase
  | .direct => .over
  | .lowWatermark returning => .choosing returning

def advance (s : L1State) (a : CacheAnswer) : CachePhase → L1State × CachePhase
  | .called (.hydrate rq) => s.take rq a.now
  | .called .evictToLowWatermark => (s, .choosing none)
  | .called (.evict key) => (s, .removing .direct key)
  | .called (.setResidency key residency) => (s.setResidency key residency, .over)
  | .called (.clearQuarantine key) => (s.clearQuarantine key, .over)
  | .waiting rq => s.wake rq a.now
  | .downloading d p => if a.panics then (s, .unwinding d.request.key) else s.download d a p
  | .unwinding key => (s.release key, .over)
  | .concluded rq outcome => (s.release rq.key, .released rq outcome)
  | .released rq outcome =>
      match outcome with
      | .ok r => (s, .choosing (some r))
      | .error (.integrity _) => (s.quarantine rq.key, .over)
      | .error _ => (s, .over)
  | .choosing returning =>
      match s.victim returning a.victim with
      | none => (s, .over)
      | some key => (s, .removing (.lowWatermark returning) key)
  | .removing ev key =>
      match s.find key with
      | none => (s, afterEvict ev)
      | some r => (s.remove key, .probingLeaf ev key r.path)
  | .probingLeaf ev key path =>
      if (s.disk path).isSome then (s, .deleting ev key path) else (s, afterEvict ev)
  | .deleting ev _ path =>
      match s.disk path, a.fault with
      | some _, none => (s.put path none, afterEvict ev)
      | some _, some left => (s.put path left, .over)
      | none, _ => (s, .over)
  | .over => (s, .over)

end

def setThread (s : L1State) (i : ℕ) (p : CachePhase) : L1State :=
  { s with threads := s.threads.set i p }

inductive CacheEvent where
  | begins (call : CacheCall)
  | act (i : ℕ) (a : CacheAnswer)

def step [DebugText] [Sha256] [ManifestText] (s : L1State) : CacheEvent → L1State
  | .begins call => { s with threads := s.threads ++ [.called call] }
  | .act i a =>
      match s.threads[i]? with
      | some p => (s.advance a p).1.setThread i (s.advance a p).2
      | none => s

/-- A new cache over whatever is on the disk. -/
def start (budget : CacheBudget) (disk : String → Option Dir) : L1State :=
  ⟨budget, [], [], [], disk, [], [], fun _ => []⟩

end L1State
end Munarium

import Munarium.Lib.GuardedRun
import Munarium.Retrieval.SourceTable

/-! Puts of one path that interleave between their steps: the prior row is read, the bytes are
written, and then the row. Nothing orders the two writes of different calls. -/
namespace Munarium

/-- Where a put stands. -/
inductive PutPhase where
  | priorRead (r : PutSource) (k : SourceKey)
  | bytesWrite (r : PutSource) (k : SourceKey) (prior : Option String)
  | rowWrite (r : PutSource) (k : SourceKey) (prior : Option String)
  | done (answer : Result PutAnswer)

/-- A table and the puts on it, in the order in which they were called. -/
structure PutRace where
  table : SourceTable
  calls : List PutPhase := []

def PutPhase.isDone : PutPhase → Bool
  | .done _ => true
  | _ => false

section
variable [Sha256]

namespace PutPhase

def start (tenant : String) (r : PutSource) : PutPhase :=
  match r.key tenant with
  | .error e => .done (.error e)
  | .ok k => .priorRead r k

def next (t : SourceTable) : PutPhase → PutPhase × SourceTable
  | .priorRead r k => (.bytesWrite r k (t.priorHash k.sourceId), t)
  | .bytesWrite r k prior => (.rowWrite r k prior, t.writeBytes k r.bytes)
  | .rowWrite r k prior => (.done (.ok (PutSource.answer k prior)), t.writeRow (r.row k))
  | .done answer => (.done answer, t)

/-- An accepted put whose three steps are not interrupted is `put_source`. -/
theorem next_next_next {tenant : String} {r : PutSource} {k : SourceKey}
    (hk : r.key tenant = .ok k) (t : SourceTable) :
    let first := (start tenant r).next t
    let second := first.1.next first.2
    let third := second.1.next second.2
    ∃ answer, third.1 = .done (.ok answer) ∧ t.putSource tenant r = .ok (answer, third.2) := by
  refine ⟨PutSource.answer k (t.priorHash k.sourceId), ?_, ?_⟩
  · simp only [start, hk, next]
  · simp only [start, hk, next, SourceTable.putSource, bind, Except.bind]
    rfl

end PutPhase

namespace PutRace

inductive Event where
  | start (r : PutSource)
  | advance (i : ℕ)

/-- Every put names the one path. A call that has answered makes no further step. -/
def step (tenant path : String) (s : PutRace) : Event → PutRace
  | .start r => { s with calls := s.calls ++ [.start tenant { r with filename := path }] }
  | .advance i =>
      match s.calls[i]? with
      | some p => { table := (p.next s.table).2, calls := s.calls.set i (p.next s.table).1 }
      | none => s

def Quiescent (s : PutRace) : Prop := ∀ p ∈ s.calls, p.isDone

instance (s : PutRace) : Decidable s.Quiescent :=
  inferInstanceAs (Decidable (∀ p ∈ s.calls, p.isDone))

/-- The path's row, if there is one, records the hash of the path's bytes. -/
def HashRecorded (tenant path : String) (t : SourceTable) : Prop :=
  ∀ row, t.rows.get? (sourceId tenant path) = some row →
    ∃ bytes, t.blobs.get? (SourceKey.blobName ⟨tenant, path, row.contentHash⟩) = some bytes ∧
      row.contentHash = sha256Hex bytes

/-- A call that writes its row finds its own bytes stored. -/
def OwnBytes (s : PutRace) : Event → Prop
  | .start _ => True
  | .advance i =>
      match s.calls[i]? with
      | some (.rowWrite r k _) => s.table.blobs.get? k.blobName = some r.bytes
      | _ => True

instance (s : PutRace) (e : Event) : Decidable (s.OwnBytes e) := by
  cases e with
  | start r => exact .isTrue trivial
  | advance i =>
    unfold OwnBytes
    simp only
    split <;> infer_instance

/-- The key of a call in flight is the path's, with the hash of the call's bytes. -/
def Keyed (tenant path : String) : PutPhase → Prop
  | .priorRead r k | .bytesWrite r k _ | .rowWrite r k _ =>
      k = ⟨tenant, path, sha256Hex r.bytes⟩
  | .done _ => True

/-- The row records the stored bytes' hash, or a call has still to write its row. -/
structure Sound (tenant path : String) (s : PutRace) : Prop where
  keyed : ∀ p ∈ s.calls, Keyed tenant path p
  recorded : HashRecorded tenant path s.table ∨ ∃ r k prior, .rowWrite r k prior ∈ s.calls

variable {tenant path : String} {s : PutRace}

theorem keyed_start (r : PutSource) :
    Keyed tenant path (.start tenant { r with filename := path }) := by
  rw [PutPhase.start]
  split
  · trivial
  · rename_i k hk
    exact (PutSource.key_eq_ok hk).2

theorem Keyed.next {p : PutPhase} (h : Keyed tenant path p) (t : SourceTable) :
    Keyed tenant path (p.next t).1 := by
  cases p with
  | priorRead r k => exact h
  | bytesWrite r k prior => exact h
  | rowWrite r k prior => trivial
  | done answer => trivial

omit [Sha256] in
/-- Another call's standing is not touched by a step. -/
theorem mem_set_of_ne {calls : List PutPhase} {i : ℕ} {p q p' : PutPhase}
    (hp : calls[i]? = some p) (hq : q ∈ calls) (hne : q ≠ p) : q ∈ calls.set i p' := by
  obtain ⟨j, hj⟩ := List.mem_iff_getElem?.mp hq
  have hij : i ≠ j := by
    rintro rfl
    exact hne (Option.some.inj (hj.symm.trans hp))
  exact List.mem_iff_getElem?.mpr ⟨j, by rw [List.getElem?_set_ne hij, hj]⟩

/-- A row written over its own bytes records their hash. -/
theorem hashRecorded_writeRow {t : SourceTable} {r : PutSource} {k : SourceKey}
    (hk : k = ⟨tenant, path, sha256Hex r.bytes⟩)
    (hbytes : t.blobs.get? k.blobName = some r.bytes) :
    HashRecorded tenant path (t.writeRow (r.row k)) := by
  subst hk
  intro row hrow
  rw [SourceTable.writeRow] at hrow
  simp only [PutSource.row, SourceKey.sourceId, SortedMap.get?_insert_self] at hrow
  obtain rfl := Option.some.inj hrow
  exact ⟨r.bytes, hbytes, rfl⟩

theorem Sound.start (hs : s.Sound tenant path) (r : PutSource) :
    (s.step tenant path (.start r)).Sound tenant path where
  keyed p hp := by
    rcases List.mem_append.mp hp with hp | hp
    · exact hs.keyed p hp
    · rw [List.mem_singleton.mp hp]
      exact keyed_start r
  recorded := by
    rcases hs.recorded with hrecorded | ⟨r', k, prior, hpending⟩
    · exact .inl hrecorded
    · exact .inr ⟨r', k, prior, List.mem_append_left _ hpending⟩

theorem Sound.advance (hs : s.Sound tenant path) {i : ℕ} (hok : s.OwnBytes (.advance i)) :
    (s.step tenant path (.advance i)).Sound tenant path := by
  cases hp : s.calls[i]? with
  | none =>
    have hsame : s.step tenant path (.advance i) = s := by simp only [step, hp]
    rw [hsame]
    exact hs
  | some p =>
    have hmem : p ∈ s.calls := List.mem_of_getElem? hp
    have hlt : i < s.calls.length := (List.getElem?_eq_some_iff.mp hp).1
    have hkeyed := hs.keyed p hmem
    have hstep : s.step tenant path (.advance i) =
        { table := (p.next s.table).2, calls := s.calls.set i (p.next s.table).1 } := by
      simp only [step, hp]
    rw [hstep]
    constructor
    · intro q hq
      rcases List.mem_or_eq_of_mem_set hq with hq | rfl
      · exact hs.keyed q hq
      · exact hkeyed.next s.table
    · cases p with
      | bytesWrite r k prior => exact .inr ⟨r, k, prior, List.mem_set hlt _⟩
      | rowWrite r k prior =>
        have hbytes : s.table.blobs.get? k.blobName = some r.bytes := by
          simpa only [OwnBytes, hp] using hok
        exact .inl (hashRecorded_writeRow hkeyed hbytes)
      | priorRead r k =>
        rcases hs.recorded with hrecorded | ⟨r', k', prior, hpending⟩
        · exact .inl hrecorded
        · exact .inr ⟨r', k', prior, mem_set_of_ne hp hpending (by simp)⟩
      | done answer =>
        rcases hs.recorded with hrecorded | ⟨r', k', prior, hpending⟩
        · exact .inl hrecorded
        · exact .inr ⟨r', k', prior, mem_set_of_ne hp hpending (by simp)⟩

/-- In every run in which each call that writes its row finds its own bytes stored, the path's
row records the hash of the path's bytes whenever no call is in flight. -/
theorem quiescent_hash_recorded {t₀ : SourceTable} (hstart : HashRecorded tenant path t₀)
    (hreach : Reached (step tenant path) OwnBytes { table := t₀ } s) (hquiet : s.Quiescent) :
    HashRecorded tenant path s.table := by
  have hsound : s.Sound tenant path := by
    apply hreach.invariant ⟨by simp, .inl hstart⟩
    intro s e hs hok
    cases e with
    | start r => exact hs.start r
    | advance i => exact hs.advance hok
  rcases hsound.recorded with hrecorded | ⟨r, k, prior, hpending⟩
  · exact hrecorded
  · exact absurd (hquiet _ hpending) (by simp [PutPhase.isDone])

end PutRace
end

section Runs
open PutRace

attribute [local instance] reversingSha256

def putLetter (letter : UInt8) : PutRace.Event := .start ⟨"", "text/plain", "a", none, [letter]⟩

/-- Two puts, the second one whole between the first one's writes. -/
def crossedPuts : List PutRace.Event :=
  [putLetter 97, putLetter 98, .advance 0, .advance 0, .advance 1, .advance 1, .advance 1,
    .advance 0]

/-- Two puts, one after the other. -/
def orderedPuts : List PutRace.Event :=
  [putLetter 97, .advance 0, .advance 0, .advance 0, putLetter 98, .advance 1, .advance 1,
    .advance 1]

theorem quiescent_hash_recorded_in_order :
    HashRecorded "t" "a" (orderedPuts.foldl (PutRace.step "t" "a") { table := {} }).table := by
  have hmeets : Meets (PutRace.step "t" "a") OwnBytes { table := {} } orderedPuts ∧
      Quiescent (orderedPuts.foldl (PutRace.step "t" "a") { table := {} }) := by decide +kernel
  have hstart : HashRecorded "t" "a" {} := by
    intro row hrow
    cases hrow
  exact quiescent_hash_recorded hstart (Reached.of_meets hmeets.1) hmeets.2

theorem crossed_puts_record_other_bytes :
    Function.Injective Sha256.digest ∧
      Reached (PutRace.step "t" "a") anyLabel { table := {} }
        (crossedPuts.foldl (PutRace.step "t" "a") { table := {} }) ∧
      (crossedPuts.foldl (PutRace.step "t" "a") { table := {} }).Quiescent ∧
      ¬HashRecorded "t" "a" (crossedPuts.foldl (PutRace.step "t" "a") { table := {} }).table := by
  obtain ⟨hquiet, hrow, hbytes⟩ :
      (crossedPuts.foldl (PutRace.step "t" "a") { table := {} }).Quiescent ∧
      (crossedPuts.foldl (PutRace.step "t" "a") { table := {} }).table.rows.get?
        (sourceId "t" "a") = some ⟨"src-612f74", "a", "61", "text/plain", none⟩ ∧
      (crossedPuts.foldl (PutRace.step "t" "a") { table := {} }).table.blobs.get?
        "t/a" = some [98] := by decide +kernel
  refine ⟨List.reverse_injective, Reached.of_labels _ _ _, hquiet, ?_⟩
  intro hrecorded
  obtain ⟨bytes, hstored, hhash⟩ := hrecorded _ hrow
  obtain rfl := Option.some.inj (hbytes.symm.trans hstored)
  exact absurd hhash (by decide +kernel)

end Runs
end Munarium

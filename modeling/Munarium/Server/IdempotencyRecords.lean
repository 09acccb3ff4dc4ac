import Mathlib.Logic.Function.Basic
import Munarium.Core.Types
import Munarium.Lib.PrefixRuns

/-! Idempotency records over runs of callers that check, execute and store in separate steps. The
table keeps the first record of a key; the memory store overwrites it. -/
namespace Munarium

inductive StorageMode where
  | memory
  | postgres
  deriving DecidableEq

structure IdemRecord where
  requestHash : String
  responseJson : String
  deriving DecidableEq

structure IdemRequest where
  tenant : String
  key : String
  requestHash : String
  deriving DecidableEq

namespace IdemRequest

def slot (c : IdemRequest) : String × String := (c.tenant, c.key)

/-- The record of a request with its response. -/
def recorded (c : IdemRequest) (response : String) : IdemRecord := ⟨c.requestHash, response⟩

end IdemRequest

abbrev IdemRecords := String × String → Option IdemRecord

def idemCheck (records : IdemRecords) (c : IdemRequest) : Result (Option String) :=
  match records c.slot with
  | some r =>
      if r.requestHash = c.requestHash then .ok (some r.responseJson)
      else .error .idempotencyMismatch
  | none => .ok none

/-- The insertion into the table keeps a record that is there; that into the map replaces it. -/
def idemStore (mode : StorageMode) (records : IdemRecords) (c : IdemRequest) (response : String) :
    IdemRecords :=
  match mode with
  | .memory => Function.update records c.slot (some (c.recorded response))
  | .postgres =>
      match records c.slot with
      | some _ => records
      | none => Function.update records c.slot (some (c.recorded response))

namespace Idempotency

/-- Where a caller stands. -/
inductive Phase where
  | idle
  | executing (c : IdemRequest)
  | responding (c : IdemRequest) (response : String)
  | ended

/-- The records, the callers, and the answers of the checks. -/
structure State where
  mode : StorageMode
  records : IdemRecords
  phase : ℕ → Phase
  answers : List (IdemRequest × Result (Option String))

/-- A command may fail, a caller may stop, and an insertion into the table may be lost. -/
inductive Action where
  | check (caller : ℕ) (c : IdemRequest)
  | execute (caller : ℕ) (outcome : Option String)
  | store (caller : ℕ) (lost : Bool)
  | stop (caller : ℕ)

def checked (c : IdemRequest) : Result (Option String) → Phase
  | .ok none => .executing c
  | _ => .ended

def executed (c : IdemRequest) : Option String → Phase
  | some response => .responding c response
  | none => .ended

namespace State

/-- No caller is under way. -/
def start (mode : StorageMode) (records : IdemRecords) : State :=
  ⟨mode, records, fun _ => .idle, []⟩

def move (s : State) (i : ℕ) (p : Phase) : State := { s with phase := Function.update s.phase i p }

def step (s : State) : Action → State
  | .check i c =>
      match s.phase i with
      | .idle =>
          let answer := idemCheck s.records c
          { s with answers := s.answers ++ [(c, answer)] }.move i (checked c answer)
      | _ => s
  | .execute i outcome =>
      match s.phase i with
      | .executing c => s.move i (executed c outcome)
      | _ => s
  | .store i lost =>
      match s.phase i with
      | .responding c response =>
          if lost && s.mode == .postgres then s.move i .ended
          else { s with records := idemStore s.mode s.records c response }.move i .ended
      | _ => s
  | .stop i => s.move i .ended

end State

/-- What is recorded in one state answers every check of a later one. -/
def Answers (s t : State) : Prop :=
  ∀ c r, s.records c.slot = some r → idemCheck t.records c =
    if r.requestHash = c.requestHash then .ok (some r.responseJson)
    else .error .idempotencyMismatch

/-- Two replays of one key are the same. -/
def SameReplays (s : State) : Prop :=
  ∀ c d a b, (c, .ok (some a)) ∈ s.answers → (d, .ok (some b)) ∈ s.answers → c.slot = d.slot →
    a = b

/-- A step of the memory store that meets no record of its key but its own. -/
def MeetsNoOther (s : State) : Action → Prop
  | .store i _ => ∀ c response r, s.phase i = .responding c response → s.mode = .memory →
      s.records c.slot = some r → r = c.recorded response
  | _ => True

/-- Records of one state are records of another. -/
def Keeps (s t : State) : Prop := ∀ slot r, s.records slot = some r → t.records slot = some r

theorem idemCheck_recorded {records : IdemRecords} {c : IdemRequest} {r : IdemRecord}
    (h : records c.slot = some r) : idemCheck records c =
      if r.requestHash = c.requestHash then .ok (some r.responseJson)
      else .error .idempotencyMismatch := by
  simp only [idemCheck, h]

theorem idemCheck_replay_iff {records : IdemRecords} {c : IdemRequest} {body : String} :
    idemCheck records c = .ok (some body) ↔ records c.slot = some (c.recorded body) := by
  unfold idemCheck
  cases hr : records c.slot with
  | none => simp
  | some r =>
    obtain ⟨hash, response⟩ := r
    by_cases hhash : hash = c.requestHash
    · simp [hhash, IdemRequest.recorded]
    · simp [hhash, IdemRequest.recorded]

/-- The checks of a later state answer by the records exactly where it keeps them. -/
theorem answers_iff_keeps (s t : State) : Answers s t ↔ Keeps s t := by
  constructor
  · intro h slot r hr
    have hanswer := h ⟨slot.1, slot.2, r.requestHash⟩ r hr
    rw [if_pos rfl] at hanswer
    exact idemCheck_replay_iff.mp hanswer
  · intro h c r hr
    exact idemCheck_recorded (h c.slot r hr)

theorem Keeps.refl (s : State) : Keeps s s := fun _ _ hr => hr

theorem Keeps.trans {s t u : State} (h : Keeps s t) (h' : Keeps t u) : Keeps s u :=
  fun slot r hr => h' slot r (h slot r hr)

theorem keeps_of_records {s t : State} (h : t.records = s.records) : Keeps s t :=
  fun _ _ hr => h ▸ hr

theorem keeps_update {s t : State} {slot : String × String} {r : IdemRecord}
    (h : t.records = Function.update s.records slot (some r)) :
    Keeps s t ↔ ∀ old, s.records slot = some old → old = r := by
  constructor
  · intro hkeeps old hold
    have hnew := hkeeps slot old hold
    rw [h, Function.update_self] at hnew
    exact (Option.some.inj hnew).symm
  · intro hsame other old hold
    rw [h]
    by_cases hslot : other = slot
    · subst hslot
      rw [Function.update_self, hsame old hold]
    · rw [Function.update_of_ne hslot]
      exact hold

/-- Everything a step can do to the records and to the answers. -/
inductive Stepped (s : State) (a : Action) (t : State) : Prop
  | moved (hrecords : t.records = s.records) (hanswers : t.answers = s.answers)
      (hstore : ∀ i lost c response, a = .store i lost → s.phase i = .responding c response →
        s.mode = .postgres)
  | checked {i : ℕ} {c : IdemRequest} (ha : a = .check i c) (hrecords : t.records = s.records)
      (hanswers : t.answers = s.answers ++ [(c, idemCheck s.records c)])
  | stored {i : ℕ} {lost : Bool} {c : IdemRequest} {response : String} (ha : a = .store i lost)
      (hphase : s.phase i = .responding c response)
      (hrecords : t.records = idemStore s.mode s.records c response)
      (hanswers : t.answers = s.answers)

theorem stepped (s : State) (a : Action) : Stepped s a (s.step a) := by
  cases a with
  | check i c =>
    cases hp : s.phase i with
    | idle =>
      simp only [State.step, hp]
      exact .checked rfl rfl rfl
    | executing | responding | ended =>
      simp only [State.step, hp]
      exact .moved rfl rfl fun _ _ _ _ h => by cases h
  | execute i outcome =>
    cases hp : s.phase i with
    | executing c =>
      simp only [State.step, hp]
      exact .moved rfl rfl fun _ _ _ _ h => by cases h
    | idle | responding | ended =>
      simp only [State.step, hp]
      exact .moved rfl rfl fun _ _ _ _ h => by cases h
  | stop i => exact .moved rfl rfl fun _ _ _ _ h => by cases h
  | store i lost =>
    cases hp : s.phase i with
    | responding c response =>
      simp only [State.step, hp]
      split_ifs with hlost
      · rw [Bool.and_eq_true, beq_iff_eq] at hlost
        exact .moved rfl rfl fun _ _ _ _ _ _ => hlost.2
      · exact .stored rfl hp rfl rfl
    | idle | executing | ended =>
      simp only [State.step, hp]
      apply Stepped.moved rfl rfl
      intro j lost' c' response' ha hresponding
      cases ha
      rw [hp] at hresponding
      cases hresponding

theorem keeps_idemStore_iff {s t : State} {c : IdemRequest} {response : String}
    (h : t.records = idemStore s.mode s.records c response) :
    Keeps s t ↔ (s.mode = .memory → ∀ r, s.records c.slot = some r → r = c.recorded response) := by
  cases hmode : s.mode with
  | memory =>
    rw [hmode] at h
    rw [keeps_update h]
    simp
  | postgres =>
    apply iff_of_true
    · rw [hmode] at h
      cases hr : s.records c.slot with
      | some r =>
        simp only [idemStore, hr] at h
        exact keeps_of_records h
      | none =>
        simp only [idemStore, hr] at h
        rw [keeps_update h]
        intro old hold
        rw [hr] at hold
        cases hold
    · intro hmemory
      cases hmemory

/-- A step keeps the records exactly where it is no store of the memory mode over another one. -/
theorem step_keeps_iff (s : State) (a : Action) : Keeps s (s.step a) ↔ MeetsNoOther s a := by
  cases stepped s a with
  | moved hrecords _ hstore =>
    apply iff_of_true (keeps_of_records hrecords)
    cases a with
    | store i lost =>
      intro c response r hphase hmode
      rw [hstore i lost c response rfl hphase] at hmode
      cases hmode
    | check | execute | stop => trivial
  | checked ha hrecords _ =>
    subst ha
    exact iff_of_true (keeps_of_records hrecords) trivial
  | @stored i lost c response ha hphase hrecords _ =>
    subst ha
    rw [keeps_idemStore_iff hrecords]
    constructor
    · intro h c' response' r hphase' hmode hr
      rw [hphase] at hphase'
      cases hphase'
      exact h hmode r hr
    · intro h hmode r hr
      exact h c response r hphase hmode hr

/-- Every replay so far was of a record that is there. -/
def Backed (s : State) : Prop :=
  ∀ c body, (c, .ok (some body)) ∈ s.answers → s.records c.slot = some (c.recorded body)

theorem Backed.step {s : State} (h : Backed s) {a : Action} (hkeeps : Keeps s (s.step a)) :
    Backed (s.step a) := by
  intro c body hmem
  cases stepped s a with
  | moved _ hanswers _ => exact hkeeps _ _ (h c body (hanswers ▸ hmem))
  | stored _ _ _ hanswers => exact hkeeps _ _ (h c body (hanswers ▸ hmem))
  | checked _ _ hanswers =>
    rw [hanswers] at hmem
    rcases List.mem_append.mp hmem with hold | hnew
    · exact hkeeps _ _ (h c body hold)
    · obtain ⟨rfl, hanswer⟩ := Prod.mk.inj (List.mem_singleton.mp hnew)
      exact hkeeps _ _ (idemCheck_replay_iff.mp hanswer.symm)

theorem Backed.sameReplays {s : State} (h : Backed s) : SameReplays s := by
  intro c d a b hc hd hslot
  have hboth := (h c a hc).symm.trans (hslot ▸ h d b hd)
  exact congrArg IdemRecord.responseJson (Option.some.inj hboth)

/-- Records are write-once, and replays of a key the same, exactly where no store of the memory
mode meets another record of its key. -/
theorem records_write_once_iff (mode : StorageMode) (records : IdemRecords)
    (actions : List Action) :
    ((∀ m n, m ≤ n → Answers (PrefixRun.stateAt State.step (.start mode records) actions m)
        (PrefixRun.stateAt State.step (.start mode records) actions n)) ∧
      ∀ n, SameReplays (PrefixRun.stateAt State.step (.start mode records) actions n)) ↔
      ∀ n a, actions[n]? = some a →
        MeetsNoOther (PrefixRun.stateAt State.step (.start mode records) actions n) a := by
  have hkeeps := @PrefixRun.stateAt_related_iff _ _ State.step (.start mode records) actions Keeps
    Keeps.refl fun _ _ _ => Keeps.trans
  simp only [answers_iff_keeps, hkeeps, step_keeps_iff]
  constructor
  · intro h
    exact h.1
  · intro h
    refine ⟨h, fun n => Backed.sameReplays ?_⟩
    apply PrefixRun.stateAt_invariant
    · intro c body hmem
      cases hmem
    · intro k a hk hbacked
      exact hbacked.step ((step_keeps_iff _ _).mpr (h k a hk))

/-- Two callers of one key, with two requests. -/
def racing : List Action :=
  [.check 0 ⟨"t", "k", "h0"⟩, .check 1 ⟨"t", "k", "h1"⟩, .execute 0 (some "first"),
    .execute 1 (some "second"), .store 0 false, .store 1 false]

/-- The memory store answers with the second caller's record, where it had the first one's. -/
theorem second_store_overwrites :
    ¬ ∀ (mode : StorageMode) (records : IdemRecords) (actions : List Action) (m n : ℕ), m ≤ n →
      Answers (PrefixRun.stateAt State.step (.start mode records) actions m)
        (PrefixRun.stateAt State.step (.start mode records) actions n) := by
  intro h
  have hanswer := h .memory (fun _ => none) racing 5 6 (by decide) ⟨"t", "k", "h0"⟩
    ⟨"h0", "first"⟩ (by decide)
  revert hanswer
  decide

end Idempotency
end Munarium

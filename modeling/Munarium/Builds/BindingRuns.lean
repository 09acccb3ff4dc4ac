import Munarium.Builds.Bindings
import Munarium.Lib.GuardedRun
import Munarium.Lib.Positions

/-! Every interleaving of the binding transactions of one version. An insert or a rebind takes
one row and is one step; a promotion reads `serving` and locks it where it exists, then locks
`staged` and checks, then writes. A slot's changes and restarts are counted beside the rows. -/
namespace Munarium
open Positions

/-- What a caller read off a slot, with the slot's counts at that time. -/
structure BindingRead where
  slot : BindingSlot
  binding : Option Binding
  changes : ℕ
  restart : ℕ

/-- The arguments of a promotion: the reads that it takes its generations from. -/
structure Promotion where
  staged : BindingRead
  serving : BindingRead
  actor : String
  reason : Option String

/-- Where a promotion stands. `seen` is the serving row it read, and its snapshot of `staged`
is the row of one restart. -/
inductive PromotionPhase where
  | snapshot (p : Promotion) (seen : Option Binding) (stagedSeen : Bool) (restart : ℕ)
  | locked (p : Promotion) (seen : Option Binding) (row : Binding)
  | done (answer : Result Binding)

namespace PromotionPhase

def holdsServing : PromotionPhase → Bool
  | snapshot _ seen _ _ | locked _ seen _ => seen.isSome
  | done _ => false

def holdsStaged : PromotionPhase → Bool
  | locked _ _ _ => true
  | _ => false

end PromotionPhase

/-- `changes` counts a slot's changes; `restart` is that count after its last deletion. -/
structure BindingSystem where
  table : Bindings := {}
  reads : List BindingRead := []
  promotions : List PromotionPhase := []
  changes : BindingSlot → ℕ := fun _ => 0
  restart : BindingSlot → ℕ := fun _ => 0

inductive BindingCall where
  | artifact (id : String) (state : ArtifactState)
  | read (slot : BindingSlot)
  | bindNew (slot : BindingSlot) (artifactId selectedBy : String) (reason : Option String)
  | rebind (read : ℕ) (artifactId selectedBy : String) (reason : Option String)
  | promote (staged serving : ℕ) (actor : String) (reason : Option String)
  | advance (i : ℕ)

namespace BindingSystem

/-- The table after a committed transaction, with the counts of what it changed. -/
def moveTo (t : Bindings) (s : BindingSystem) : BindingSystem :=
  { s with
    table := t
    changes := fun slot =>
      if t.rows slot = s.table.rows slot then s.changes slot else s.changes slot + 1
    restart := fun slot =>
      if (s.table.rows slot).isSome ∧ t.rows slot = none then s.changes slot + 1
      else s.restart slot }

/-- A rebind waits for a promotion that holds its row. -/
def rebindWaits (slot : BindingSlot) (s : BindingSystem) : Bool :=
  slot == .staged && s.promotions.any PromotionPhase.holdsStaged

/-- Where the checks leave a promotion that has its locks. -/
def check (version : String) (p : Promotion) (seen staged : Option Binding)
    (s : BindingSystem) : PromotionPhase :=
  match s.table.promotable version staged seen (generationOf p.staged.binding)
      (generationOf p.serving.binding) with
  | .error e => .done (.error e)
  | .ok row => .locked p seen row

def advance (version : String) (i : ℕ) (s : BindingSystem) : BindingSystem :=
  match s.promotions[i]? with
  | some (.snapshot p seen stagedSeen restart) =>
      let staged := if stagedSeen && s.restart .staged == restart then s.table.rows .staged
        else none
      if staged.isSome && s.promotions.any PromotionPhase.holdsStaged then s
      else { s with promotions := s.promotions.set i (s.check version p seen staged) }
  | some (.locked p seen row) =>
      let answer := s.table.promoted row seen p.actor p.reason
      { s.moveTo answer.2 with promotions := s.promotions.set i (.done (.ok answer.1)) }
  | _ => s

def step (version : String) (s : BindingSystem) : BindingCall → BindingSystem
  | .artifact id state =>
      { s with table := { s.table with
          artifacts := Function.update s.table.artifacts id (some state) } }
  | .read slot => { s with
      reads := s.reads ++ [⟨slot, s.table.rows slot, s.changes slot, s.restart slot⟩] }
  | .bindNew slot artifactId selectedBy reason =>
      match s.table.bindNew version slot artifactId selectedBy reason with
      | .ok (_, t) => s.moveTo t
      | .error _ => s
  | .rebind i artifactId selectedBy reason =>
      match s.reads[i]? with
      | none => s
      | some r =>
          if s.rebindWaits r.slot then s
          else
            match s.table.rebind version r.slot artifactId (generationOf r.binding) selectedBy
                reason with
            | .ok (_, t) => s.moveTo t
            | .error _ => s
  | .promote i j actor reason =>
      match s.reads[i]?, s.reads[j]? with
      | some staged, some serving =>
          if staged.slot = .staged ∧ serving.slot = .serving ∧
              ¬((s.table.rows .serving).isSome ∧
                s.promotions.any PromotionPhase.holdsServing) then
            { s with promotions := s.promotions ++ [.snapshot ⟨staged, serving, actor, reason⟩
                (s.table.rows .serving) (s.table.rows .staged).isSome (s.restart .staged)] }
          else s
      | _, _ => s
  | .advance i => s.advance version i

/-- A promotion that read `serving` empty writes it while it is empty. -/
def KeepsEmpty (s : BindingSystem) : BindingCall → Prop
  | .advance i => ∀ p row, s.promotions[i]? = some (.locked p none row) →
      s.table.rows .serving = none
  | _ => True

def Unchanged (s : BindingSystem) (r : BindingRead) : Prop := s.changes r.slot = r.changes

instance {s : BindingSystem} {r : BindingRead} : Decidable (s.Unchanged r) :=
  inferInstanceAs (Decidable (_ = _))

/-- The step commits what the call writes. -/
inductive Committed (version : String) (s : BindingSystem) : BindingCall → Prop
  | bindNew {slot : BindingSlot} {artifactId selectedBy : String} {reason : Option String}
      {answer : Binding × Bindings}
      (h : s.table.bindNew version slot artifactId selectedBy reason = .ok answer) :
      Committed version s (.bindNew slot artifactId selectedBy reason)
  | rebind {i : ℕ} {r : BindingRead} {artifactId selectedBy : String} {reason : Option String}
      {answer : Binding × Bindings} (hread : s.reads[i]? = some r)
      (hwaits : s.rebindWaits r.slot = false)
      (h : s.table.rebind version r.slot artifactId (generationOf r.binding) selectedBy reason =
        .ok answer) : Committed version s (.rebind i artifactId selectedBy reason)
  | promote {i : ℕ} {p : Promotion} {seen : Option Binding} {row : Binding}
      (h : s.promotions[i]? = some (.locked p seen row)) : Committed version s (.advance i)

/-- No binding that the call goes by has changed since it was read. -/
def Fresh (s : BindingSystem) : BindingCall → Prop
  | .rebind i _ _ _ => ∀ r, s.reads[i]? = some r → s.Unchanged r
  | .advance i => ∀ p seen row, s.promotions[i]? = some (.locked p seen row) →
      s.Unchanged p.staged ∧ s.Unchanged p.serving
  | _ => True

/-- No slot that the call goes by was emptied since it was read, and a `serving` that a
promotion found empty is. -/
def NotRestarted (s : BindingSystem) : BindingCall → Prop
  | .rebind i _ _ _ => ∀ r, s.reads[i]? = some r → s.restart r.slot = r.restart
  | .advance i => ∀ p seen row, s.promotions[i]? = some (.locked p seen row) →
      s.restart .staged = p.staged.restart ∧ (seen = none → s.table.rows .serving = none)
  | _ => True

/-- The row that a step puts in `serving` was bound there, or was in `staged` until then. -/
def ServingFrom (s : BindingSystem) (call : BindingCall) (b : Binding) : Prop :=
  (∃ selectedBy reason, call = .bindNew .serving b.artifactId selectedBy reason) ∨
    ∃ i staged, call = .advance i ∧ s.table.rows .staged = some staged ∧
      staged.artifactId = b.artifactId

/-- What a call may do to the bindings of a reached state. -/
structure CallRight (version : String) (s : BindingSystem) (call : BindingCall) : Prop where
  fresh : s.Committed version call → (s.Fresh call ↔ s.NotRestarted call)
  generation : (s.step version call).table.rows .serving ≠ s.table.rows .serving →
    (generationOf ((s.step version call).table.rows .serving) =
      generationOf (s.table.rows .serving) + 1 ↔ s.KeepsEmpty call)
  origin : (s.step version call).table.rows .serving ≠ s.table.rows .serving →
    ∃ b, (s.step version call).table.rows .serving = some b ∧ s.ServingFrom call b
  failed : ¬s.Committed version call →
    (s.step version call).table.rows = s.table.rows ∧
      (s.step version call).table.events = s.table.events

/-- A read's counts stand to its slot's as generations do within one restart. -/
structure ReadSound (s : BindingSystem) (r : BindingRead) : Prop where
  counted : generationOf r.binding + r.restart = r.changes
  before : r.restart ≤ s.restart r.slot

/-- What a promotion in flight relies on: the locks keep the rows that it read. -/
def PhaseSound (s : BindingSystem) : PromotionPhase → Prop
  | .snapshot p seen _ _ => p.staged.slot = .staged ∧ p.serving.slot = .serving ∧
      p.staged ∈ s.reads ∧ p.serving ∈ s.reads ∧
      (seen.isSome → s.table.rows .serving = seen)
  | .locked p seen row => p.staged.slot = .staged ∧ p.serving.slot = .serving ∧
      p.staged ∈ s.reads ∧ p.serving ∈ s.reads ∧
      (seen.isSome → s.table.rows .serving = seen) ∧ s.table.rows .staged = some row ∧
      row.generation = generationOf p.staged.binding ∧
      generationOf seen = generationOf p.serving.binding
  | .done _ => True

structure Sound (s : BindingSystem) : Prop where
  counted : ∀ slot, generationOf (s.table.rows slot) + s.restart slot = s.changes slot
  positive : ∀ slot b, s.table.rows slot = some b → 0 < b.generation
  kept : ∀ slot, slot ≠ .staged → s.restart slot = 0
  read : ∀ r ∈ s.reads, s.ReadSound r
  phase : ∀ (i : ℕ) p, s.promotions[i]? = some p → s.PhaseSound p
  stagedLock : ∀ (i j : ℕ) p q, s.promotions[i]? = some p → s.promotions[j]? = some q →
    p.holdsStaged → q.holdsStaged → i = j
  servingLock : ∀ (i j : ℕ) p q, s.promotions[i]? = some p → s.promotions[j]? = some q →
    p.holdsServing → q.holdsServing → i = j

theorem sound_empty : ({} : BindingSystem).Sound where
  counted slot := rfl
  positive slot b h := by cases h
  kept slot _ := rfl
  read r h := by cases h
  phase i p h := by simp at h
  stagedLock i j p q h := by simp at h
  servingLock i j p q h := by simp at h

variable {version : String} {s : BindingSystem}

/-- A slot's row after a transaction: as before, one generation on, or `staged` taken away. -/
inductive RowChange (slot : BindingSlot) (old new : Option Binding) : Prop
  | same (h : new = old)
  | bumped {b : Binding} (h : new = some b) (hgeneration : b.generation = generationOf old + 1)
  | taken (hslot : slot = .staged) (hold : old.isSome) (h : new = none)

theorem RowChange.counted {slot : BindingSlot} {old new : Option Binding} {changes restart : ℕ}
    (h : RowChange slot old new) (hcounted : generationOf old + restart = changes) :
    generationOf new + (if old.isSome ∧ new = none then changes + 1 else restart) =
      if new = old then changes else changes + 1 := by
  cases h with
  | same h =>
    subst h
    cases new <;> simpa using hcounted
  | @bumped b h hgeneration =>
    subst h
    have hne : ¬some b = old := by
      rintro rfl
      simp [generationOf] at hgeneration
    rw [if_neg (by simp), if_neg hne]
    show b.generation + restart = changes + 1
    omega
  | taken _ hold h =>
    subst h
    rw [if_pos ⟨hold, rfl⟩, if_neg (by rintro rfl; cases hold)]
    simp [generationOf]

/-- A transaction that changes no row another one holds keeps a sound system. -/
theorem Sound.moveTo (hs : s.Sound) {t : Bindings}
    (hrows : ∀ slot, RowChange slot (s.table.rows slot) (t.rows slot))
    (hstaged : t.rows .staged ≠ s.table.rows .staged →
      ∀ (i : ℕ) p, s.promotions[i]? = some p → p.holdsStaged = false)
    (hserving : t.rows .serving ≠ s.table.rows .serving →
      ∀ (i : ℕ) p, s.promotions[i]? = some p → p.holdsServing = false) :
    (s.moveTo t).Sound where
  counted slot := (hrows slot).counted (hs.counted slot)
  positive slot b hb := by
    have hb' : t.rows slot = some b := hb
    cases hrows slot with
    | same h => exact hs.positive slot b (h ▸ hb')
    | bumped h hgeneration =>
      rw [h] at hb'
      obtain rfl := Option.some.inj hb'
      omega
    | taken _ _ h =>
      rw [h] at hb'
      cases hb'
  kept slot hslot := by
    show (if (s.table.rows slot).isSome ∧ t.rows slot = none then _ else s.restart slot) = 0
    rw [if_neg, hs.kept slot hslot]
    rintro ⟨hsome, hnone⟩
    cases hrows slot with
    | same h =>
      rw [← h, hnone] at hsome
      cases hsome
    | bumped h _ =>
      rw [h] at hnone
      cases hnone
    | taken hstaged _ _ => exact hslot hstaged
  read r hr := by
    obtain ⟨hcounted, hbefore⟩ := hs.read r hr
    refine ⟨hcounted, ?_⟩
    have hle := hs.counted r.slot
    show r.restart ≤ if (s.table.rows r.slot).isSome ∧ t.rows r.slot = none
      then s.changes r.slot + 1 else s.restart r.slot
    split_ifs
    · omega
    · exact hbefore
  phase i p hp := by
    have hphase := hs.phase i p hp
    cases p with
    | snapshot p seen stagedSeen restart =>
      obtain ⟨h₁, h₂, h₃, h₄, hseen⟩ := hphase
      refine ⟨h₁, h₂, h₃, h₄, fun hsome => ?_⟩
      by_contra hne
      have hfree := hserving (fun heq => hne (heq.trans (hseen hsome))) i _ hp
      exact absurd (hfree.symm.trans hsome) (by decide)
    | locked p seen row =>
      obtain ⟨h₁, h₂, h₃, h₄, hseen, hrow, h₅, h₆⟩ := hphase
      refine ⟨h₁, h₂, h₃, h₄, fun hsome => ?_, ?_, h₅, h₆⟩
      · by_contra hne
        have hfree := hserving (fun heq => hne (heq.trans (hseen hsome))) i _ hp
        exact absurd (hfree.symm.trans hsome) (by decide)
      · by_contra hne
        have hfree := hstaged (fun heq => hne (heq.trans hrow)) i _ hp
        exact absurd hfree (by simp [PromotionPhase.holdsStaged])
    | done answer => trivial
  stagedLock := hs.stagedLock
  servingLock := hs.servingLock

theorem Sound.addRead (hs : s.Sound) (slot : BindingSlot) : Sound { s with
    reads := s.reads ++ [⟨slot, s.table.rows slot, s.changes slot, s.restart slot⟩] } where
  counted := hs.counted
  positive := hs.positive
  kept := hs.kept
  read r hr := by
    rcases List.mem_append.mp hr with hr | hr
    · exact ⟨(hs.read r hr).counted, (hs.read r hr).before⟩
    · obtain rfl := List.mem_singleton.mp hr
      exact ⟨hs.counted slot, le_refl _⟩
  phase i p hp := by
    have hphase := hs.phase i p hp
    cases p with
    | snapshot p seen stagedSeen restart =>
      obtain ⟨h₁, h₂, h₃, h₄, hseen⟩ := hphase
      exact ⟨h₁, h₂, List.mem_append_left _ h₃, List.mem_append_left _ h₄, hseen⟩
    | locked p seen row =>
      obtain ⟨h₁, h₂, h₃, h₄, hrest⟩ := hphase
      exact ⟨h₁, h₂, List.mem_append_left _ h₃, List.mem_append_left _ h₄, hrest⟩
    | done answer => trivial
  stagedLock := hs.stagedLock
  servingLock := hs.servingLock

/-- A promotion moves on: its standing is sound, and it takes no lock that another one has. -/
theorem Sound.setPhase (hs : s.Sound) {i : ℕ} {p q : PromotionPhase}
    (hp : s.promotions[i]? = some p) (hq : s.PhaseSound q)
    (hstaged : q.holdsStaged → ∀ (j : ℕ) p', j ≠ i → s.promotions[j]? = some p' →
      p'.holdsStaged = false)
    (hserving : q.holdsServing → p.holdsServing) :
    Sound { s with promotions := s.promotions.set i q } where
  counted := hs.counted
  positive := hs.positive
  kept := hs.kept
  read r hr := ⟨(hs.read r hr).counted, (hs.read r hr).before⟩
  phase j p' hp' := by
    rcases getElem?_set_cases hp' with ⟨-, rfl⟩ | ⟨-, hp'⟩
    · cases p' <;> exact hq
    · have hphase := hs.phase j p' hp'
      cases p' <;> exact hphase
  stagedLock j k p₁ p₂ h₁ h₂ hold₁ hold₂ := by
    rcases getElem?_set_cases h₁ with ⟨rfl, rfl⟩ | ⟨hne₁, hold₁'⟩
    · rcases getElem?_set_cases h₂ with ⟨rfl, -⟩ | ⟨hne₂, hold₂'⟩
      · rfl
      · exact absurd (hold₂.symm.trans (hstaged hold₁ k p₂ hne₂ hold₂')) (by decide)
    · rcases getElem?_set_cases h₂ with ⟨rfl, rfl⟩ | ⟨hne₂, hold₂'⟩
      · exact absurd (hold₁.symm.trans (hstaged hold₂ j p₁ hne₁ hold₁')) (by decide)
      · exact hs.stagedLock j k p₁ p₂ hold₁' hold₂' hold₁ hold₂
  servingLock j k p₁ p₂ h₁ h₂ hold₁ hold₂ := by
    rcases getElem?_set_cases h₁ with ⟨rfl, rfl⟩ | ⟨hne₁, hold₁'⟩
    · rcases getElem?_set_cases h₂ with ⟨rfl, -⟩ | ⟨hne₂, hold₂'⟩
      · rfl
      · exact hs.servingLock j k p p₂ hp hold₂' (hserving hold₁) hold₂
    · rcases getElem?_set_cases h₂ with ⟨rfl, rfl⟩ | ⟨hne₂, hold₂'⟩
      · exact hs.servingLock j k p₁ p hold₁' hp hold₁ (hserving hold₂)
      · exact hs.servingLock j k p₁ p₂ hold₁' hold₂' hold₁ hold₂

theorem Sound.setDone (hs : s.Sound) {i : ℕ} {p : PromotionPhase}
    (hp : s.promotions[i]? = some p) (answer : Result Binding) :
    Sound { s with promotions := s.promotions.set i (.done answer) } := by
  have hdone : s.PhaseSound (.done answer) := trivial
  apply hs.setPhase hp hdone
  · intro hholds
    cases hholds
  · intro hholds
    cases hholds

/-- One row of a slot is filled or moved on, and no promotion holds it. -/
theorem Sound.write (hs : s.Sound) {slot : BindingSlot} {row : Binding} {t : Bindings}
    (hrows : t.rows = Function.update s.table.rows slot (some row))
    (hgeneration : row.generation = generationOf (s.table.rows slot) + 1)
    (hstaged : slot = .staged → ∀ (i : ℕ) p, s.promotions[i]? = some p →
      p.holdsStaged = false)
    (hserving : slot = .serving → ∀ (i : ℕ) p, s.promotions[i]? = some p →
      p.holdsServing = false) : (s.moveTo t).Sound := by
  apply hs.moveTo
  · intro other
    by_cases h : other = slot
    · subst h
      exact .bumped (by rw [hrows, Function.update_self]) hgeneration
    · exact .same (by rw [hrows, Function.update_of_ne h])
  · intro hne
    apply hstaged
    by_contra h
    exact hne (by rw [hrows, Function.update_of_ne (Ne.symm h)])
  · intro hne
    apply hserving
    by_contra h
    exact hne (by rw [hrows, Function.update_of_ne (Ne.symm h)])

/-- An empty slot is held by no promotion. -/
theorem Sound.empty_unheld (hs : s.Sound) {p : PromotionPhase} {i : ℕ}
    (hp : s.promotions[i]? = some p) :
    (s.table.rows .staged = none → p.holdsStaged = false) ∧
      (s.table.rows .serving = none → p.holdsServing = false) := by
  have hphase := hs.phase i p hp
  cases p with
  | snapshot p seen stagedSeen restart =>
    refine ⟨fun _ => rfl, fun hnone => ?_⟩
    obtain ⟨-, -, -, -, hseen⟩ := hphase
    cases seen with
    | none => rfl
    | some old => exact absurd (hnone.symm.trans (hseen rfl)) (by simp)
  | locked p seen row =>
    obtain ⟨-, -, -, -, hseen, hrow, -, -⟩ := hphase
    refine ⟨fun hnone => absurd (hnone.symm.trans hrow) (by simp), fun hnone => ?_⟩
    cases seen with
    | none => rfl
    | some old => exact absurd (hnone.symm.trans (hseen rfl)) (by simp)
  | done answer => exact ⟨fun _ => rfl, fun _ => rfl⟩

theorem Sound.bindNew (hs : s.Sound) {slot : BindingSlot} {artifactId selectedBy : String}
    {reason : Option String} {answer : Binding × Bindings}
    (h : s.table.bindNew version slot artifactId selectedBy reason = .ok answer) :
    (s.moveTo answer.2).Sound := by
  obtain ⟨hempty, hrow, hrows⟩ := Bindings.bindNew_ok h
  apply hs.write hrows
  · rw [hrow, hempty]
    rfl
  · rintro rfl i p hp
    exact (hs.empty_unheld hp).1 hempty
  · rintro rfl i p hp
    exact (hs.empty_unheld hp).2 hempty

theorem Sound.rebind (hs : s.Sound) {slot : BindingSlot} {artifactId selectedBy : String}
    {expected : ℕ} {reason : Option String} {answer : Binding × Bindings}
    (hwaits : ¬s.rebindWaits slot)
    (h : s.table.rebind version slot artifactId expected selectedBy reason = .ok answer) :
    (s.moveTo answer.2).Sound := by
  obtain ⟨hslot, hrow, hrows, old, hold, hgeneration⟩ := Bindings.rebind_ok h
  apply hs.write hrows
  · rw [hrow, hold]
    show expected + 1 = old.generation + 1
    rw [hgeneration]
  · rintro rfl i p hp
    by_contra hholds
    apply hwaits
    simp only [rebindWaits, beq_self_eq_true, Bool.true_and, List.any_eq_true]
    exact ⟨p, List.mem_of_getElem? hp, by simpa using hholds⟩
  · exact fun h => absurd h hslot

theorem Sound.promote (hs : s.Sound) {staged serving : BindingRead} {actor : String}
    {reason : Option String} (hstaged : staged ∈ s.reads) (hserving : serving ∈ s.reads)
    (hslots : staged.slot = .staged ∧ serving.slot = .serving)
    (hfree : ¬((s.table.rows .serving).isSome ∧
      s.promotions.any PromotionPhase.holdsServing)) :
    Sound { s with promotions := s.promotions ++ [.snapshot ⟨staged, serving, actor, reason⟩
      (s.table.rows .serving) (s.table.rows .staged).isSome (s.restart .staged)] } where
  counted := hs.counted
  positive := hs.positive
  kept := hs.kept
  read r hr := ⟨(hs.read r hr).counted, (hs.read r hr).before⟩
  phase i p hp := by
    rcases getElem?_append_cases hp with ⟨-, hp⟩ | ⟨-, rfl⟩
    · have hphase := hs.phase i p hp
      cases p <;> exact hphase
    · exact ⟨hslots.1, hslots.2, hstaged, hserving, fun _ => rfl⟩
  stagedLock i j p q hp hq hholdsp hholdsq := by
    rcases getElem?_append_cases hp with ⟨-, hp⟩ | ⟨-, rfl⟩
    · rcases getElem?_append_cases hq with ⟨-, hq⟩ | ⟨-, rfl⟩
      · exact hs.stagedLock i j p q hp hq hholdsp hholdsq
      · cases hholdsq
    · cases hholdsp
  servingLock i j p q hp hq hholdsp hholdsq := by
    have hunheld (k : ℕ) (r : PromotionPhase) (hr : s.promotions[k]? = some r)
        (hsome : (s.table.rows .serving).isSome) : ¬r.holdsServing := by
      intro hholds
      exact hfree ⟨hsome, List.any_eq_true.mpr ⟨r, List.mem_of_getElem? hr, hholds⟩⟩
    rcases getElem?_append_cases hp with ⟨-, hp⟩ | ⟨rfl, rfl⟩
    · rcases getElem?_append_cases hq with ⟨-, hq⟩ | ⟨-, rfl⟩
      · exact hs.servingLock i j p q hp hq hholdsp hholdsq
      · exact absurd hholdsp (hunheld i p hp hholdsq)
    · rcases getElem?_append_cases hq with ⟨-, hq⟩ | ⟨rfl, -⟩
      · exact absurd hholdsq (hunheld j q hq hholdsp)
      · rfl

/-- A promotion that finds `staged` locks it with its checks passed, or ends. -/
theorem Sound.lockStaged (hs : s.Sound) {i : ℕ} {p : Promotion} {seen : Option Binding}
    {stagedSeen : Bool} {restart : ℕ} {staged : Option Binding}
    (hp : s.promotions[i]? = some (.snapshot p seen stagedSeen restart))
    (hstaged : staged.isSome → staged = s.table.rows .staged)
    (hfree : ¬(staged.isSome && s.promotions.any PromotionPhase.holdsStaged)) :
    Sound { s with promotions := s.promotions.set i (s.check version p seen staged) } := by
  obtain ⟨h₁, h₂, h₃, h₄, hseen⟩ := hs.phase i _ hp
  simp only [check]
  split
  · exact hs.setDone hp _
  · rename_i row hcheck
    obtain ⟨rfl, hrow, hserving, -⟩ := Bindings.promotable_ok hcheck
    apply hs.setPhase hp
    · exact ⟨h₁, h₂, h₃, h₄, hseen, (hstaged rfl).symm, hrow, hserving⟩
    · intro _ j p' _ hp'
      by_contra hholds
      apply hfree
      simp only [Option.isSome_some, Bool.true_and, List.any_eq_true]
      exact ⟨p', List.mem_of_getElem? hp', by simpa using hholds⟩
    · exact id

/-- The writes of a promotion whose reading of `serving` stands. -/
theorem Sound.commit (hs : s.Sound) {i : ℕ} {p : Promotion} {seen : Option Binding}
    {row : Binding} (hp : s.promotions[i]? = some (.locked p seen row))
    (hkeeps : seen = none → s.table.rows .serving = none) {answer : Result Binding} :
    Sound { s.moveTo (s.table.promoted row seen p.actor p.reason).2 with
      promotions := s.promotions.set i (.done answer) } := by
  obtain ⟨-, -, -, -, hseen, hrow, -, -⟩ := hs.phase i _ hp
  have hserving : s.table.rows .serving = seen := by
    cases seen with
    | none => exact hkeeps rfl
    | some old => exact hseen rfl
  apply Sound.moveTo (hs.setDone hp answer)
  · intro slot
    cases slot with
    | staged => exact .taken rfl (by simp [hrow]) (Bindings.promoted_staged _ hrow)
    | shadow => exact .same (Bindings.promoted_shadow _ _)
    | serving =>
      apply RowChange.bumped (Bindings.promoted_serving _ _)
      show generationOf seen + 1 = generationOf (s.table.rows .serving) + 1
      rw [hserving]
  · intro _ j q hq
    rcases getElem?_set_cases hq with ⟨-, rfl⟩ | ⟨hne, hq⟩
    · rfl
    · by_contra hholds
      exact hne (hs.stagedLock j i q _ hq hp (by simpa using hholds) rfl)
  · intro _ j q hq
    rcases getElem?_set_cases hq with ⟨-, rfl⟩ | ⟨hne, hq⟩
    · rfl
    · by_contra hholds
      cases seen with
      | none => exact hholds ((hs.empty_unheld hq).2 hserving)
      | some old => exact hne (hs.servingLock j i q _ hq hp (by simpa using hholds) rfl)

theorem Sound.advance (hs : s.Sound) {i : ℕ} (hkeeps : s.KeepsEmpty (.advance i)) :
    (s.advance version i).Sound := by
  simp only [BindingSystem.advance]
  split
  · rename_i p seen stagedSeen restart hp
    split_ifs with hrestart hwaits hwaits
    · exact hs
    · exact hs.lockStaged hp (fun _ => rfl) hwaits
    · exact hs
    · exact hs.lockStaged hp (fun h => by cases h) hwaits
  · rename_i p seen row hp
    apply hs.commit hp
    rintro rfl
    exact hkeeps p row hp
  · exact hs

theorem Sound.step (hs : s.Sound) {call : BindingCall} (hkeeps : s.KeepsEmpty call) :
    (s.step version call).Sound := by
  cases call with
  | artifact id state =>
    exact ⟨hs.counted, hs.positive, hs.kept, fun r hr => ⟨(hs.read r hr).1, (hs.read r hr).2⟩,
      fun i p hp => by
        have hphase := hs.phase i p hp
        cases p <;> exact hphase, hs.stagedLock, hs.servingLock⟩
  | read slot => exact hs.addRead slot
  | bindNew slot artifactId selectedBy reason =>
    simp only [BindingSystem.step]
    split
    · rename_i t h
      exact hs.bindNew h
    · exact hs
  | rebind i artifactId selectedBy reason =>
    simp only [BindingSystem.step]
    split
    · exact hs
    · split_ifs with hwaits
      · exact hs
      · split
        · rename_i t h
          exact hs.rebind hwaits h
        · exact hs
  | promote i j actor reason =>
    simp only [BindingSystem.step]
    split
    · rename_i staged serving hstaged hserving
      split_ifs with h
      · exact hs.promote (List.mem_of_getElem? hstaged) (List.mem_of_getElem? hserving)
          ⟨h.1, h.2.1⟩ h.2.2
      · exact hs
    · exact hs
  | advance i => exact hs.advance hkeeps

/-- Equal generations of one slot are equal changes exactly where it was not restarted. -/
theorem Sound.unchanged_iff (hs : s.Sound) {r : BindingRead} (hr : r ∈ s.reads)
    (hgeneration : generationOf (s.table.rows r.slot) = generationOf r.binding) :
    s.Unchanged r ↔ s.restart r.slot = r.restart := by
  have hslot := hs.counted r.slot
  have hread := (hs.read r hr).counted
  simp only [Unchanged]
  omega

theorem Sound.fresh_iff (hs : s.Sound) {call : BindingCall} (h : s.Committed version call) :
    s.Fresh call ↔ s.NotRestarted call := by
  cases h with
  | bindNew _ => exact Iff.rfl
  | @rebind i r _ _ _ _ hread _ h =>
    obtain ⟨-, -, -, old, hold, hgeneration⟩ := Bindings.rebind_ok h
    have hiff := hs.unchanged_iff (List.mem_of_getElem? hread) (by rw [hold]; exact hgeneration)
    simp only [Fresh, NotRestarted, hread, Option.some.injEq, forall_eq']
    exact hiff
  | @promote i p seen row h =>
    obtain ⟨hstaged, hserving, hmemStaged, hmemServing, hseen, hrow, h₅, h₆⟩ := hs.phase i _ h
    have hiff : s.Unchanged p.staged ↔ s.restart .staged = p.staged.restart := by
      rw [← hstaged]
      apply hs.unchanged_iff hmemStaged
      rw [hstaged, hrow]
      exact h₅
    have hempty : s.Unchanged p.serving ↔ (seen = none → s.table.rows .serving = none) := by
      have hcounted := hs.counted .serving
      have hkept := hs.kept .serving (by decide)
      obtain ⟨hread, hbefore⟩ := hs.read _ hmemServing
      rw [hserving] at hbefore
      simp only [Unchanged, hserving]
      cases hnow : s.table.rows .serving with
      | none =>
        have hnone : seen = none := by
          by_contra hne
          have := hseen (Option.isSome_iff_ne_none.mpr hne)
          exact hne (this.symm.trans hnow)
        subst hnone
        rw [hnow] at hcounted
        simp only [generationOf, Option.map_none, Option.getD_none] at hcounted h₆ hread
        simp only [forall_const, iff_true]
        omega
      | some b =>
        have hpositive := hs.positive _ b hnow
        rw [hnow] at hcounted
        cases seen with
        | none =>
          simp only [generationOf, Option.map_some, Option.getD_some, Option.map_none,
            Option.getD_none] at hcounted h₆ hread
          simp only [forall_const, reduceCtorEq, iff_false]
          omega
        | some old =>
          obtain rfl := Option.some.inj (hnow.symm.trans (hseen rfl))
          simp only [reduceCtorEq, false_implies, iff_true]
          omega
    simp only [Fresh, NotRestarted, h, Option.some.injEq, PromotionPhase.locked.injEq]
    constructor
    · rintro hfresh _ _ _ ⟨rfl, rfl, rfl⟩
      exact ⟨hiff.mp (hfresh _ _ _ ⟨rfl, rfl, rfl⟩).1, hempty.mp (hfresh _ _ _ ⟨rfl, rfl, rfl⟩).2⟩
    · rintro hold _ _ _ ⟨rfl, rfl, rfl⟩
      exact ⟨hiff.mpr (hold _ _ _ ⟨rfl, rfl, rfl⟩).1, hempty.mpr (hold _ _ _ ⟨rfl, rfl, rfl⟩).2⟩

/-- A step whose call commits nothing leaves the table as it was, its artifacts apart. -/
theorem step_uncommitted {call : BindingCall} (h : ¬s.Committed version call) :
    (s.step version call).table.rows = s.table.rows ∧
      (s.step version call).table.events = s.table.events := by
  cases call with
  | artifact id state => exact ⟨rfl, rfl⟩
  | read slot => exact ⟨rfl, rfl⟩
  | bindNew slot artifactId selectedBy reason =>
    simp only [BindingSystem.step]
    split
    · rename_i hok
      exact absurd (.bindNew hok) h
    · exact ⟨rfl, rfl⟩
  | rebind i artifactId selectedBy reason =>
    simp only [BindingSystem.step]
    split
    · exact ⟨rfl, rfl⟩
    · rename_i r hread
      split_ifs with hwaits
      · exact ⟨rfl, rfl⟩
      · split
        · rename_i hok
          exact absurd (.rebind hread (by simpa using hwaits) hok) h
        · exact ⟨rfl, rfl⟩
  | promote i j actor reason =>
    simp only [BindingSystem.step]
    split
    · split_ifs <;> exact ⟨rfl, rfl⟩
    · exact ⟨rfl, rfl⟩
  | advance i =>
    simp only [BindingSystem.step, BindingSystem.advance]
    split
    · split_ifs <;> exact ⟨rfl, rfl⟩
    · rename_i hp
      exact absurd (.promote hp) h
    · exact ⟨rfl, rfl⟩

/-- What a committed call puts in `serving` where it changes it. -/
theorem Committed.serving {call : BindingCall} (h : s.Committed version call)
    (hchange : (s.step version call).table.rows .serving ≠ s.table.rows .serving) :
    (∃ artifactId selectedBy reason, call = .bindNew .serving artifactId selectedBy reason ∧
      s.table.rows .serving = none ∧
      (s.step version call).table.rows .serving = some ⟨artifactId, 1, selectedBy, reason⟩) ∨
    ∃ i p seen row, call = .advance i ∧ s.promotions[i]? = some (.locked p seen row) ∧
      (s.step version call).table.rows .serving =
        some ⟨row.artifactId, generationOf seen + 1, p.actor, p.reason⟩ := by
  cases h with
  | @bindNew slot artifactId selectedBy reason answer h =>
    obtain ⟨hempty, hrow, hrows⟩ := Bindings.bindNew_ok h
    have hstep : (s.step version (.bindNew slot artifactId selectedBy reason)).table.rows =
        Function.update s.table.rows slot (some answer.1) := by
      simp only [BindingSystem.step, h]
      exact hrows
    rw [hstep] at hchange ⊢
    have hslot : slot = .serving := by
      by_contra hne
      exact hchange (Function.update_of_ne (Ne.symm hne) _ _)
    subst hslot
    exact .inl ⟨artifactId, selectedBy, reason, rfl, hempty, by rw [Function.update_self, hrow]⟩
  | @rebind i r artifactId selectedBy reason answer hread hwaits h =>
    obtain ⟨hslot, -, hrows, -⟩ := Bindings.rebind_ok h
    apply absurd _ hchange
    have hstep : (s.step version (.rebind i artifactId selectedBy reason)).table.rows =
        Function.update s.table.rows r.slot (some answer.1) := by
      simp only [BindingSystem.step, hread, hwaits, Bool.false_eq_true, if_false, h]
      exact hrows
    rw [hstep, Function.update_of_ne (Ne.symm hslot)]
  | @promote i p seen row h =>
    apply Or.inr
    refine ⟨i, p, seen, row, rfl, h, ?_⟩
    simp only [BindingSystem.step, BindingSystem.advance, h]
    exact Bindings.promoted_serving row seen

theorem Sound.callRight (hs : s.Sound) (call : BindingCall) : s.CallRight version call where
  fresh := hs.fresh_iff
  failed := step_uncommitted
  origin hchange := by
    have hcommitted : s.Committed version call := by
      by_contra h
      exact hchange (congrFun (step_uncommitted h).1 _)
    rcases hcommitted.serving hchange with
      ⟨artifactId, selectedBy, reason, rfl, -, hrow⟩ | ⟨i, p, seen, row, rfl, hp, hrow⟩
    · exact ⟨_, hrow, .inl ⟨selectedBy, reason, rfl⟩⟩
    · obtain ⟨-, -, -, -, -, hstaged, -, -⟩ := hs.phase i _ hp
      exact ⟨_, hrow, .inr ⟨i, row, rfl, hstaged, rfl⟩⟩
  generation hchange := by
    have hcommitted : s.Committed version call := by
      by_contra h
      exact hchange (congrFun (step_uncommitted h).1 _)
    rcases hcommitted.serving hchange with
      ⟨artifactId, selectedBy, reason, rfl, hempty, hrow⟩ | ⟨i, p, seen, row, rfl, hp, hrow⟩
    · rw [hrow, hempty]
      simp [generationOf, KeepsEmpty]
    · obtain ⟨-, -, -, -, hseen, -, -, -⟩ := hs.phase i _ hp
      rw [hrow]
      show generationOf seen + 1 = _ ↔ _
      cases seen with
      | none =>
        simp only [KeepsEmpty, hp, Option.some.injEq, PromotionPhase.locked.injEq, true_and]
        cases hnow : s.table.rows .serving with
        | none => simp [generationOf]
        | some b =>
          have hpositive := hs.positive _ b hnow
          simp [generationOf]
          omega
      | some old =>
        rw [hseen rfl]
        simp [KeepsEmpty, hp]

/-- With no step between its own, a promotion is `promote_staged` as one transaction. -/
theorem promote_uninterrupted {i j : ℕ} {staged serving : BindingRead} {actor : String}
    {reason : Option String} (hstaged : s.reads[i]? = some staged)
    (hserving : s.reads[j]? = some serving)
    (hslots : staged.slot = .staged ∧ serving.slot = .serving)
    (hfree : s.promotions.any PromotionPhase.holdsServing = false)
    (hunlocked : s.promotions.any PromotionPhase.holdsStaged = false) :
    (([.promote i j actor reason, .advance s.promotions.length,
        .advance s.promotions.length] : List BindingCall).foldl (step version) s).table =
      match s.table.promoteStaged version (generationOf staged.binding)
          (generationOf serving.binding) actor reason with
      | .ok answer => answer.2
      | .error _ => s.table := by
  have hpromote : s.step version (.promote i j actor reason) = { s with
      promotions := s.promotions ++ [.snapshot ⟨staged, serving, actor, reason⟩
        (s.table.rows .serving) (s.table.rows .staged).isSome (s.restart .staged)] } := by
    simp only [BindingSystem.step, hstaged, hserving]
    rw [if_pos ⟨hslots.1, hslots.2, by simp [hfree]⟩]
  have hrow : (if (s.table.rows .staged).isSome && true then s.table.rows .staged else none) =
      s.table.rows .staged := by
    cases s.table.rows .staged <;> rfl
  simp only [List.foldl_cons, List.foldl_nil, hpromote]
  simp only [BindingSystem.step, BindingSystem.advance, List.getElem?_concat_length,
    beq_self_eq_true, hrow, List.any_append, hunlocked, List.any_cons, List.any_nil, Bool.or_false,
    PromotionPhase.holdsStaged, Bool.and_false, Bool.false_eq_true, if_false,
    Bindings.promoteStaged]
  cases hcheck : s.table.promotable version (s.table.rows .staged) (s.table.rows .serving)
      (generationOf staged.binding) (generationOf serving.binding) with
  | error e => simp [check, hcheck]
  | ok row => simp [check, hcheck, moveTo]

/-- In a run whose promotions never write over a binding that they did not see, what an accepted
rebind or promotion read is unchanged exactly where it was not emptied since; `serving` goes up by
one, from `staged` or an insert; and a call that fails changes nothing. -/
theorem binding_calls_right (h : Reached (step version) KeepsEmpty {} s) (call : BindingCall) :
    s.CallRight version call := by
  have hs : s.Sound := h.invariant sound_empty fun _ _ hs hkeeps => hs.step hkeeps
  exact hs.callRight call

/-- Three verified artifacts, `a` in `staged`, and both slots read. -/
def bindingStart : List BindingCall :=
  [.artifact "a" .verified, .artifact "b" .verified, .artifact "c" .verified,
    .bindNew .staged "a" "op" none, .read .staged, .read .serving]

/-- A promotion of `a` with its locks. -/
def promoting : List BindingCall := bindingStart ++ [.promote 0 1 "op" none, .advance 0]

/-- `a` is promoted and `b` takes its place at generation 1. -/
def restaged : List BindingCall := promoting ++ [.advance 0, .bindNew .staged "b" "op" none]

/-- A promotion of `b` by the read of `a`. -/
def repromoting : List BindingCall :=
  restaged ++ [.read .serving, .promote 0 2 "op" none, .advance 1]

/-- `b` is bound to `serving` after the promotion found it empty. -/
def boundUnder : List BindingCall := promoting ++ [.bindNew .serving "b" "op" none]

/-- A promotion whose reads stand. -/
theorem binding_calls_right_once :
    (promoting.foldl (step "v") {}).Committed "v" (.advance 0) ∧
      (promoting.foldl (step "v") {}).Fresh (.advance 0) ∧
      (promoting.foldl (step "v") {}).CallRight "v" (.advance 0) := by
  have hreached : Reached (step "v") KeepsEmpty {} (promoting.foldl (step "v") {}) := by
    apply Reached.of_meets
    exact ⟨trivial, trivial, trivial, trivial, trivial, trivial, trivial, fun _ _ _ => rfl, trivial⟩
  have hcommitted : (promoting.foldl (step "v") {}).Committed "v" (.advance 0) := .promote rfl
  have hright := binding_calls_right hreached (.advance 0)
  refine ⟨hcommitted, (hright.fresh hcommitted).mpr ?_, hright⟩
  intro p seen row h
  cases h
  exact ⟨rfl, fun _ => rfl⟩

/-- A slot's generation starts over: a rebind and a promotion go through on a read of the
binding that was there before. And a promotion writes over an insert that it did not see. -/
theorem restarted_generation_taken :
    ((restaged.foldl (step "v") {}).Committed "v" (.rebind 0 "c" "op" none) ∧
      ¬(restaged.foldl (step "v") {}).Fresh (.rebind 0 "c" "op" none)) ∧
    ((repromoting.foldl (step "v") {}).Committed "v" (.advance 1) ∧
      ¬(repromoting.foldl (step "v") {}).Fresh (.advance 1)) ∧
    ((boundUnder.foldl (step "v") {}).table.rows .serving = some ⟨"b", 1, "op", none⟩ ∧
      ((boundUnder.foldl (step "v") {}).step "v" (.advance 0)).table.rows .serving =
        some ⟨"a", 1, "op", none⟩) := by
  refine ⟨⟨.rebind rfl rfl rfl, fun h => ?_⟩, ⟨.promote rfl, fun h => ?_⟩, rfl, rfl⟩
  · have hsame := h _ rfl
    revert hsame
    decide +kernel
  · have hsame := (h _ _ _ rfl).1
    revert hsame
    decide +kernel

end BindingSystem
end Munarium

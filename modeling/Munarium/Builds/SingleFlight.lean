import Munarium.Builds.BuildEffects
import Munarium.Builds.MirrorPublished

/-! One build per plan. While leases are kept, claims are still alone when they are made, and
passes list while no build of their node has sealed, one artifact at most is verified, and no
pass touches the attempt of a build that runs. -/
namespace Munarium
open Positions

namespace World

/-- An attempt that a node's build has: the node's, with a lease that lasts while it is not over,
and not over while the build beats. -/
def Holds (w : World) (nodeId : String) (t : ℕ) (beating : Prop) : Prop :=
  ∃ a, w.attempts[t]? = some a ∧ a.ownerNodeId = nodeId ∧
    (a.state.isTerminal = false → w.now < a.leaseExpiresAt) ∧
    (beating → a.state.isTerminal = false)

variable {w w' : World} {nodeId : String} {t : ℕ} {beating : Prop}

theorem Holds.lt (h : w.Holds nodeId t beating) : t < w.attempts.length := by
  obtain ⟨a, ha, -⟩ := h
  exact (List.getElem?_eq_some_iff.mp ha).1

theorem Holds.imp {beating' : Prop} (h : w.Holds nodeId t beating) (hb : beating' → beating) :
    w.Holds nodeId t beating' := by
  obtain ⟨a, ha, howner, hlease, hrunning⟩ := h
  exact ⟨a, ha, howner, hlease, fun h => hrunning (hb h)⟩

theorem Holds.of_eq (h : w.Holds nodeId t beating) (hattempt : w'.attempts[t]? = w.attempts[t]?)
    (hnow : w'.now = w.now) : w'.Holds nodeId t beating := by
  obtain ⟨a, ha, howner, hlease, hrunning⟩ := h
  exact ⟨a, by rw [hattempt, ha], howner, by rwa [hnow], hrunning⟩

/-- The attempt of a build does not expire. -/
theorem Holds.getElem?_expireStale (h : w.Holds nodeId t beating) :
    w.expireStale.attempts[t]? = w.attempts[t]? := by
  obtain ⟨a, ha, -, hlease, -⟩ := h
  simp only [World.expireStale, Attempts.getElem?_expireStale, ha, Option.map_some,
    Option.some.injEq]
  rcases Attempts.expireOne_eq_or w.now a with heq | ⟨hrunning, hlapsed, -⟩
  · exact heq
  · have := hlease (by rw [hrunning]; rfl)
    omega

theorem Holds.expireStale (h : w.Holds nodeId t beating) :
    w.expireStale.Holds nodeId t beating :=
  h.of_eq h.getElem?_expireStale rfl

theorem getElem?_heartbeat {t' leaseSecs : ℕ} {owner : String}
    (h : w.heartbeat t' owner leaseSecs = some w') (hne : t ≠ t') :
    w'.attempts[t]? = w.attempts[t]? := by
  obtain ⟨a, -, -, -, rfl⟩ := heartbeat_ok h
  exact List.getElem?_set_ne hne.symm

theorem getElem?_transition {t' : ℕ} {next : AttemptState} {id : Option String}
    (h : w.transition t' next id = some w') (hne : t ≠ t') :
    w'.attempts[t]? = w.attempts[t]? := by
  obtain ⟨a, -, -, rfl⟩ := transition_ok h
  exact List.getElem?_set_ne hne.symm

end World

section
variable [Sha256] [ManifestJson] {site : Site} {w w' : World}

/-- A build's step leaves other builds' attempts alone. -/
theorem BuildEffect.getElem?_eq {b : MirrorBuild} {phase : BuildPhase} {nodeId : String} {t : ℕ}
    {beating : Prop} (h : BuildEffect site w b w' phase) (ht : b.phase.attempt ≠ some t)
    (hold : w.Holds nodeId t beating) : w'.attempts[t]? = w.attempts[t]? := by
  cases h with
  | same h => rw [h]
  | expired _ h =>
    rw [h]
    exact hold.getElem?_expireStale
  | claimed _ h =>
    obtain ⟨-, -, hinsert⟩ := Attempts.insertRunning_ok h
    rw [hinsert, List.getElem?_append_left hold.lt]
  | beat hb h => exact World.getElem?_heartbeat h (fun heq => ht (heq ▸ hb))
  | sealed hb _ h => exact World.getElem?_transition h (fun heq => ht (heq ▸ hb))
  | settled hb _ h => exact World.getElem?_transition h (fun heq => ht (heq ▸ hb))

/-- A build has its attempt from its claim on. -/
theorem BuildEffect.attempt {b : MirrorBuild} {phase : BuildPhase} {t : ℕ}
    (h : BuildEffect site w b w' phase) (ht : phase.attempt = some t) :
    b.phase.attempt = some t ∨ t = w.attempts.length ∧ b.phase = .claim := by
  cases h with
  | same _ hattempt =>
    rcases hattempt with hnone | hsame
    · rw [hnone] at ht
      cases ht
    · exact .inl (hsame ▸ ht)
  | expired => cases ht
  | claimed hb h =>
    cases ht
    exact .inr ⟨(Attempts.insertRunning_ok h).2.1, hb⟩
  | beat hb _ hattempt => exact .inl (hb.trans (hattempt.symm.trans ht))
  | sealed hb _ _ hattempt => exact .inl (hb.trans (hattempt.symm.trans ht))
  | settled hb _ _ hattempt => exact .inl (hb.trans (hattempt.symm.trans ht))

theorem BuildEffect.holds {b : MirrorBuild} {phase : BuildPhase} {t : ℕ}
    (h : BuildEffect site w b w' phase) (hnow : w'.now = w.now)
    (hold : ∀ t, b.phase.attempt = some t →
      w.Holds b.ctx.nodeId t (b.phase.beating = some t))
    (ht : phase.attempt = some t) : w'.Holds b.ctx.nodeId t (phase.beating = some t) := by
  cases h with
  | same h hattempt hbeating =>
    rcases hattempt with hnone | hsame
    · rw [hnone] at ht
      cases ht
    · apply ((hold t (hsame ▸ ht)).of_eq (by rw [h]) hnow).imp
      intro hbeat
      rcases hbeating with hnone | hsame
      · rw [hnone] at hbeat
        cases hbeat
      · exact hsame ▸ hbeat
  | expired => cases ht
  | claimed hb h =>
    cases ht
    obtain ⟨-, rfl, hinsert⟩ := Attempts.insertRunning_ok h
    refine ⟨_, by rw [hinsert, List.getElem?_concat_length], rfl, fun _ => ?_, fun _ => rfl⟩
    have hpos := site.leaseSecs_pos
    simp only [Attempts.started]
    omega
  | beat hb h hattempt hbeating =>
    obtain rfl := Option.some.inj (hattempt.symm.trans ht)
    obtain ⟨a, ha, howner, hterminal, rfl⟩ := World.heartbeat_ok h
    have hlt := (List.getElem?_eq_some_iff.mp ha).1
    refine ⟨_, List.getElem?_set_self hlt, howner, fun _ => ?_, fun _ => hterminal⟩
    have hpos := site.leaseSecs_pos
    simp only
    omega
  | sealed hb _ h hattempt _ =>
    obtain rfl := Option.some.inj (hattempt.symm.trans ht)
    obtain ⟨c, hc, howner, hlease, -⟩ := hold _ hb
    obtain ⟨a, ha, hterminal, rfl⟩ := World.transition_ok h
    obtain rfl := Option.some.inj (hc.symm.trans ha)
    have hlt := (List.getElem?_eq_some_iff.mp ha).1
    exact ⟨_, List.getElem?_set_self hlt, howner, fun _ => hlease hterminal, fun _ => rfl⟩
  | settled hb hnext h hattempt hbeating =>
    obtain rfl := Option.some.inj (hattempt.symm.trans ht)
    obtain ⟨c, hc, howner, -⟩ := hold _ hb
    obtain ⟨a, ha, -, rfl⟩ := World.transition_ok h
    obtain rfl := Option.some.inj (hc.symm.trans ha)
    have hlt := (List.getElem?_eq_some_iff.mp ha).1
    refine ⟨_, List.getElem?_set_self hlt, howner, fun hover => ?_, fun hbeat => ?_⟩
    · simp only [Attempts.moved] at hover
      rw [hnext] at hover
      cases hover
    · rw [hbeating] at hbeat
      cases hbeat

omit [Sha256] [ManifestJson] in
/-- A pass's step leaves the attempts of builds alone, but for those that it is at. -/
theorem PassEffect.getElem?_eq {p : Pass} {nodeId : String} {t : ℕ} {beating : Prop}
    (h : PassEffect w p w') (ht : p.phase.current ≠ some t) (hold : w.Holds nodeId t beating) :
    w'.attempts[t]? = w.attempts[t]? := by
  cases h with
  | same h => rw [h]
  | expired h =>
    rw [h]
    exact hold.getElem?_expireStale
  | settled hcurrent _ h => exact World.getElem?_transition h (fun heq => ht (heq ▸ hcurrent))

namespace Mirror

/-- Each build that has an attempt which is not over keeps its lease through the time. -/
def leasesKept (d : ℕ) (s : Mirror) : Bool :=
  s.builds.all fun b => (b.phase.attempt.bind fun t => s.world.attempts[t]?).all fun a =>
    a.state.isTerminal || decide (s.world.now + d < a.leaseExpiresAt)

/-- What a build checked before its claim holds at the claim, and no pass resumes an attempt. -/
def claimsAlone (s : Mirror) : Bool :=
  s.world.verifiedArtifact = none ∧ s.world.attempts.sealedForPlan s.world.now = none ∧
    s.passes.all fun p => (p.phase.resumable p.nodeId).isEmpty

/-- No build of the pass's node has a sealed attempt. -/
def listsIdle (s : Mirror) (p : Pass) : Bool :=
  s.builds.all fun b => b.ctx.nodeId ≠ p.nodeId ∨
    (b.phase.attempt.bind fun t => s.world.attempts[t]?).all fun a => a.state ≠ .sealed

/-- A claim that goes through, and a pass that lists, meet their conditions. -/
def singleFlight (s : Mirror) : MirrorEvent → Bool
  | .tick d => s.leasesKept d
  | .advanceBuild i => s.builds[i]?.all fun b =>
      match b.phase with
      | .claim => s.world.attempts.any (fun a => a.state = .running) || s.claimsAlone
      | _ => true
  | .advancePass i => s.passes[i]?.all fun p =>
      match p.phase with
      | .list => s.listsIdle p
      | _ => true
  | _ => true

/-- Each build has its attempt for itself, and passes have others. -/
structure Held (s : Mirror) : Prop where
  holds : ∀ (i : ℕ) b t, s.builds[i]? = some b → b.phase.attempt = some t →
    s.world.Holds b.ctx.nodeId t (b.phase.beating = some t)
  alone : ∀ (i j : ℕ) b c t, s.builds[i]? = some b → s.builds[j]? = some c →
    b.phase.attempt = some t → c.phase.attempt = some t → i = j
  free : ∀ (i : ℕ) p t, s.passes[i]? = some p → t ∈ p.phase.concerns p.nodeId →
    t < s.world.attempts.length ∧
      ∀ (j : ℕ) b, s.builds[j]? = some b → b.phase.attempt ≠ some t

theorem held_empty : ({} : Mirror).Held where
  holds i b t h := by simp at h
  alone i j b c t h := by simp at h
  free i p t h := by simp at h

variable {s s' : Mirror} {e : MirrorEvent}

theorem Held.tick (h : s.Held) {d : ℕ} (hkept : s.leasesKept d) :
    ({ s with world := { s.world with now := s.world.now + d } } : Mirror).Held where
  holds i b t hb ht := by
    obtain ⟨a, ha, howner, -, hrunning⟩ := h.holds i b t hb ht
    refine ⟨a, ha, howner, fun hover => ?_, hrunning⟩
    have hall := List.all_eq_true.mp hkept b (List.mem_of_getElem? hb)
    simpa [ht, ha, hover] using hall
  alone := h.alone
  free := h.free

theorem Held.onBuild (h : s.Held) {i : ℕ} {b : MirrorBuild} {w : World} {phase : BuildPhase}
    {leaseLost : Bool} (hb : s.builds[i]? = some b)
    (hmove : BuildMove site s.world b e i w phase) :
    ({ s with world := w }.setBuild i { b with phase, leaseLost }).Held := by
  obtain ⟨hnow, heffect, -⟩ := hmove.effect
  have hlength := hmove.later.length
  have hother (j : ℕ) (c : MirrorBuild) (t : ℕ) (hji : j ≠ i) (hc : s.builds[j]? = some c)
      (ht : c.phase.attempt = some t) :
      w.Holds c.ctx.nodeId t (c.phase.beating = some t) ∧ phase.attempt ≠ some t := by
    have hold := h.holds j c t hc ht
    have hne : b.phase.attempt ≠ some t := fun hbt => hji (h.alone j i c b t hc hb ht hbt)
    refine ⟨hold.of_eq (heffect.getElem?_eq hne hold) hnow, fun hphase => ?_⟩
    rcases heffect.attempt hphase with hbt | ⟨rfl, -⟩
    · exact hne hbt
    · exact absurd hold.lt (lt_irrefl _)
  refine ⟨?_, ?_, ?_⟩
  · intro j c t hc ht
    rcases getElem?_set_cases hc with ⟨-, rfl⟩ | ⟨hji, hc⟩
    · exact heffect.holds hnow (fun t ht => h.holds i b t hb ht) ht
    · exact (hother j c t hji hc ht).1
  · intro j k c d t hc hd htc htd
    rcases getElem?_set_cases hc with ⟨rfl, rfl⟩ | ⟨hji, hc'⟩
    · rcases getElem?_set_cases hd with ⟨rfl, -⟩ | ⟨hki, hd'⟩
      · rfl
      · exact absurd htc (hother k d t hki hd' htd).2
    · rcases getElem?_set_cases hd with ⟨rfl, rfl⟩ | ⟨-, hd'⟩
      · exact absurd htd (hother j c t hji hc' htc).2
      · exact h.alone j k c d t hc' hd' htc htd
  · intro k p t hp ht
    obtain ⟨hlt, hfree⟩ := h.free k p t hp ht
    refine ⟨hlt.trans_le hlength, fun j c hc hct => ?_⟩
    rcases getElem?_set_cases hc with ⟨-, rfl⟩ | ⟨-, hc⟩
    · rcases heffect.attempt hct with hbt | ⟨rfl, -⟩
      · exact hfree i b hb hbt
      · exact absurd hlt (lt_irrefl _)
    · exact hfree j c hc hct

/-- The attempts that a pass lists and will act on are no build's. -/
theorem Held.listed (h : s.Held) {p : Pass} (hidle : s.listsIdle p) {t : ℕ}
    (ht : t ∈ (PassPhase.rows
      (s.world.attempts.sealedAwaitingPublication s.world.now)).concerns p.nodeId) :
    t < s.world.attempts.length ∧
      ∀ (j : ℕ) b, s.builds[j]? = some b → b.phase.attempt ≠ some t := by
  obtain ⟨r, hr, rfl⟩ := List.mem_map.mp ht
  obtain ⟨hlisted, hours⟩ := List.mem_filter.mp hr
  obtain ⟨a, ha, hsealed, hrow⟩ := Attempts.mem_sealedAwaitingPublication.mp hlisted
  refine ⟨(List.getElem?_eq_some_iff.mp ha).1, fun j b hb hbt => ?_⟩
  obtain ⟨c, hc, howner, hlease, -⟩ := h.holds j b _ hb hbt
  obtain rfl := Option.some.inj (hc.symm.trans ha)
  have hlasts := hlease (by rw [hsealed]; rfl)
  have hexpired : r.leaseExpired = false := by
    rw [hrow]
    simp only [Attempts.toRow, Attempts.leaseExpired, decide_eq_false_iff_not]
    omega
  have hnode : b.ctx.nodeId = p.nodeId := by
    have hrowner : r.ownerNodeId = c.ownerNodeId := by rw [hrow]; rfl
    simpa [hexpired, hrowner, howner] using hours
  have hall := List.all_eq_true.mp hidle b (List.mem_of_getElem? hb)
  simp [hnode, hbt, ha, hsealed] at hall

theorem Held.onPass (h : s.Held) {i : ℕ} {p : Pass} {w : World} {phase : PassPhase}
    (hflight : s.singleFlight e) (hp : s.passes[i]? = some p)
    (hmove : PassMove site s.world p e i w phase) :
    ({ s with world := w }.setPass i { p with phase }).Held := by
  obtain ⟨hnow, heffect, hphase, -⟩ := hmove.effect
  have hlength := hmove.later.length
  refine ⟨?_, h.alone, ?_⟩
  · intro j b t hb ht
    have hold := h.holds j b t hb ht
    apply hold.of_eq (heffect.getElem?_eq _ hold) hnow
    intro hcurrent
    apply (h.free i p t hp _).2 j b hb ht
    simp [PassPhase.concerns, hcurrent]
  · intro k q t hq ht
    rcases getElem?_set_cases hq with ⟨-, rfl⟩ | ⟨-, hq⟩
    · rcases hphase with ⟨rfl, hlist, rfl⟩ | ⟨hsub, -⟩
      · have hidle : s.listsIdle p := by simpa [singleFlight, hp, hlist] using hflight
        obtain ⟨hlt, hfree⟩ := h.listed hidle ht
        exact ⟨hlt.trans_le hlength, hfree⟩
      · obtain ⟨hlt, hfree⟩ := h.free i p t hp (hsub t ht)
        exact ⟨hlt.trans_le hlength, hfree⟩
    · obtain ⟨hlt, hfree⟩ := h.free k q t hq ht
      exact ⟨hlt.trans_le hlength, hfree⟩

theorem Held.move (h : s.Held) (hflight : s.singleFlight e) (hmove : Move site s e s') :
    s'.Held := by
  cases hmove with
  | tick he =>
    subst he
    exact h.tick hflight
  | wipe _ => exact ⟨h.holds, h.alone, h.free⟩
  | build ctx target =>
    refine ⟨?_, ?_, ?_⟩
    · intro i b t hb ht
      rcases getElem?_append_cases hb with ⟨-, hb⟩ | ⟨-, rfl⟩
      · exact h.holds i b t hb ht
      · cases ht
    · intro i j b c t hb hc htb htc
      rcases getElem?_append_cases hb with ⟨-, hb⟩ | ⟨-, rfl⟩
      · rcases getElem?_append_cases hc with ⟨-, hc⟩ | ⟨-, rfl⟩
        · exact h.alone i j b c t hb hc htb htc
        · cases htc
      · cases htb
    · intro i p t hp ht
      obtain ⟨hlt, hfree⟩ := h.free i p t hp ht
      exact ⟨hlt, forall_append hfree (by simp [BuildPhase.attempt])⟩
  | reconcile nodeId =>
    refine ⟨h.holds, h.alone, ?_⟩
    intro i p t hp ht
    rcases getElem?_append_cases hp with ⟨-, hp⟩ | ⟨-, rfl⟩
    · exact h.free i p t hp ht
    · cases ht
  | onBuild hb hmove => exact h.onBuild hb hmove
  | onPass hp hmove => exact h.onPass hflight hp hmove
  | stay => exact h

/-- An attempt from which an artifact may yet be verified: one that runs, one that is sealed under
a lease that lasts, and one that a pass resumes. -/
def Live (s : Mirror) (t : ℕ) : Prop :=
  (∃ a, s.world.attempts[t]? = some a ∧
    (a.state = .running ∨ a.state = .sealed ∧ s.world.now < a.leaseExpiresAt)) ∨
  ∃ (i : ℕ) (p : Pass), s.passes[i]? = some p ∧ t ∈ p.phase.resumable p.nodeId

/-- One attempt is live, and the one verified artifact is its own. -/
structure Single (s : Mirror) : Prop where
  held : s.Held
  linked : s.Linked
  listed : s.world.Listed
  live : ∀ t t', s.Live t → s.Live t' → t = t'
  named : ∀ id t, s.world.Verified id → s.Live t → s.world.artifactOf t = some id
  verified : ∀ id id', s.world.Verified id → s.world.Verified id' → id = id'

theorem single_empty : ({} : Mirror).Single where
  held := held_empty
  linked := linked_empty
  listed id h := by simp [World.Catalogued] at h
  live t t' h := by simp [Live] at h
  named id t h := by simp [World.Verified] at h
  verified id id' h := by simp [World.Verified] at h

/-- Steps that make no attempt live, and verify at most the artifact of one that is. -/
theorem Single.shrink (h : s.Single) (hheld : s'.Held) (hlinked : s'.Linked)
    (hlisted : s'.world.Listed) (hlive : ∀ t, s'.Live t → s.Live t)
    (hverified : ∀ id, s'.world.Verified id →
      s.world.Verified id ∨ ∃ t, s.Live t ∧ s.world.artifactOf t = some id)
    (hnamed : ∀ t id, s.world.artifactOf t = some id → s'.world.artifactOf t = some id) :
    s'.Single := by
  have hartifact (id : String) (hid : s'.world.Verified id) (t : ℕ) (ht : s.Live t) :
      s.world.artifactOf t = some id := by
    rcases hverified id hid with hold | ⟨t', ht', hnew⟩
    · exact h.named id t hold ht
    · rwa [h.live t t' ht ht']
  refine ⟨hheld, hlinked, hlisted, fun t t' ht ht' => h.live t t' (hlive t ht) (hlive t' ht'),
    fun id t hid ht => hnamed t id (hartifact id hid t (hlive t ht)), ?_⟩
  intro id id' hid hid'
  rcases hverified id hid with hold | ⟨t, ht, hnew⟩
  · rcases hverified id' hid' with hold' | ⟨t, ht, hnew⟩
    · exact h.verified id id' hold hold'
    · exact Option.some.inj ((hartifact id hid t ht).symm.trans hnew)
  · exact Option.some.inj (hnew.symm.trans (hartifact id' hid' t ht))

omit [Sha256] [ManifestJson] in
theorem running_or_sealed {state : AttemptState} (h : state.isTerminal = false) :
    state = .running ∨ state = .sealed := by
  cases state <;> simp_all [AttemptState.isTerminal]

/-- A build's attempt that is not over is live. -/
theorem Held.live (h : s.Held) {i : ℕ} {b : MirrorBuild} {t : ℕ} {a : Attempt}
    (hb : s.builds[i]? = some b) (ht : b.phase.attempt = some t)
    (ha : s.world.attempts[t]? = some a) (hover : a.state.isTerminal = false) : s.Live t := by
  obtain ⟨c, hc, -, hlease, -⟩ := h.holds i b t hb ht
  obtain rfl := Option.some.inj (hc.symm.trans ha)
  exact Or.inl ⟨c, hc, (running_or_sealed hover).imp_right fun h => ⟨h, hlease hover⟩⟩

/-- An expiry makes no attempt live. -/
theorem live_of_expireStale {t : ℕ} {a : Attempt}
    (ha : s.world.expireStale.attempts[t]? = some a)
    (hstate : a.state = .running ∨ a.state = .sealed ∧ s.world.now < a.leaseExpiresAt) :
    s.Live t := by
  simp only [World.expireStale, Attempts.getElem?_expireStale] at ha
  obtain ⟨c, hc, rfl⟩ := Option.map_eq_some_iff.mp ha
  rcases Attempts.expireOne_eq_or s.world.now c with heq | ⟨-, -, hexpired⟩
  · rw [heq] at hstate
    exact Or.inl ⟨c, hc, hstate⟩
  · rw [hexpired] at hstate
    rcases hstate with h | ⟨h, -⟩ <;> cases h

theorem Held.live_of_build (h : s.Held) {i : ℕ} {b : MirrorBuild} {w : World}
    {phase : BuildPhase} (hb : s.builds[i]? = some b) (hnow : w.now = s.world.now)
    (heffect : BuildEffect site s.world b w phase)
    (hclaim : b.phase ≠ .claim ∨ w.attempts = s.world.attempts) {t : ℕ} {a : Attempt}
    (ha : w.attempts[t]? = some a)
    (hstate : a.state = .running ∨ a.state = .sealed ∧ w.now < a.leaseExpiresAt) :
    s.Live t := by
  have hkept (t : ℕ) (ha : s.world.attempts[t]? = some a) : s.Live t :=
    Or.inl ⟨a, ha, hnow ▸ hstate⟩
  rcases hclaim with hclaim | hsame
  · cases heffect with
    | same hsame => exact hkept t (hsame ▸ ha)
    | expired _ hw =>
      rw [hw] at ha hstate
      exact live_of_expireStale ha hstate
    | claimed hb' => exact absurd hb' hclaim
    | beat hbt hbeat =>
      obtain ⟨c, hc, -, hover, rfl⟩ := World.heartbeat_ok hbeat
      rcases getElem?_set_cases ha with ⟨rfl, rfl⟩ | ⟨-, ha⟩
      · exact h.live hb hbt hc hover
      · exact hkept t ha
    | sealed hbt _ hseal =>
      obtain ⟨c, hc, hover, rfl⟩ := World.transition_ok hseal
      rcases getElem?_set_cases ha with ⟨rfl, rfl⟩ | ⟨-, ha⟩
      · exact h.live hb hbt hc hover
      · exact hkept t ha
    | settled hbt hnext hsettle =>
      obtain ⟨c, hc, hover, rfl⟩ := World.transition_ok hsettle
      rcases getElem?_set_cases ha with ⟨rfl, rfl⟩ | ⟨-, ha⟩
      · exact h.live hb hbt hc hover
      · exact hkept t ha
  · exact hkept t (hsame ▸ ha)

/-- A build at its mark has its attempt, which names what it marks. -/
theorem Single.marking_build (h : s.Single) {i : ℕ} {b : MirrorBuild}
    (hb : s.builds[i]? = some b) {id : String}
    (hid : b.phase.marking.map Prod.snd = some id) :
    ∃ t, s.Live t ∧ s.world.artifactOf t = some id := by
  cases hat : b.phase <;> rw [hat] at hid <;> try cases hid
  case publish pub q =>
    have hlinked := h.linked.build i b hb
    have hattempt : b.phase.attempt = some pub.attemptId := by rw [hat]; rfl
    obtain ⟨a, ha, -, -, hrunning⟩ := h.held.holds i b _ hb hattempt
    have hover := hrunning (by rw [hat]; rfl)
    rw [hat] at hlinked
    have hsame : pub.artifactId = id := by
      cases q <;> simp_all [BuildPhase.marking, PublishPhase.marks]
    exact ⟨pub.attemptId, h.held.live hb hattempt ha hover, hsame ▸ hlinked.named⟩

theorem Single.marking_pass (h : s.Single) {i : ℕ} {p : Pass} (hp : s.passes[i]? = some p)
    {id : String} (hid : p.phase.marking.map Prod.snd = some id) :
    ∃ t, s.Live t ∧ s.world.artifactOf t = some id := by
  cases hat : p.phase <;> rw [hat] at hid <;> try cases hid
  case publish pub q rest =>
    have hlinked := h.linked.pass i p hp
    rw [hat] at hlinked
    have hsame : q = .markVerified ∧ pub.artifactId = id := by
      cases q <;> simp_all [PassPhase.marking, PublishPhase.marks]
    refine ⟨pub.attemptId, .inr ⟨i, p, hp, ?_⟩, hsame.2 ▸ hlinked.named⟩
    simp [hat, PassPhase.resumable, PassPhase.resuming, hsame.1, PublishPhase.pastVerified]

/-- A claim that is alone makes its attempt the only live one, with nothing verified. -/
theorem Single.claim (h : s.Single) (halone : s.claimsAlone) {w : World} {t : ℕ}
    {nodeId : String} {builds : List MirrorBuild}
    (hinsert : s.world.attempts.insertRunning nodeId site.leaseSecs s.world.now =
      some (t, w.attempts)) (hnow : w.now = s.world.now)
    (hcatalog : ∀ id, w.Verified id → s.world.Verified id) (hlisted : w.Listed)
    (hheld : ({ s with world := w, builds } : Mirror).Held)
    (hlinked : ({ s with world := w, builds } : Mirror).Linked) :
    ({ s with world := w, builds } : Mirror).Single := by
  obtain ⟨hrunning, -, hattempts⟩ := Attempts.insertRunning_ok hinsert
  obtain ⟨hverified, hsealed, hpasses⟩ : s.world.verifiedArtifact = none ∧
      s.world.attempts.sealedForPlan s.world.now = none ∧
      ∀ p ∈ s.passes, p.phase.resumable p.nodeId = [] := by
    simpa [claimsAlone, List.all_eq_true, and_assoc] using halone
  have hnone (id : String) : ¬w.Verified id := fun hid =>
    World.verifiedArtifact_eq_none h.listed hverified id (hcatalog id hid)
  have honly (t : ℕ) (ht : ({ s with world := w, builds } : Mirror).Live t) :
      t = s.world.attempts.length := by
    rcases ht with ⟨a, ha, hstate⟩ | ⟨i, p, hp, ht⟩
    · rw [hattempts] at ha
      rcases getElem?_append_cases ha with ⟨-, ha⟩ | ⟨ht, -⟩
      · rcases hstate with hrun | ⟨hseal, hlasts⟩
        · exact absurd hrun (hrunning a (List.mem_of_getElem? ha))
        · have hlapsed := Attempts.sealedForPlan_eq_none hsealed ha hseal
          simp only [hnow] at hlasts
          omega
      · exact ht
    · rw [hpasses p (List.mem_of_getElem? hp)] at ht
      cases ht
  exact ⟨hheld, hlinked, hlisted, fun t t' ht ht' => (honly t ht).trans (honly t' ht').symm,
    fun id _ hid => absurd hid (hnone id), fun id _ hid => absurd hid (hnone id)⟩

theorem Single.onBuild (h : s.Single) {i : ℕ} {b : MirrorBuild} {w : World}
    {phase : BuildPhase} {leaseLost : Bool} (hflight : s.singleFlight e)
    (hb : s.builds[i]? = some b) (hmove : BuildMove site s.world b e i w phase) :
    ({ s with world := w }.setBuild i { b with phase, leaseLost }).Single := by
  have hheld : ({ s with world := w }.setBuild i { b with phase, leaseLost }).Held :=
    h.held.onBuild hb hmove
  have hlinked : ({ s with world := w }.setBuild i { b with phase, leaseLost }).Linked :=
    h.linked.onBuild hb hmove
  obtain ⟨hnow, heffect, hcatalog, hclaims⟩ := hmove.effect
  by_cases hclaim : b.phase ≠ .claim ∨ w.attempts = s.world.attempts
  · apply h.shrink hheld hlinked (hcatalog.listed h.listed)
    · intro t ht
      rcases ht with ⟨a, ha, hstate⟩ | hpass
      · exact h.held.live_of_build hb hnow heffect hclaim ha hstate
      · exact .inr hpass
    · intro id hid
      exact (hcatalog.verified id hid).imp_right (h.marking_build hb)
    · intro t id hid
      exact hmove.later.artifactOf_some hid fun t' ht' => (h.linked.own i b t' hb ht').2
  · obtain ⟨hphase, hinserts⟩ := not_or.mp hclaim
    rw [not_not] at hphase
    have he := (hclaims hphase).resolve_left hinserts
    cases heffect with
    | same hsame => exact absurd hsame hinserts
    | expired hb' => rw [hphase] at hb'; cases hb'
    | beat hbt => rw [hphase] at hbt; cases hbt
    | sealed hbt => rw [hphase] at hbt; cases hbt
    | settled hbt => rw [hphase] at hbt; cases hbt
    | claimed _ hinsert =>
      have hrunning := (Attempts.insertRunning_ok hinsert).1
      have halone : s.claimsAlone := by
        simp only [he, singleFlight, hb, Option.all_some, hphase, Bool.or_eq_true,
          List.any_eq_true, decide_eq_true_eq] at hflight
        rcases hflight with ⟨a, ha, hrun⟩ | halone
        · exact absurd hrun (hrunning a ha)
        · exact halone
      apply h.claim halone hinsert hnow _ (hcatalog.listed h.listed) hheld hlinked
      intro id hid
      refine (hcatalog.verified id hid).resolve_right fun hmark => ?_
      rw [hphase] at hmark
      cases hmark

/-- What a pass lists and resumes is sealed under a lease that lasts. -/
theorem live_of_listed (s : Mirror) {nodeId : String} {t : ℕ}
    (ht : t ∈ (PassPhase.rows
      (s.world.attempts.sealedAwaitingPublication s.world.now)).resumable nodeId) : s.Live t := by
  obtain ⟨r, hr, rfl⟩ := List.mem_map.mp ht
  obtain ⟨hlisted, hours⟩ := List.mem_filter.mp hr
  obtain ⟨a, ha, hsealed, hrow⟩ := Attempts.mem_sealedAwaitingPublication.mp hlisted
  have hlasts : r.leaseExpired = false := by
    simp only [Bool.not_eq_true', decide_eq_true_eq] at hours
    exact hours.2
  rw [hrow] at hlasts
  simp only [Attempts.toRow, Attempts.leaseExpired, decide_eq_false_iff_not, not_le] at hlasts
  exact .inl ⟨a, ha, .inr ⟨hsealed, hlasts⟩⟩

theorem Single.onPass (h : s.Single) {i : ℕ} {p : Pass} {w : World} {phase : PassPhase}
    (hflight : s.singleFlight e) (hp : s.passes[i]? = some p)
    (hmove : PassMove site s.world p e i w phase) :
    ({ s with world := w }.setPass i { p with phase }).Single := by
  have hheld := h.held.onPass hflight hp hmove
  have hlinked := h.linked.onPass hp hmove
  obtain ⟨hnow, heffect, hphase, hcatalog⟩ := hmove.effect
  apply h.shrink hheld hlinked (hcatalog.listed h.listed)
  · intro t ht
    rcases ht with ⟨a, ha, hstate⟩ | ⟨k, q, hq, ht⟩
    · have hkept (t : ℕ) (ha : s.world.attempts[t]? = some a) : s.Live t :=
        Or.inl ⟨a, ha, hnow ▸ hstate⟩
      cases heffect with
      | same hsame => exact hkept t (hsame ▸ ha)
      | expired hw =>
        subst hw
        exact live_of_expireStale ha hstate
      | settled _ hnext hsettle =>
        obtain ⟨c, -, -, rfl⟩ := World.transition_ok hsettle
        rcases getElem?_set_cases ha with ⟨-, rfl⟩ | ⟨-, ha⟩
        · rcases hstate with hstate | ⟨hstate, -⟩ <;>
            simp only [Attempts.moved] at hstate <;> rw [hstate] at hnext <;> cases hnext
        · exact hkept t ha
    · rcases getElem?_set_cases hq with ⟨-, rfl⟩ | ⟨-, hq⟩
      · rcases hphase with ⟨-, -, rfl⟩ | ⟨-, hsub⟩
        · exact s.live_of_listed ht
        · exact .inr ⟨i, p, hp, hsub t ht⟩
      · exact .inr ⟨k, q, hq, ht⟩
  · intro id hid
    exact (hcatalog.verified id hid).imp_right (h.marking_pass hp)
  · intro t id hid
    exact hmove.later.artifactOf_some hid fun t' ht' => by cases ht'

theorem Single.move (h : s.Single) (hflight : s.singleFlight e) (hmove : Move site s e s') :
    s'.Single := by
  have hheld := h.held.move hflight hmove
  have hlinked := h.linked.move hmove
  cases hmove with
  | @tick d he =>
    apply h.shrink hheld hlinked h.listed _ (fun id hid => .inl hid) (fun _ _ hid => hid)
    intro t ht
    rcases ht with ⟨a, ha, hstate⟩ | hpass
    · refine .inl ⟨a, ha, hstate.imp_right fun ⟨hsealed, hlasts⟩ => ⟨hsealed, ?_⟩⟩
      simp only at hlasts
      omega
    · exact .inr hpass
  | wipe _ => exact ⟨hheld, hlinked, h.listed, h.live, h.named, h.verified⟩
  | build ctx target => exact ⟨hheld, hlinked, h.listed, h.live, h.named, h.verified⟩
  | reconcile nodeId =>
    apply h.shrink hheld hlinked h.listed _ (fun id hid => .inl hid) (fun _ _ hid => hid)
    intro t ht
    rcases ht with hattempt | ⟨i, p, hp, ht⟩
    · exact .inl hattempt
    · rcases getElem?_append_cases hp with ⟨-, hp⟩ | ⟨-, rfl⟩
      · exact .inr ⟨i, p, hp, ht⟩
      · cases ht
  | onBuild hb hmove => exact h.onBuild hflight hb hmove
  | onPass hp hmove => exact h.onPass hflight hp hmove
  | stay => exact h

/-- In every run that keeps the leases of running builds, in which each claim that goes through is
still alone and a pass lists while no build of its node has sealed: one artifact at most is ever
verified, and a pass settles, publishes and cleans up no attempt that a running build has. -/
theorem single_flight {s : Mirror}
    (h : Reached (step site) (fun s e => s.singleFlight e) {} s) :
    (∀ id id', s.world.Verified id → s.world.Verified id' → id = id') ∧
    ∀ (i j : ℕ) p b t, s.passes[i]? = some p → s.builds[j]? = some b →
      b.phase.attempt = some t → p.phase.current ≠ some t ∧
        (s.step site (.advancePass i)).world.attempts[t]? = s.world.attempts[t]? ∧
        (s.step site (.advancePass i)).world.staging b.ctx.nodeId t =
          s.world.staging b.ctx.nodeId t := by
  have hs : s.Single := h.invariant single_empty fun s e hs hok => hs.move hok (move_step s e)
  refine ⟨hs.verified, ?_⟩
  intro i j p b t hp hb ht
  have hne : p.phase.current ≠ some t := by
    intro hcurrent
    apply (hs.held.free i p t hp _).2 j b hb ht
    simp [PassPhase.concerns, hcurrent]
  refine ⟨hne, ?_⟩
  cases hadvance : p.advance site s.world with
  | none =>
    simp only [step, hp, hadvance]
    exact ⟨rfl, rfl⟩
  | some next =>
    obtain ⟨w, phase⟩ := next
    obtain ⟨-, heffect, -⟩ := Pass.effect hadvance
    simp only [step, hp, hadvance]
    exact ⟨heffect.getElem?_eq hne (hs.held.holds j b t hb ht),
      Pass.staging hadvance hne b.ctx.nodeId⟩

end Mirror
end

section

attribute [local instance] samplePublishSha256 sampleManifestJson

namespace Mirror

/-- A build that publishes while a pass of another node lists its attempt. -/
def publishingBeside : List MirrorEvent :=
  [.build ⟨"n1", "v1"⟩ (.collection "c1"), .reconcile "n2"] ++ toSeal 0 ++
    [.sealBuild 0 sampleArtifact] ++ List.replicate 4 (.advanceBuild 0) ++
    List.replicate 4 (.advancePass 0) ++ List.replicate 19 (.advanceBuild 0)

theorem single_flight_once :
    let s := publishingBeside.foldl (step sampleSite) {}
    s.world.Verified sampleArtifact.artifactId ∧
      ∀ id, s.world.Verified id → id = sampleArtifact.artifactId := by
  have hmeets : Meets (step sampleSite) (fun s e => s.singleFlight e) {} publishingBeside := by
    decide +kernel
  have hverified : (publishingBeside.foldl (step sampleSite) {}).world.bindings.artifacts
      sampleArtifact.artifactId = some .verified := by decide +kernel
  refine ⟨hverified, fun id hid => ?_⟩
  exact (single_flight (.of_meets hmeets)).1 id sampleArtifact.artifactId hid hverified

/-- Two builds of one plan. The second makes its checks while the first streams, and its claim
once the first has settled. -/
def lateClaim : List MirrorEvent :=
  [.build ⟨"n1", "v1"⟩ (.collection "c1"), .build ⟨"n2", "v1"⟩ (.collection "c1")] ++
    toSeal 0 ++ List.replicate 2 (.advanceBuild 1) ++ [.sealBuild 0 sampleArtifact] ++
    List.replicate 23 (.advanceBuild 0) ++ List.replicate 3 (.advanceBuild 1) ++
    [.sealBuild 1 otherArtifact] ++ List.replicate 21 (.advanceBuild 1)

/-- A build that has sealed, and a pass of its own node. -/
def resumedUnder : List MirrorEvent :=
  [.build ⟨"n1", "v1"⟩ (.collection "c1"), .reconcile "n1"] ++ toSeal 0 ++
    [.sealBuild 0 sampleArtifact] ++ List.replicate 4 (.advanceBuild 0) ++
    List.replicate 25 (.advancePass 0)

abbrev afterLateClaim : Mirror := lateClaim.foldl (step sampleSite) {}

abbrev afterResumedUnder : Mirror := resumedUnder.foldl (step sampleSite) {}

/-- Two artifacts of one plan are verified; and a pass settles the attempt of a build that still
publishes, and takes its staging directory. -/
theorem two_verified_and_one_settled :
    (afterLateClaim.world.Verified sampleArtifact.artifactId ∧
      afterLateClaim.world.Verified otherArtifact.artifactId ∧
      sampleArtifact.artifactId ≠ otherArtifact.artifactId) ∧
    afterResumedUnder.builds[0]?.bind (fun b => b.phase.beating) = some 0 ∧
      afterResumedUnder.world.attempts[0]?.map Attempt.state = some .succeeded ∧
      afterResumedUnder.world.staging "n1" 0 MANIFEST = none := by
  have hfirst : afterLateClaim.world.bindings.artifacts sampleArtifact.artifactId =
      some .verified := by decide +kernel
  have hsecond : afterLateClaim.world.bindings.artifacts otherArtifact.artifactId =
      some .verified := by decide +kernel
  exact ⟨⟨hfirst, hsecond, by decide +kernel⟩, by decide +kernel, by decide +kernel,
    by decide +kernel⟩

end Mirror
end
end Munarium

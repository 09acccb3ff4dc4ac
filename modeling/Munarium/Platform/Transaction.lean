import Munarium.Platform.Reserved

/-! The loop every writer of a reserved version runs: read the head, read the facts at it,
judge them, append under that head, and start again when another writer came first. -/
namespace Munarium

open Shared

/-- What one attempt decides from the facts at its pin. -/
inductive Verdict (α : Type) where
  | reply (a : α)
  | append (claim : NewClaim) (reply : Claim → Result α)
  | appendAll (claims : List NewClaim) (reply : Result α)

section
variable {σ α β : Type}

/-- The `?` operator on what a call returned. -/
def onOk (next : β → Shared σ (Result α)) : Result β → Shared σ (Result α)
  | .ok b => next b
  | .error e => .done (.error e)

theorem onOk_ok (next : β → Shared σ (Result α)) (b : β) : onOk next (.ok b) = next b := rfl

/-- A write in one step; a refused one changes nothing. -/
def landing (s : σ) : Result (β × σ) → Result β × σ
  | .ok (b, t) => (.ok b, t)
  | .error e => (.error e, s)

/-- A lost race is tried again, any other error is passed on. -/
def onConflict (again : Shared σ (Result α)) (done : β → Result α) :
    Result β → Shared σ (Result α)
  | .ok b => .done (done b)
  | .error (.headConflict _ _) => again
  | .error e => .done (.error e)

end

section
variable [Platform] [IdGenerator] {α : Type}

def retryAtHead (v : String) (contention : KernelError)
    (judge : ℕ → List Claim → Result (Verdict α)) : ℕ → Shared State (Result α)
  | 0 => .done (.error contention)
  | n + 1 =>
      read (fun s => s.headOf v) (onOk fun head =>
      read (fun s => s.sliceFacts v { asOfSeq := some head }) (onOk fun facts =>
      onOk (fun verdict =>
        match verdict with
        | .reply a => .done (.ok a)
        | .append claim reply =>
            call (fun s => landing s (s.appendClaim v claim (some head)))
              (onConflict (retryAtHead v contention judge n) reply)
        | .appendAll claims reply =>
            call (fun s => landing s (s.appendClaims v claims (some head)))
              (onConflict (retryAtHead v contention judge n) fun _ => reply))
        (judge head facts)))

section Rules
variable {v : String} {I : State → Prop} {R G : State → State → Prop}
  {Q : Result α → State → Prop}

/-- What the parties of a reserved version rely on of each other. -/
structure Rely (v : String) (I : State → Prop) (R : State → State → Prop) : Prop where
  refl : ∀ s, R s s
  trans : ∀ s t u, R s t → R t u → R s u
  root : ∀ s, I s → RootVersion v s
  keeps : ∀ s t, I s → R s t → I t
  later : ∀ s t, I s → R s t → Later v s t

/-- Parties that keep an invariant and move the version on can rely on that. -/
theorem rely_of_invariant (hroot : ∀ s, I s → RootVersion v s) :
    Rely v I (fun s t => I s → I t ∧ Later v s t) where
  refl s h := ⟨h, later_refl _ s⟩
  trans s t u hst htu h := by
    obtain ⟨ht, hlater⟩ := hst h
    obtain ⟨hu, hlater'⟩ := htu ht
    exact ⟨hu, hlater.trans hlater'⟩
  root := hroot
  keeps s t hs hst := (hst hs).1
  later s t hs hst := (hst hs).2

/-- The two reads of an attempt give the head and the accepted slice of one state. -/
theorem Rely.readAtHead (hR : Rely v I R) (hG : ∀ s, G s s)
    {next : ℕ → List Claim → Shared State (Result α)} {s : State} (hs : I s)
    (h : ∀ t u head, I t → R s t → R t u → t.headOf v = .ok head →
      (next head (acceptedSlice (t.claims v))).Ensures R G Q u) :
    (read (fun s => s.headOf v) (onOk fun head =>
      read (fun s => s.sliceFacts v { asOfSeq := some head })
        (onOk (next head)))).Ensures R G Q s := by
  apply ensures_read hG
  intro t hst
  have ht := hR.keeps s t hs hst
  obtain ⟨head, hh⟩ := (hR.root t ht).exists_head
  rw [hh]
  apply ensures_read hG
  intro u htu
  have hu := hR.keeps t u ht htu
  rw [(hR.root t ht).slice_at_pin (hR.root u hu) (hR.later t u ht htu) hh]
  exact h t u head ht hst htu hh

/-- A transaction answers as its judgement of one state says, and what it stores it judged
against the very rows it joins. -/
theorem Rely.retryAtHead (hR : Rely v I R) (hG : ∀ s, G s s) {contention : KernelError}
    {judge : ℕ → List Claim → Result (Verdict α)}
    (hfail : ∀ e s, Q (.error e) s)
    (hreply : ∀ t u head a, I t → R t u → t.headOf v = .ok head →
      judge head (acceptedSlice (t.claims v)) = .ok (.reply a) → Q (.ok a) u)
    (happend : ∀ s t head claim reply stored, I s →
      judge head (acceptedSlice (s.claims v)) = .ok (.append claim reply) →
      s.appendClaim v claim (some head) = .ok (stored, t) →
      G s t ∧ ∀ u, R t u → Q (reply stored) u)
    (hsome : ∀ head facts claims reply,
      judge head facts = .ok (.appendAll claims reply) → claims ≠ [])
    (happendAll : ∀ s t head claims reply stored, I s →
      judge head (acceptedSlice (s.claims v)) = .ok (.appendAll claims reply) →
      s.appendClaims v claims (some head) = .ok (stored, t) →
      G s t ∧ ∀ u, R t u → Q reply u) (n : ℕ) {s : State} (hs : I s) :
    (Munarium.retryAtHead v contention judge n).Ensures R G Q s := by
  induction n generalizing s with
  | zero => exact fun t _ => hfail _ t
  | succ n ih =>
    have hagain {β : Type} {done : β → Result α} {e : KernelError} {t : State} (ht : I t) :
        (onConflict (Munarium.retryAtHead v contention judge n) done
          (.error e)).Ensures R G Q t := by
      cases e with
      | headConflict expected actual => exact ih ht
      | _ => exact fun u _ => hfail _ u
    apply hR.readAtHead hG hs
    intro t u head ht hst htu hh
    have hu := hR.keeps t u ht htu
    cases hj : judge head (acceptedSlice (t.claims v)) with
    | error e => exact fun w _ => hfail e w
    | ok verdict =>
      cases verdict with
      | reply a => exact fun w huw => hreply t w head a ht (hR.trans t u w htu huw) hh hj
      | append claim reply =>
        apply ensures_call
        intro w huw
        have hw := hR.keeps u w hu huw
        cases hx : w.appendClaim v claim (some head) with
        | error e => exact ⟨hG w, hagain hw⟩
        | ok out =>
          obtain ⟨stored, w'⟩ := out
          have hsame := (hR.later t w ht (hR.trans t u w htu huw)).same_rows hh
            (appendClaim_eq_ok hx).1
          rw [← hsame] at hj
          exact happend w w' head claim reply stored hw hj hx
      | appendAll claims reply =>
        apply ensures_call
        intro w huw
        have hw := hR.keeps u w hu huw
        cases hx : w.appendClaims v claims (some head) with
        | error e => exact ⟨hG w, hagain hw⟩
        | ok out =>
          obtain ⟨stored, w'⟩ := out
          have hsame := (hR.later t w ht (hR.trans t u w htu huw)).same_rows hh
            (appendClaims_eq_ok (hsome _ _ _ _ hj) hx).1
          rw [← hsame] at hj
          exact happendAll w w' head claims reply stored hw hj hx

/-- A transaction that the facts alone settle is over at its first attempt. -/
theorem Rely.retryAtHead_settled (hR : Rely v I R) {contention : KernelError}
    {judge : ℕ → List Claim → Result (Verdict α)} {P : Result α → State → Prop} {s : State}
    (hs : I s)
    (h : ∀ t u head, I t → R s t → R t u → t.headOf v = .ok head →
      (∃ a, judge head (acceptedSlice (t.claims v)) = .ok (.reply a) ∧ P (.ok a) u) ∨
        ∃ e, judge head (acceptedSlice (t.claims v)) = .error e ∧ P (.error e) u) (n : ℕ) :
    (Munarium.retryAtHead v contention judge (n + 1)).Ensures R Eq P s := by
  apply hR.readAtHead (fun _ => rfl) hs
  intro t u head ht hst htu hh
  rcases h t u head ht hst htu hh with ⟨a, hjudge, -⟩ | ⟨e, hjudge, -⟩
  · rw [hjudge]
    intro w huw
    rcases h t w head ht hst (hR.trans t u w htu huw) hh with ⟨a', ha', hP⟩ | ⟨e, he, -⟩
    · rw [hjudge] at ha'
      cases ha'
      exact hP
    · rw [hjudge] at he
      cases he
  · rw [hjudge]
    intro w huw
    rcases h t w head ht hst (hR.trans t u w htu huw) hh with ⟨a, ha, -⟩ | ⟨e', he', hP⟩
    · rw [hjudge] at ha
      cases ha
    · rw [hjudge] at he'
      cases he'
      exact hP

end Rules

omit [IdGenerator] [Platform] in
theorem onConflict_changes {σ β : Type} {W : σ → σ → Prop} {A : Result α → Prop}
    (hW : ∀ s, W s s) {f : σ → Result (β × σ)} {again : Shared σ (Result α)}
    {done : β → Result α} (hdone : ∀ s b t, f s = .ok (b, t) → W s t ∨ A (done b))
    (hagain : again.ChangesWith W A) :
    (call (fun s => landing s (f s)) (onConflict again done)).ChangesWith W A := by
  apply changesWith_call
  intro s
  cases hf : f s with
  | ok out =>
    obtain ⟨b, t⟩ := out
    refine ⟨?_, trivial⟩
    rcases hdone s b t hf with hkeep | hanswer
    · exact .inl hkeep
    · exact .inr ⟨_, rfl, hanswer⟩
  | error e =>
    refine ⟨.inl (hW s), ?_⟩
    cases e with
    | headConflict expected actual => exact hagain
    | _ => trivial

/-- Only the append that answers a transaction changes the state. -/
theorem retryAtHead_changes {W : State → State → Prop} {A : Result α → Prop}
    (hW : ∀ s, W s s) {v : String} {contention : KernelError}
    {judge : ℕ → List Claim → Result (Verdict α)}
    (happend : ∀ head facts claim reply s stored t,
      judge head facts = .ok (.append claim reply) →
      s.appendClaim v claim (some head) = .ok (stored, t) → W s t ∨ A (reply stored))
    (happendAll : ∀ head facts claims reply,
      judge head facts = .ok (.appendAll claims reply) → A reply) (n : ℕ) :
    (retryAtHead v contention judge n).ChangesWith W A := by
  induction n with
  | zero => trivial
  | succ n ih =>
    apply changesWith_read hW
    intro head
    cases head with
    | error e => trivial
    | ok head =>
      apply changesWith_read hW
      intro facts
      cases facts with
      | error e => trivial
      | ok facts =>
        show (onOk _ (judge head facts)).ChangesWith W A
        cases hj : judge head facts with
        | error e => trivial
        | ok verdict =>
          cases verdict with
          | reply a => trivial
          | append claim reply =>
            exact onConflict_changes hW (fun s b t hf => happend _ _ _ _ s b t hj hf) ih
          | appendAll claims reply =>
            exact onConflict_changes hW (fun _ _ _ _ => .inr (happendAll _ _ _ _ hj)) ih

end
end Munarium

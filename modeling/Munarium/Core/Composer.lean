import Mathlib.Algebra.GroupWithZero.Nat
import Mathlib.Algebra.Order.BigOperators.Group.List
import Munarium.Core.Types
import Munarium.Lib.PartitionPoint
import Munarium.Lib.StableSort
import Munarium.Std.Text

/-! The composer: a brief of a snapshot, whose digests grow coarser under a budget before its oldest
facts are left out. -/
namespace Munarium

structure Digest where
  tier : ℕ
  scopePath : String
  content : String

/-- A snapshot with what the composer alone reads of it. -/
structure BriefSnapshot extends MeshSnapshot where
  digests : List Digest := []
  asOfDate : Option String := none

structure ComposedContext where
  sections : List (String × String)

namespace ComposedContext

def sectionText (s : String × String) : String := "## " ++ s.1 ++ "\n" ++ s.2

def text (c : ComposedContext) : String := join "\n\n" (c.sections.map sectionText)

/-- The length of the text over four. -/
def estimatedTokens (c : ComposedContext) : ℕ := c.text.utf8ByteSize / 4

end ComposedContext

inductive DigestLevel where
  | allTier0
  | activeGroupTier0RestTier1
  | allTier1
  | rollupOnly
  deriving DecidableEq

/-- From fine to coarse. -/
def LEVELS : List DigestLevel := [.allTier0, .activeGroupTier0RestTier1, .allTier1, .rollupOnly]

/-- The first dotted segment of a scope. -/
def groupOf (scope : String) : String := String.ofList (scope.toList.takeWhile (· ≠ '.'))

def pickTier (s : BriefSnapshot) (tier : ℕ) : List Digest :=
  StableSort.sortByKey Digest.scopePath (s.digests.filter fun d => d.tier == tier)

def chosenDigests (s : BriefSnapshot) (scope : Option String) : DigestLevel → List Digest
  | .allTier0 => pickTier s 0
  | .activeGroupTier0RestTier1 =>
      let group := scope.map groupOf
      (pickTier s 0).filter (fun d => (group.map (groupOf d.scopePath == ·)).getD false) ++
        (pickTier s 1).filter fun d => (group.map (d.scopePath != ·)).getD true
  | .allTier1 => pickTier s 1
  | .rollupOnly => pickTier s 2

def digestBody (s : BriefSnapshot) (scope : Option String) (level : DigestLevel) : String :=
  join "\n" ((chosenDigests s scope level).map Digest.content)

def normalizeClaim (subject key value : String) : String :=
  trim subject ++ "." ++ trim key ++ "=" ++ trim value

def Claim.normalizedText (c : Claim) : String := normalizeClaim c.subject c.key c.value

def decimal (n : ℕ) : String := String.ofList (Nat.toDigits 10 n)

/-- What is said of one counter that has a budget. -/
def counterLines (t : CounterTotal) : List String :=
  match t.budget with
  | none => []
  | some budget =>
      (t.key ++ ": used " ++ decimal t.total ++ "/" ++ decimal budget) ::
        (if t.total ≥ budget then ["AVOID: '" ++ t.key ++ "' — budget exhausted"]
        else if t.total + 1 = budget then ["CAUTION: '" ++ t.key ++ "' — one use remaining"]
        else [])

def directives (totals : List CounterTotal) : String := join "\n" (totals.flatMap counterLines)

/-- A section, where it has a body. -/
def optionalSection (title body : String) : List (String × String) :=
  if body.isEmpty then [] else [(title, body)]

/-- A section of lines, where there are any. -/
def linesSection (title : String) (lines : List String) : List (String × String) :=
  if lines.isEmpty then [] else [(title, join "\n" lines)]

def pinSection (s : BriefSnapshot) : List (String × String) :=
  match s.asOfSeq with
  | none => []
  | some pin =>
      let date := (s.asOfDate.map fun d => " (as of " ++ d ++ ")").getD ""
      [("Point-in-time pin", "This brief reflects the ledger as of seq " ++ decimal pin ++ date ++
        ". Later facts are not visible.")]

def digestSection (s : BriefSnapshot) (scope : Option String) (level : DigestLevel) :
    List (String × String) := optionalSection "Canon digest" (digestBody s scope level)

/-- The newest facts, or all of them. -/
def factsSection (s : BriefSnapshot) (keepNewest : Option ℕ) : List (String × String) :=
  let start := (keepNewest.map (s.facts.length - ·)).getD 0
  linesSection "Accepted facts" ((s.facts.drop start).map Claim.normalizedText)

def lockedSection (s : BriefSnapshot) : List (String × String) :=
  linesSection "Locked details"
    (s.anchors.values.map fun a => a.detailKey ++ "=" ++ a.lockedValue ++ " [locked]")

def promiseLine (p : Promise) : String :=
  "[" ++ p.key ++ "] " ++ p.description ++
    (p.dueScope.map fun d => " (due: " ++ d ++ ")").getD ""

def promisesSection (s : BriefSnapshot) : List (String × String) :=
  linesSection "Open promises"
    ((s.promises.filter fun p => p.status == .opened).map promiseLine)

def budgetsSection (s : BriefSnapshot) : List (String × String) :=
  optionalSection "Frequency budgets" (directives s.counters)

/-- `compose_at`. -/
def composeAt (s : BriefSnapshot) (scope : Option String) (level : DigestLevel)
    (factKeepNewest : Option ℕ) : ComposedContext where
  sections := pinSection s ++ digestSection s scope level ++ factsSection s factKeepNewest ++
    lockedSection s ++ promisesSection s ++ budgetsSection s

/-- The brief at the coarsest level, trimmed to the facts that fit. -/
def trimmed (s : BriefSnapshot) (scope : Option String) (budget : ℕ) : ComposedContext :=
  let fits (keep : ℕ) : Bool :=
    (composeAt s scope .rollupOnly (some keep)).estimatedTokens ≤ budget
  composeAt s scope .rollupOnly (some (PartitionPoint.search fits 0 s.facts.length - 1))

/-- The first level from the given ones on whose brief fits, and else the trimmed brief. -/
def composeFrom (s : BriefSnapshot) (scope : Option String) (budgetTokens : Option ℕ) :
    List DigestLevel → ComposedContext
  | [] => trimmed s scope (budgetTokens.getD 0)
  | level :: rest =>
      let brief := composeAt s scope level none
      match budgetTokens with
      | none => brief
      | some budget =>
          if brief.estimatedTokens ≤ budget then brief
          else composeFrom s scope budgetTokens rest

def Composer.compose (s : BriefSnapshot) (scope : Option String) (budgetTokens : Option ℕ) :
    ComposedContext := composeFrom s scope budgetTokens LEVELS

section Sizes

/-- What texts take, each with a separator. -/
def separatedSize (sep : String) (texts : List String) : ℕ :=
  (texts.map fun t => t.utf8ByteSize + sep.utf8ByteSize).sum

theorem join_size (sep : String) (texts : List String) :
    (join sep texts).utf8ByteSize = separatedSize sep texts - sep.utf8ByteSize := by
  induction texts with
  | nil => simp [join, separatedSize]
  | cons t texts ih =>
    cases texts with
    | nil => simp [join, separatedSize]
    | cons u texts =>
      simp only [join, String.utf8ByteSize_append, ih]
      simp only [separatedSize, List.map_cons, List.sum_cons]
      omega

theorem join_size_of_sublist (sep : String) {texts more : List String} (h : texts.Sublist more) :
    (join sep texts).utf8ByteSize ≤ (join sep more).utf8ByteSize := by
  have hle : separatedSize sep texts ≤ separatedSize sep more :=
    (h.map _).sum_le_sum fun n _ => Nat.zero_le n
  rw [join_size, join_size]
  exact Nat.sub_le_sub_right hle _

theorem separatedSize_append (sep : String) (texts more : List String) :
    separatedSize sep (texts ++ more) = separatedSize sep texts + separatedSize sep more := by
  simp [separatedSize]

end Sizes

theorem text_size (c : ComposedContext) : c.text.utf8ByteSize =
    separatedSize "\n\n" (c.sections.map ComposedContext.sectionText) -
      "\n\n".utf8ByteSize := join_size _ _

/-- The facts' section grows with the facts that are kept. -/
theorem factsSection_size (s : BriefSnapshot) {m n : ℕ} (h : m ≤ n) :
    separatedSize "\n\n" ((factsSection s (some m)).map ComposedContext.sectionText) ≤
      separatedSize "\n\n" ((factsSection s (some n)).map ComposedContext.sectionText) := by
  have hsub : ((s.facts.drop (s.facts.length - m)).map Claim.normalizedText).Sublist
      ((s.facts.drop (s.facts.length - n)).map Claim.normalizedText) :=
    (List.drop_sublist_drop_left _ (by omega)).map _
  simp only [factsSection, Option.map_some, Option.getD_some, linesSection]
  split_ifs with hm hn
  · exact Nat.le_refl _
  · exact Nat.zero_le _
  · rename_i hn
    rw [List.isEmpty_iff.mp hn, List.sublist_nil] at hsub
    rw [hsub] at hm
    exact absurd rfl hm
  · have hsize := join_size_of_sublist "\n" hsub
    simp only [separatedSize, List.map_cons, List.map_nil, List.sum_cons, List.sum_nil,
      ComposedContext.sectionText, String.utf8ByteSize_append]
    omega

/-- The estimate grows with the facts that are kept. -/
theorem estimatedTokens_mono (s : BriefSnapshot) (scope : Option String) (level : DigestLevel)
    {m n : ℕ} (h : m ≤ n) :
    (composeAt s scope level (some m)).estimatedTokens ≤
      (composeAt s scope level (some n)).estimatedTokens := by
  have hfacts := factsSection_size s h
  unfold ComposedContext.estimatedTokens
  apply Nat.div_le_div_right
  rw [text_size, text_size]
  apply Nat.sub_le_sub_right
  simp only [composeAt, List.map_append, separatedSize_append]
  omega

theorem composeAt_all (s : BriefSnapshot) (scope : Option String) (level : DigestLevel) {n : ℕ}
    (h : s.facts.length ≤ n) : composeAt s scope level (some n) = composeAt s scope level none := by
  have hstart : s.facts.length - n = 0 := Nat.sub_eq_zero_of_le h
  simp [composeAt, factsSection, hstart]

/-- The brief that a budget should get, and the facts that it keeps: with all facts at the first
level that fits, or at the coarsest with as many of the newest as fit. -/
inductive Optimal (s : BriefSnapshot) (scope : Option String) (budget : ℕ) :
    ℕ → ComposedContext → Prop
  | level {finer coarser : List DigestLevel} {level : DigestLevel}
      (hlevels : LEVELS = finer ++ level :: coarser)
      (hfiner : ∀ l ∈ finer, budget < (composeAt s scope l none).estimatedTokens)
      (hfits : (composeAt s scope level none).estimatedTokens ≤ budget) :
      Optimal s scope budget s.facts.length (composeAt s scope level none)
  | newest {n : ℕ} (hlevels : ∀ l ∈ LEVELS, budget < (composeAt s scope l none).estimatedTokens)
      (hn : n ≤ s.facts.length)
      (hfits : (composeAt s scope .rollupOnly (some n)).estimatedTokens ≤ budget)
      (hmost : ∀ m, n < m → m ≤ s.facts.length →
        budget < (composeAt s scope .rollupOnly (some m)).estimatedTokens) :
      Optimal s scope budget n (composeAt s scope .rollupOnly (some n))
  | none (hlevels : ∀ l ∈ LEVELS, budget < (composeAt s scope l none).estimatedTokens)
      (hnone : ∀ m ≤ s.facts.length,
        budget < (composeAt s scope .rollupOnly (some m)).estimatedTokens) :
      Optimal s scope budget 0 (composeAt s scope .rollupOnly (some 0))

/-- The sections that no budget touches. -/
def fixedTitle (section_ : String × String) : Bool :=
  ["Point-in-time pin", "Locked details", "Open promises", "Frequency budgets"].contains section_.1

/-- Composing is optimal under every budget, leaves the other sections alone, and keeps no fewer
facts under a larger budget. -/
structure ComposesOptimally (s : BriefSnapshot) (scope : Option String) : Prop where
  optimal : ∀ budget, ∃ n, Optimal s scope budget n (Composer.compose s scope (some budget))
  fixed : ∀ budget level keep, (Composer.compose s scope (some budget)).sections.filter fixedTitle =
    (composeAt s scope level keep).sections.filter fixedTitle
  kept : ∀ b₁ b₂ n₁ n₂, b₁ ≤ b₂ → Optimal s scope b₁ n₁ (Composer.compose s scope (some b₁)) →
    Optimal s scope b₂ n₂ (Composer.compose s scope (some b₂)) → n₁ ≤ n₂

section Optimality

variable {s : BriefSnapshot} {scope : Option String} {budget : ℕ}

/-- Where no level fits, what keeps more facts than fit does not fit either. -/
theorem trimmed_optimal
    (hlevels : ∀ l ∈ LEVELS, budget < (composeAt s scope l none).estimatedTokens) :
    ∃ n, Optimal s scope budget n (trimmed s scope budget) := by
  let fits (keep : ℕ) : Bool := (composeAt s scope .rollupOnly (some keep)).estimatedTokens ≤ budget
  let point := PartitionPoint.search fits 0 s.facts.length
  have hbounds : point ≤ s.facts.length := (PartitionPoint.search_bounds fits (Nat.zero_le _)).2
  have hfits : ∀ keep, fits keep = true ↔
      (composeAt s scope .rollupOnly (some keep)).estimatedTokens ≤ budget :=
    fun keep => decide_eq_true_iff
  have hanti : ∀ i j, i ≤ j → fits j = true → fits i = true := by
    intro i j hij hj
    rw [hfits] at hj ⊢
    exact (estimatedTokens_mono s scope .rollupOnly hij).trans hj
  have hsearch : ∀ k, k < s.facts.length →
      ((composeAt s scope .rollupOnly (some k)).estimatedTokens ≤ budget ↔ k < point) := by
    intro k hk
    rw [← hfits]
    exact PartitionPoint.search_spec hanti k (Nat.zero_le k) hk
  have hbeyond : ∀ m, point ≤ m → m ≤ s.facts.length →
      budget < (composeAt s scope .rollupOnly (some m)).estimatedTokens := by
    intro m hm hle
    rcases Nat.lt_or_eq_of_le hle with hlt | heq
    · have hiff := hsearch m hlt
      omega
    · rw [composeAt_all s scope .rollupOnly heq.ge]
      exact hlevels .rollupOnly (by decide)
  have htrimmed : trimmed s scope budget = composeAt s scope .rollupOnly (some (point - 1)) := rfl
  rw [htrimmed]
  rcases Nat.eq_zero_or_pos point with hzero | hpos
  · rw [hzero]
    exact ⟨0, .none hlevels fun m hm => hbeyond m (by omega) hm⟩
  · have hlast : (composeAt s scope .rollupOnly (some (point - 1))).estimatedTokens ≤ budget :=
      (hsearch (point - 1) (by omega)).mpr (by omega)
    exact ⟨point - 1, .newest hlevels (by omega) hlast fun m hm hle => hbeyond m (by omega) hle⟩

theorem composeFrom_optimal {finer levels : List DigestLevel} (hsplit : LEVELS = finer ++ levels)
    (hfiner : ∀ l ∈ finer, budget < (composeAt s scope l none).estimatedTokens) :
    ∃ n, Optimal s scope budget n (composeFrom s scope (some budget) levels) := by
  induction levels generalizing finer with
  | nil =>
    rw [List.append_nil] at hsplit
    exact trimmed_optimal (hsplit ▸ hfiner)
  | cons level levels ih =>
    by_cases hfits : (composeAt s scope level none).estimatedTokens ≤ budget
    · simp only [composeFrom, if_pos hfits]
      exact ⟨_, .level hsplit hfiner hfits⟩
    · simp only [composeFrom, if_neg hfits]
      have hnext : LEVELS = (finer ++ [level]) ++ levels := by
        rw [List.append_assoc]
        exact hsplit
      apply ih hnext
      intro l hl
      rcases List.mem_append.mp hl with hl | hl
      · exact hfiner l hl
      · rw [List.mem_singleton.mp hl]
        omega

/-- What is optimal is a brief of the snapshot. -/
theorem Optimal.composed {n : ℕ} {c : ComposedContext} (h : Optimal s scope budget n c) :
    ∃ level keep, c = composeAt s scope level keep := by
  cases h with
  | level => exact ⟨_, _, rfl⟩
  | newest => exact ⟨_, _, rfl⟩
  | none => exact ⟨_, _, rfl⟩

theorem Optimal.le_length {n : ℕ} {c : ComposedContext} (h : Optimal s scope budget n c) :
    n ≤ s.facts.length := by
  cases h with
  | level => exact Nat.le_refl _
  | newest _ hn => exact hn
  | none => exact Nat.zero_le _

/-- A larger budget keeps no fewer facts. -/
theorem Optimal.mono {b₁ b₂ n₁ n₂ : ℕ} {c₁ c₂ : ComposedContext} (hle : b₁ ≤ b₂)
    (h₁ : Optimal s scope b₁ n₁ c₁) (h₂ : Optimal s scope b₂ n₂ c₂) : n₁ ≤ n₂ := by
  cases h₂ with
  | level => exact h₁.le_length
  | newest hlevels hn _ hmost =>
    cases h₁ with
    | level hsplit _ hfits =>
      have hnot := hlevels _ (hsplit ▸ List.mem_append_right _ List.mem_cons_self)
      omega
    | newest _ hn₁ hfits =>
      by_contra hlt
      have hnot := hmost n₁ (by omega) hn₁
      omega
    | none => exact Nat.zero_le _
  | none hlevels hnone =>
    cases h₁ with
    | level hsplit _ hfits =>
      have hnot := hlevels _ (hsplit ▸ List.mem_append_right _ List.mem_cons_self)
      omega
    | newest _ hn₁ hfits =>
      have hnot := hnone n₁ hn₁
      omega
    | none => exact Nat.le_refl _

/-- The digest and the facts are no fixed sections. -/
theorem composeAt_fixed (s : BriefSnapshot) (scope : Option String) (level : DigestLevel)
    (keep : Option ℕ) : (composeAt s scope level keep).sections.filter fixedTitle =
      (pinSection s ++ lockedSection s ++ promisesSection s ++ budgetsSection s).filter
        fixedTitle := by
  have hdigest : (digestSection s scope level).filter fixedTitle = [] := by
    unfold digestSection optionalSection
    split <;> rfl
  have hfacts : (factsSection s keep).filter fixedTitle = [] := by
    simp only [factsSection, linesSection]
    split <;> rfl
  simp only [composeAt, List.filter_append, hdigest, hfacts, List.append_nil]

end Optimality

end Munarium

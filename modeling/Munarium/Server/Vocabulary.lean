import Munarium.Lib.StableSort
import Munarium.Server.Publications
import Munarium.Std.Text
import Mathlib.Data.List.Dedup
import Mathlib.Data.List.Induction

/-! Collection vocabularies: their settings and bounds, the sample of documents that one is
generated from, and the statements that change a stored one. -/
namespace Munarium


structure Sampling where
  documentCount : ℕ := 12
  balanceDocumentTypes : Bool := true
  mediaTypes : List String := []
  charactersPerDocument : ℕ := 4000
  deriving DecidableEq

def Sampling.validate (s : Sampling) : Result Unit :=
  if s.documentCount < 1 || 100 < s.documentCount || s.charactersPerDocument < 256 ||
      20000 < s.charactersPerDocument ||
      200000 < s.documentCount * s.charactersPerDocument || 32 < s.mediaTypes.length ||
      s.mediaTypes.any fun t => 150 < t.utf8ByteSize || !t.toList.contains '/' ||
        t.toList.any isControl then
    .error (.invalidInput "invalid vocabulary sampling budget or media types")
  else .ok ()

structure VocabularySettings where
  autoGenerate : Bool := true
  sampling : Sampling := {}
  provider : String := "default"
  tier : String := "fast"
  maxGroups : ℕ := 40
  revision : ℤ := 0
  deriving DecidableEq

structure Vocabulary where
  enabled : Bool := true
  autoGenerate : Option Bool := none
  sampling : Option Sampling := none
  groups : List (List String) := []
  revision : ℤ := 0
  origin : String := "none"
  status : String := "pending"
  sampledSources : List String := []
  corpusFingerprint : String := ""
  deriving DecidableEq

structure VocabularyUpdate where
  revision : ℤ
  enabled : Bool
  autoGenerate : Option Bool
  sampling : Option Sampling
  groups : List (List String)
  deriving DecidableEq

structure VocabularyPatch where
  revision : ℤ
  enabled : Option Bool
  autoGenerate : Option Bool
  groups : Option (List (List String))
  deriving DecidableEq

section Groups
variable [Unicode]

/-- The phrases after those whose lowercase is `seen`. -/
def checkPhrases (seen : List String) : List String → Result (List String)
  | [] => .ok seen
  | term :: rest =>
      if trim term != term || term.isEmpty || 120 < term.toList.length ||
          term.toList.any isControl || seen.contains (toLowercase term) then
        .error (.invalidInput "vocabulary phrases must be bounded, distinct and nonempty")
      else checkPhrases (toLowercase term :: seen) rest

def checkGroups (seen : List String) : List (List String) → Result Unit
  | [] => .ok ()
  | group :: rest =>
      if group.length < 2 || 12 < group.length then
        .error (.invalidInput "each vocabulary group requires 2 to 12 equivalent phrases")
      else do
        let seen ← checkPhrases seen group
        checkGroups seen rest

def validateGroups (groups : List (List String)) : Result Unit :=
  if 200 < groups.length then .error (.invalidInput "vocabulary exceeds 200 groups")
  else checkGroups [] groups

end Groups

section RoundRobin
variable {α : Type}

/-- One from the front of each queue, while there is room: what is taken, and the queues after. -/
def takeRound : ℕ → List (List α) → List α × List (List α)
  | _, [] => ([], [])
  | 0, queues => ([], queues)
  | room + 1, [] :: queues =>
      let (taken, rest) := takeRound (room + 1) queues
      (taken, [] :: rest)
  | room + 1, (a :: queue) :: queues =>
      let (taken, rest) := takeRound room queues
      (a :: taken, queue :: rest)

/-- Rounds until there is no room, or a round takes nothing. -/
def takeRounds : ℕ → ℕ → List (List α) → List α
  | 0, _, _ => []
  | fuel + 1, room, queues =>
      if room = 0 then []
      else
        let (taken, rest) := takeRound room queues
        if taken.isEmpty then [] else taken ++ takeRounds fuel (room - taken.length) rest

/-- Queues with so many of their first elements taken. -/
structure Taken (ks : List ℕ) (queues : List (List α)) (taken : List α) : Prop where
  length : ks.length = queues.length
  perm : taken.Perm (List.zipWith List.take ks queues).flatten

theorem zipWith_replicate {β γ : Type} (f : β → α → γ) (b : β) (l : List α) :
    List.zipWith f (List.replicate l.length b) l = l.map (f b) := by
  induction l with
  | nil => rfl
  | cons a l ih => simp [List.replicate_succ, ih]

/-- Nothing is taken from any queue. -/
theorem taken_none (queues : List (List α)) :
    Taken (List.replicate queues.length 0) queues [] :=
  ⟨by simp, by rw [zipWith_replicate]; simp⟩

theorem drop_none (queues : List (List α)) :
    queues = List.zipWith List.drop (List.replicate queues.length 0) queues := by
  rw [zipWith_replicate]
  exact (List.map_id'' (fun _ => List.drop_zero) queues).symm

theorem takeRound_spec (room : ℕ) (queues : List (List α)) :
    ∃ ks, Taken ks queues (takeRound room queues).1 ∧
      (takeRound room queues).2 = List.zipWith List.drop ks queues ∧ (∀ k ∈ ks, k ≤ 1) ∧
      (takeRound room queues).1.length ≤ room ∧
      ((takeRound room queues).1.length < room → ∀ k ∈ ks, k = 1) := by
  induction queues generalizing room with
  | nil =>
    have hnone : takeRound room ([] : List (List α)) = ([], []) := by cases room <;> rfl
    exact ⟨[], ⟨rfl, by simp [hnone]⟩, by simp [hnone], by simp, by simp [hnone], by simp⟩
  | cons queue queues ih =>
    cases room with
    | zero =>
      have hstop : takeRound 0 (queue :: queues) = ([], queue :: queues) := by cases queue <;> rfl
      rw [hstop]
      exact ⟨_, taken_none _, drop_none _, fun k hk => by simp [(List.mem_replicate.mp hk).2],
        by simp, by simp⟩
    | succ room =>
      cases queue with
      | nil =>
        obtain ⟨ks, ⟨hlen, hperm⟩, hrest, hle, hroom, hfull⟩ := ih (room + 1)
        refine ⟨1 :: ks, ⟨by simp [hlen], by simpa [takeRound] using hperm⟩,
          by simp [takeRound, hrest], ?_, by simpa [takeRound] using hroom, ?_⟩
        · simpa using hle
        · intro hlt k hk
          rcases List.mem_cons.mp hk with rfl | hk
          · rfl
          · exact hfull (by simpa [takeRound] using hlt) k hk
      | cons a queue =>
        obtain ⟨ks, ⟨hlen, hperm⟩, hrest, hle, hroom, hfull⟩ := ih room
        refine ⟨1 :: ks, ⟨by simp [hlen], by simpa [takeRound] using hperm⟩,
          by simp [takeRound, hrest], ?_, by simpa [takeRound] using hroom, ?_⟩
        · simpa using hle
        · intro hlt k hk
          rcases List.mem_cons.mp hk with rfl | hk
          · rfl
          · exact hfull (by simpa [takeRound] using hlt) k hk

/-- Taking twice takes the sum. -/
theorem Taken.append {ks ks' : List ℕ} {queues : List (List α)} {taken taken' : List α}
    (h : Taken ks queues taken) (h' : Taken ks' (List.zipWith List.drop ks queues) taken') :
    Taken (List.zipWith (· + ·) ks ks') queues (taken ++ taken') := by
  have hlen : ks'.length = queues.length := by
    have hdrop := h'.length
    rw [List.length_zipWith, h.length, min_self] at hdrop
    exact hdrop
  refine ⟨by simp [h.length, hlen], (h.perm.append h'.perm).trans ?_⟩
  obtain ⟨hks, -⟩ := h
  clear h'
  induction queues generalizing ks ks' with
  | nil => simp
  | cons queue queues ih =>
    obtain _ | ⟨k, ks⟩ := ks
    · simp at hks
    obtain _ | ⟨k', ks'⟩ := ks'
    · simp at hlen
    have hrest := ih (by simpa using hlen) (by simpa using hks)
    simp only [List.zipWith_cons_cons, List.flatten_cons, List.take_add]
    refine List.Perm.trans ?_ (List.Perm.append_left _ hrest)
    simp only [List.append_assoc]
    exact List.Perm.append_left _ ((List.perm_append_comm_assoc _ _ _))

theorem length_take_add_drop (queues : List (List α)) (ks : List ℕ)
    (hlen : ks.length = queues.length) :
    (List.zipWith List.take ks queues).flatten.length +
      (List.zipWith List.drop ks queues).flatten.length = queues.flatten.length := by
  induction queues generalizing ks with
  | nil => simp
  | cons queue queues ih =>
    obtain _ | ⟨k, ks⟩ := ks
    · simp at hlen
    have hrest := ih ks (by simpa using hlen)
    simp only [List.zipWith_cons_cons, List.flatten_cons, List.length_append, List.length_take,
      List.length_drop]
    omega

/-- The rounds take from every queue the same number, or one more; they stop at the room or
with everything taken. -/
theorem takeRounds_spec (fuel room : ℕ) (queues : List (List α)) (hfuel : room ≤ fuel) :
    ∃ ks r, Taken ks queues (takeRounds fuel room queues) ∧ (∀ k ∈ ks, k = r ∨ k = r + 1) ∧
      (takeRounds fuel room queues).length = min room queues.flatten.length := by
  induction fuel generalizing room queues with
  | zero =>
    obtain rfl : room = 0 := by omega
    exact ⟨_, 0, taken_none _, fun k hk => .inl (List.mem_replicate.mp hk).2, by simp [takeRounds]⟩
  | succ fuel ih =>
    unfold takeRounds
    split_ifs with hroom
    · subst hroom
      exact ⟨_, 0, taken_none _, fun k hk => .inl (List.mem_replicate.mp hk).2, by simp⟩
    obtain ⟨ks, htaken, hrest, hle, hbound, hfull⟩ := takeRound_spec room queues
    have hlength := length_take_add_drop queues ks htaken.length
    have htotal := htaken.perm.length_eq
    cases hround : takeRound room queues with
    | mk taken rest =>
      simp only [hround] at htaken hrest hbound hfull htotal ⊢
      by_cases hempty : taken = []
      · subst hempty
        have hones := hfull (Nat.pos_of_ne_zero hroom)
        have hall : queues.flatten = [] := by
          have hks : ks = List.replicate queues.length 1 := by
            rw [← htaken.length]
            exact List.eq_replicate_of_mem hones
          have hperm := htaken.perm
          rw [hks, zipWith_replicate] at hperm
          have hnil := hperm.symm.eq_nil
          rw [List.flatten_eq_nil_iff] at hnil ⊢
          intro queue hqueue
          have := hnil _ (List.mem_map_of_mem hqueue)
          simpa using this
        refine ⟨ks, 0, by simpa using htaken, fun k hk => .inr (hones k hk), by simp [hall]⟩
      · have hpos := List.length_pos_iff.mpr hempty
        have hempty' : taken.isEmpty = false := by simpa using hempty
        simp only [hempty', Bool.false_eq_true, if_false]
        by_cases hlast : taken.length < room
        · obtain ⟨ks', r, htaken', hks', hlen'⟩ := ih (room - taken.length) rest (by omega)
          subst hrest
          refine ⟨_, r + 1, htaken.append htaken', ?_, ?_⟩
          · intro k hk
            obtain ⟨i, hi, rfl⟩ := List.mem_iff_getElem.mp hk
            simp only [List.length_zipWith, lt_min_iff] at hi
            have hone := hfull hlast _ (List.getElem_mem hi.1)
            have hr := hks' _ (List.getElem_mem hi.2)
            rw [List.getElem_zipWith]
            omega
          · rw [List.length_append, hlen']
            omega
        · have hnone : takeRounds fuel (room - taken.length) rest = [] := by
            rw [Nat.sub_eq_zero_of_le (not_lt.mp hlast)]
            cases fuel <;> rfl
          rw [hnone, List.append_nil]
          refine ⟨ks, 0, htaken, fun k hk => ?_, by omega⟩
          have := hle k hk
          omega

end RoundRobin

/-- The candidates of each media type, in their order. -/
def byMediaType (candidates : List (String × String)) : SortedMap String (List String) :=
  candidates.foldl (fun types c => types.insert c.2 ((types.get? c.2).getD [] ++ [c.1])) .empty

/-- The sources a vocabulary is generated from; a round of the loop fills at least one place. -/
def sample (candidates : List (String × String)) (sampling : Sampling) : List String :=
  if !sampling.balanceDocumentTypes then
    (candidates.take sampling.documentCount).map Prod.fst
  else
    takeRounds sampling.documentCount sampling.documentCount (byMediaType candidates).values

/-- The candidates of one media type. -/
def ofMediaType (candidates : List (String × String)) (media : String) : List String :=
  (candidates.filter fun c => c.2 = media).map Prod.fst

theorem get?_byMediaType (candidates : List (String × String)) (media : String) :
    (byMediaType candidates).get? media =
      if media ∈ candidates.map Prod.snd then some (ofMediaType candidates media) else none := by
  induction candidates using List.reverseRecOn with
  | nil => rfl
  | append_singleton candidates c ih =>
    have hstep : byMediaType (candidates ++ [c]) = (byMediaType candidates).insert c.2
        (((byMediaType candidates).get? c.2).getD [] ++ [c.1]) := by
      simp [byMediaType, List.foldl_append]
    rw [hstep, SortedMap.get?_insert]
    by_cases hmedia : media = c.2
    · subst hmedia
      rw [if_pos rfl, if_pos (by simp), ih]
      split_ifs with hmem
      · simp [ofMediaType, List.filter_append]
      · have hnone : candidates.filter (fun d => decide (d.2 = c.2)) = [] := by
          rw [List.filter_eq_nil_iff]
          intro d hd he
          exact hmem (List.mem_map.mpr ⟨d, hd, of_decide_eq_true he⟩)
        simp [ofMediaType, List.filter_append, hnone]
    · have hne : c.2 ≠ media := Ne.symm hmedia
      have hmem : media ∈ (candidates ++ [c]).map Prod.snd ↔ media ∈ candidates.map Prod.snd := by
        simp [hmedia]
      rw [if_neg hmedia, ih]
      simp only [hmem, ofMediaType, List.filter_append]
      simp [hne]

/-- The queues of the sample, type by type in alphabetical order. -/
theorem values_byMediaType (candidates : List (String × String)) :
    (byMediaType candidates).values =
      ((byMediaType candidates).entries.map Prod.fst).map (ofMediaType candidates) := by
  rw [SortedMap.values, List.map_map]
  apply List.map_congr_left
  rintro ⟨media, ids⟩ he
  have hget := SortedMap.mem_entries_iff.mp he
  rw [get?_byMediaType] at hget
  split_ifs at hget
  exact (Option.some.inj hget).symm

theorem mem_keys_byMediaType {candidates : List (String × String)} {media : String} :
    media ∈ (byMediaType candidates).entries.map Prod.fst ↔ media ∈ candidates.map Prod.snd := by
  have hget := get?_byMediaType candidates media
  constructor
  · intro hmem
    obtain ⟨⟨m, ids⟩, he, rfl⟩ := List.mem_map.mp hmem
    rw [SortedMap.mem_entries_iff.mp he] at hget
    split_ifs at hget with h
    exact h
  · intro hmem
    rw [if_pos hmem] at hget
    exact List.mem_map_of_mem (SortedMap.mem_entries_iff.mpr hget)

/-- Counts along a list of distinct keys are the values of one function of the key. -/
theorem exists_count {keys : List String} (hnodup : keys.Nodup) {r : ℕ} {ks : List ℕ}
    (hlen : ks.length = keys.length) (hks : ∀ k ∈ ks, k = r ∨ k = r + 1) :
    ∃ count : String → ℕ, (∀ m, count m = r ∨ count m = r + 1) ∧ ks = keys.map count := by
  induction keys generalizing ks with
  | nil => exact ⟨fun _ => r, fun _ => .inl rfl, List.length_eq_zero_iff.mp hlen⟩
  | cons key keys ih =>
    obtain _ | ⟨k, ks⟩ := ks
    · simp at hlen
    obtain ⟨hnew, hnodup⟩ := List.nodup_cons.mp hnodup
    obtain ⟨count, hcount, rfl⟩ := ih hnodup (by simpa using hlen)
      fun k hk => hks k (List.mem_cons_of_mem _ hk)
    refine ⟨Function.update count key k, fun m => ?_, ?_⟩
    · by_cases hm : m = key
      · subst hm
        simpa using hks k List.mem_cons_self
      · simpa [hm] using hcount m
    · rw [List.map_cons, Function.update_self]
      congr 1
      apply List.map_congr_left
      intro m hm
      rw [Function.update_of_ne]
      rintro rfl
      exact hnew hm

/-- A balanced sample takes the same number of candidates of every media type, or one more,
always the first of the type; it is as large as the budget and the candidates allow. -/
theorem sample_balanced (candidates : List (String × String)) {sampling : Sampling}
    (hbalance : sampling.balanceDocumentTypes = true) :
    ∃ (count : String → ℕ) (r : ℕ), (∀ media, count media = r ∨ count media = r + 1) ∧
      (sample candidates sampling).Perm ((candidates.map Prod.snd).dedup.flatMap fun media =>
        (ofMediaType candidates media).take (count media)) ∧
      (sample candidates sampling).length = min sampling.documentCount candidates.length := by
  have hnodup := (byMediaType candidates).keys_nodup
  have hkeys : ((byMediaType candidates).entries.map Prod.fst).Perm
      (candidates.map Prod.snd).dedup := by
    rw [List.perm_ext_iff_of_nodup hnodup (List.nodup_dedup _)]
    intro media
    rw [mem_keys_byMediaType, List.mem_dedup]
  have htotal : (byMediaType candidates).values.flatten.length = candidates.length := by
    rw [values_byMediaType, ← List.flatMap_def]
    have hperm := StableSort.flatMap_filter_perm Prod.snd hnodup (l := candidates)
      fun c hc => mem_keys_byMediaType.mpr (List.mem_map_of_mem hc)
    have hlen := (hperm.map Prod.fst).length_eq
    rw [List.map_flatMap, List.length_map] at hlen
    exact hlen
  obtain ⟨ks, r, htaken, hks, hlen⟩ := takeRounds_spec sampling.documentCount
    sampling.documentCount (byMediaType candidates).values le_rfl
  obtain ⟨count, hcount, rfl⟩ := exists_count hnodup
    (by simpa [SortedMap.values] using htaken.length) hks
  have hsample : sample candidates sampling = takeRounds sampling.documentCount
      sampling.documentCount (byMediaType candidates).values := by simp [sample, hbalance]
  refine ⟨count, r, hcount, ?_, by rw [hsample, hlen, htotal]⟩
  rw [hsample]
  refine htaken.perm.trans ?_
  rw [values_byMediaType, List.zipWith_map, List.zipWith_self, ← List.flatMap_def]
  exact hkeys.flatMap_right _

theorem sample_balanced_two : ∃ (count : String → ℕ) (r : ℕ),
    (∀ media, count media = r ∨ count media = r + 1) ∧
      (sample [("a", "pdf"), ("b", "pdf"), ("c", "md")] {}).Perm
        ((["pdf", "pdf", "md"]).dedup.flatMap fun media =>
          (ofMediaType [("a", "pdf"), ("b", "pdf"), ("c", "md")] media).take (count media)) ∧
      (sample [("a", "pdf"), ("b", "pdf"), ("c", "md")] {}).length = 3 :=
  sample_balanced [("a", "pdf"), ("b", "pdf"), ("c", "md")] rfl

structure VocabularyRow where
  vocabulary : Vocabulary
  revision : ℤ := 1
  leaseId : Option String := none
  leaseUntil : Option ℤ := none
  attemptedAt : Option ℤ := none
  deriving DecidableEq

/-- `collection_vocabularies`, by its primary key. Times are microseconds. -/
abbrev VocabularyTable := String → String → Option VocabularyRow

/-- `interval '5 minutes'`. -/
def leaseInterval : ℤ := 300000000

namespace VocabularyTable

def setRow (table : VocabularyTable) (tenant collection : String) (row : VocabularyRow) :
    VocabularyTable :=
  fun t c => if t = tenant ∧ c = collection then some row else table t c

/-- An `UPDATE` of the row of a collection, where it meets a condition: the row after. -/
def update (table : VocabularyTable) (tenant collection : String)
    (cond : VocabularyRow → Bool) (set : VocabularyRow → VocabularyRow) :
    Option VocabularyRow × VocabularyTable :=
  match table tenant collection with
  | none => (none, table)
  | some row =>
      if cond row then (some (set row), table.setRow tenant collection (set row))
      else (none, table)

/-- Without a row the vocabulary is the default one, at revision zero. -/
def load (table : VocabularyTable) (now : ℤ) (tenant collection : String) : Vocabulary :=
  match table tenant collection with
  | none => {}
  | some row =>
      { row.vocabulary with
        revision := row.revision
        status := if row.leaseUntil.any fun u => now < u then "generating"
          else row.vocabulary.status }

/-- Storing a vocabulary over the revision it names, where zero names none. -/
def store (table : VocabularyTable) (tenant collection : String) (value : Vocabulary)
    (expected : ℤ) : Option ℤ × VocabularyTable :=
  if expected = 0 then
    match table tenant collection with
    | some _ => (none, table)
    | none => (some 1, table.setRow tenant collection { vocabulary := value })
  else
    let (row, table) := table.update tenant collection (fun r => r.revision == expected)
      fun r => { r with
        vocabulary := value, revision := r.revision + 1, leaseId := none, leaseUntil := none }
    (row.map VocabularyRow.revision, table)

variable [Unicode]

def save (table : VocabularyTable) (tenant collection : String) (value : Vocabulary)
    (expected : ℤ) : Result Vocabulary × VocabularyTable :=
  match (do validateGroups value.groups
            (value.sampling.map Sampling.validate).getD (.ok ()) : Result Unit) with
  | .error e => (.error e, table)
  | .ok () =>
      match table.store tenant collection value expected with
      | (some revision, table) => (.ok { value with revision := revision }, table)
      | (none, table) =>
          (.error (.invalidInput "vocabulary changed; reload before updating"), table)

/-- Taking the lease of a revision, unless someone else holds it. -/
def claim (table : VocabularyTable) (tenant collection : String) (revision : ℤ) (lease : String)
    (now : ℤ) : Bool × VocabularyTable :=
  let (row, table) := table.update tenant collection
    (fun r => r.revision == revision && r.leaseUntil.all fun u => u < now)
    fun r => { r with
      leaseId := some lease, leaseUntil := some (now + leaseInterval), attemptedAt := some now }
  (row.isSome, table)

/-- Storing what was generated under a lease. -/
def complete (table : VocabularyTable) (tenant collection : String) (revision : ℤ)
    (lease : String) (value : Vocabulary) : Option ℤ × VocabularyTable :=
  let (row, table) := table.update tenant collection
    (fun r => r.revision == revision && r.leaseId == some lease)
    fun r => { r with
      vocabulary := value, revision := r.revision + 1, leaseId := none, leaseUntil := none }
  (row.map VocabularyRow.revision, table)

def failed (v : Vocabulary) : Vocabulary := { v with status := "generation-failed" }

/-- Giving a lease back. -/
def abandon (table : VocabularyTable) (tenant collection : String) (revision : ℤ)
    (lease : String) : VocabularyTable :=
  (table.update tenant collection (fun r => r.revision == revision && r.leaseId == some lease)
    fun r => { r with
      vocabulary := failed r.vocabulary, leaseId := none, leaseUntil := none }).2

def attempt (table : VocabularyTable) (tenant collection : String) (revision now : ℤ) :
    VocabularyTable :=
  (table.update tenant collection (fun r => r.revision == revision)
    fun r => { r with attemptedAt := some now }).2

/-- What the worker notes of a generation that did not complete. -/
def markFailed (table : VocabularyTable) (tenant collection : String) (revision now : ℤ) :
    VocabularyTable :=
  (table.update tenant collection
    (fun r => r.revision == revision && (r.leaseUntil.all fun u => u < now) &&
      r.vocabulary.origin != "manual")
    fun r => { r with vocabulary := failed r.vocabulary }).2

end VocabularyTable

/-- What a revision stands for: everything but the progress of a generation. -/
def Vocabulary.content (v : Vocabulary) : Vocabulary := { v with status := "", revision := 0 }

/-- A revision never goes back, and stands for one content. -/
def VocabularyRow.Later (row row' : VocabularyRow) : Prop :=
  row.revision < row'.revision ∨
    row'.revision = row.revision ∧ row'.vocabulary.content = row.vocabulary.content

theorem VocabularyRow.Later.refl (row : VocabularyRow) : row.Later row := .inr ⟨rfl, rfl⟩

theorem VocabularyRow.Later.trans {a b c : VocabularyRow} (hab : a.Later b) (hbc : b.Later c) :
    a.Later c := by
  rcases hab with hab | ⟨hab, hcontent⟩
  · rcases hbc with hbc | ⟨hbc, -⟩
    · exact .inl (hab.trans hbc)
    · exact .inl (hbc ▸ hab)
  · rcases hbc with hbc | ⟨hbc, hcontent'⟩
    · exact .inl (hab ▸ hbc)
    · exact .inr ⟨hbc.trans hab, hcontent'.trans hcontent⟩

namespace VocabularyTable

/-- Rows stay, and each goes on from where it was. -/
def Grows (T T' : VocabularyTable) : Prop :=
  ∀ tenant collection row, T tenant collection = some row →
    ∃ row', T' tenant collection = some row' ∧ row.Later row'

/-- Stored revisions are numbered from one. -/
def Positive (T : VocabularyTable) : Prop :=
  ∀ tenant collection row, T tenant collection = some row → 0 < row.revision

/-- A vocabulary that somebody has written by hand is left as it is. -/
def Spares (T T' : VocabularyTable) : Prop :=
  ∀ tenant collection row, T tenant collection = some row → row.vocabulary.origin = "manual" →
    ∃ row', T' tenant collection = some row' ∧ row'.vocabulary = row.vocabulary ∧
      row'.revision = row.revision

variable {T T' T'' : VocabularyTable} {tenant collection : String}

theorem Grows.refl (T : VocabularyTable) : Grows T T := fun _ _ row h => ⟨row, h, .refl row⟩

theorem Grows.trans (h : Grows T T') (h' : Grows T' T'') : Grows T T'' := by
  intro t c row hrow
  obtain ⟨row', hrow', hlater⟩ := h t c row hrow
  obtain ⟨row'', hrow'', hlater'⟩ := h' t c row' hrow'
  exact ⟨row'', hrow'', hlater.trans hlater'⟩

theorem Spares.refl (T : VocabularyTable) : Spares T T := fun _ _ row h _ => ⟨row, h, rfl, rfl⟩

/-- What one changed row means for the table. -/
structure Changes (T T' : VocabularyTable) (tenant collection : String)
    (row' : VocabularyRow) : Prop where
  here : T' tenant collection = some row'
  elsewhere : ∀ t c, ¬ (t = tenant ∧ c = collection) → T' t c = T t c

theorem changes_setRow (T : VocabularyTable) (tenant collection : String)
    (row' : VocabularyRow) : Changes T (T.setRow tenant collection row') tenant collection row' :=
  ⟨by simp [setRow], fun t c h => by simp [setRow, h]⟩

theorem Changes.grows {row' : VocabularyRow} (h : Changes T T' tenant collection row')
    (hrow : ∀ row, T tenant collection = some row → row.Later row') : Grows T T' := by
  intro t c row ht
  by_cases hkey : t = tenant ∧ c = collection
  · obtain ⟨rfl, rfl⟩ := hkey
    exact ⟨row', h.here, hrow row ht⟩
  · exact ⟨row, (h.elsewhere t c hkey).trans ht, .refl row⟩

theorem Changes.positive {row' : VocabularyRow} (h : Changes T T' tenant collection row')
    (hT : Positive T) (hrow : 0 < row'.revision) : Positive T' := by
  intro t c row ht
  by_cases hkey : t = tenant ∧ c = collection
  · obtain ⟨rfl, rfl⟩ := hkey
    rw [h.here] at ht
    exact Option.some.inj ht ▸ hrow
  · exact hT t c row ((h.elsewhere t c hkey).symm.trans ht)

theorem Changes.spares {row' : VocabularyRow} (h : Changes T T' tenant collection row')
    (hrow : ∀ row, T tenant collection = some row → row.vocabulary.origin = "manual" →
      row'.vocabulary = row.vocabulary ∧ row'.revision = row.revision) : Spares T T' := by
  intro t c row ht hmanual
  by_cases hkey : t = tenant ∧ c = collection
  · obtain ⟨rfl, rfl⟩ := hkey
    exact ⟨row', h.here, hrow row ht hmanual⟩
  · exact ⟨row, (h.elsewhere t c hkey).trans ht, rfl, rfl⟩

theorem update_cases (T : VocabularyTable) (tenant collection : String)
    (cond : VocabularyRow → Bool) (set : VocabularyRow → VocabularyRow) :
    T.update tenant collection cond set = (none, T) ∨
      ∃ row, T tenant collection = some row ∧ cond row = true ∧
        T.update tenant collection cond set = (some (set row),
          T.setRow tenant collection (set row)) := by
  unfold update
  cases hrow : T tenant collection with
  | none => exact .inl rfl
  | some row =>
    by_cases hcond : cond row = true
    · exact .inr ⟨row, rfl, hcond, by simp [hcond]⟩
    · exact .inl (by simp [hcond])

/-- The revision tells contents apart: where it is the same, what is read is the same. -/
theorem Grows.load_content (h : Grows T T') (hT' : Positive T') {now now' : ℤ}
    (hrevision : (T'.load now' tenant collection).revision =
      (T.load now tenant collection).revision) :
    (T'.load now' tenant collection).content = (T.load now tenant collection).content := by
  unfold load at hrevision ⊢
  cases hrow : T tenant collection with
  | none =>
    cases hrow' : T' tenant collection with
    | none => rfl
    | some row' =>
      have hpos := hT' _ _ _ hrow'
      simp only [hrow, hrow'] at hrevision
      omega
  | some row =>
    obtain ⟨row', hrow', hlater⟩ := h _ _ _ hrow
    simp only [hrow, hrow'] at hrevision ⊢
    rcases hlater with hlt | ⟨-, hcontent⟩
    · omega
    · simpa [Vocabulary.content] using hcontent

/-- The revision and the content that a reader of the table finds. -/
def revisionAt (T : VocabularyTable) (tenant id : String) : ℤ := (T.load 0 tenant id).revision

def contentAt (T : VocabularyTable) (tenant id : String) : Vocabulary :=
  (T.load 0 tenant id).content

theorem load_revision (T : VocabularyTable) (now : ℤ) (tenant id : String) :
    (T.load now tenant id).revision = revisionAt T tenant id := by
  unfold revisionAt VocabularyTable.load
  cases T tenant id with
  | none => rfl
  | some row => rfl

theorem load_content (T : VocabularyTable) (now : ℤ) (tenant id : String) :
    (T.load now tenant id).content = contentAt T tenant id := by
  unfold contentAt VocabularyTable.load
  cases T tenant id with
  | none => rfl
  | some row => rfl

theorem Grows.revisionAt_le {T T' : VocabularyTable} (h : Grows T T') (hT' : T'.Positive)
    (tenant id : String) : revisionAt T tenant id ≤ revisionAt T' tenant id := by
  unfold revisionAt VocabularyTable.load
  cases hrow : T tenant id with
  | none =>
    cases hrow' : T' tenant id with
    | none => rfl
    | some row' => exact (hT' _ _ _ hrow').le
  | some row =>
    obtain ⟨row', hrow', hlater⟩ := h _ _ _ hrow
    rw [hrow']
    rcases hlater with hlt | ⟨heq, -⟩
    · exact hlt.le
    · exact heq.ge

section Statements
variable {cond : VocabularyRow → Bool} {set : VocabularyRow → VocabularyRow}

/-- A statement is within bounds: it takes rows forward and keeps revisions positive. -/
def Sound (T T' : VocabularyTable) : Prop := Grows T T' ∧ (Positive T → Positive T')

theorem Sound.refl (T : VocabularyTable) : Sound T T := ⟨.refl T, id⟩

theorem Sound.trans (h : Sound T T') (h' : Sound T' T'') : Sound T T'' :=
  ⟨h.1.trans h'.1, h'.2 ∘ h.2⟩

theorem sound_update (hset : ∀ row, cond row = true → row.Later (set row)) :
    Sound T (T.update tenant collection cond set).2 := by
  rcases T.update_cases tenant collection cond set with hnone | ⟨row, hrow, hcond, hsome⟩
  · rw [hnone]
    exact .refl T
  · rw [hsome]
    have hchanges := T.changes_setRow tenant collection (set row)
    have hlater := hset row hcond
    refine ⟨hchanges.grows fun row' hrow' => ?_, fun hT => hchanges.positive hT ?_⟩
    · obtain rfl := Option.some.inj (hrow.symm.trans hrow')
      exact hlater
    · have hpos := hT _ _ _ hrow
      rcases hlater with hlt | ⟨heq, -⟩
      · omega
      · omega

theorem spares_update (hset : ∀ row, T tenant collection = some row → cond row = true →
    row.vocabulary.origin = "manual" →
      (set row).vocabulary = row.vocabulary ∧ (set row).revision = row.revision) :
    Spares T (T.update tenant collection cond set).2 := by
  rcases T.update_cases tenant collection cond set with hnone | ⟨row, hrow, hcond, hsome⟩
  · rw [hnone]
    exact .refl T
  · rw [hsome]
    refine (T.changes_setRow tenant collection (set row)).spares fun row' hrow' hmanual => ?_
    obtain rfl := Option.some.inj (hrow.symm.trans hrow')
    exact hset row hrow hcond hmanual

/-- What is stored starts a row, or replaces the row at the named revision. -/
theorem store_cases (T : VocabularyTable) (tenant collection : String) (value : Vocabulary)
    (expected : ℤ) : T.store tenant collection value expected = (none, T) ∨
      (expected = 0 ∧ T tenant collection = none ∧ T.store tenant collection value expected =
        (some 1, T.setRow tenant collection { vocabulary := value })) ∨
      ∃ row, expected ≠ 0 ∧ T tenant collection = some row ∧ row.revision = expected ∧
        T.store tenant collection value expected = (some (expected + 1),
          T.setRow tenant collection { row with
            vocabulary := value, revision := expected + 1, leaseId := none
            leaseUntil := none }) := by
  unfold store
  split_ifs with hzero
  · cases hrow : T tenant collection with
    | some row => exact .inl rfl
    | none => exact .inr (.inl ⟨hzero, rfl, rfl⟩)
  · rcases T.update_cases tenant collection (fun r => r.revision == expected)
      (fun r => { r with
        vocabulary := value, revision := r.revision + 1, leaseId := none, leaseUntil := none })
      with hnone | ⟨row, hrow, hcond, hsome⟩
    · exact .inl (by rw [hnone]; rfl)
    · obtain rfl : row.revision = expected := by simpa using hcond
      exact .inr (.inr ⟨row, hzero, hrow, rfl, by rw [hsome]; rfl⟩)

theorem save_cases [Unicode] (T : VocabularyTable) (tenant collection : String)
    (value : Vocabulary) (expected : ℤ) :
    (∃ e, T.save tenant collection value expected = (.error e, T)) ∨
      ∃ revision T', T.store tenant collection value expected = (some revision, T') ∧
        T.save tenant collection value expected =
          (.ok { value with revision := revision }, T') := by
  unfold save
  split
  · exact .inl ⟨_, rfl⟩
  · split
    · rename_i revision T' hstore
      exact .inr ⟨revision, T', hstore, rfl⟩
    · rename_i T' hstore
      rcases T.store_cases tenant collection value expected with h | ⟨-, -, h⟩ | ⟨row, -, -, -, h⟩
      · rw [h] at hstore
        exact .inl ⟨_, by rw [(Prod.mk.inj hstore).2]⟩
      · simp [h] at hstore
      · simp [h] at hstore

theorem sound_store (value : Vocabulary) (expected : ℤ) :
    Sound T (T.store tenant collection value expected).2 := by
  rcases T.store_cases tenant collection value expected with h | ⟨-, hrow, h⟩ |
    ⟨row, -, hrow, rfl, h⟩
  · rw [h]
    exact .refl T
  · rw [h]
    have hchanges := T.changes_setRow tenant collection { vocabulary := value }
    exact ⟨hchanges.grows fun row hrow' => by simp [hrow] at hrow',
      fun hT => hchanges.positive hT Int.one_pos⟩
  · rw [h]
    have hchanges := T.changes_setRow tenant collection { row with
      vocabulary := value, revision := row.revision + 1, leaseId := none, leaseUntil := none }
    refine ⟨hchanges.grows fun row' hrow' => .inl ?_, fun hT => hchanges.positive hT ?_⟩
    · obtain rfl := Option.some.inj (hrow.symm.trans hrow')
      exact lt_add_one row.revision
    · exact (hT _ _ _ hrow).trans (lt_add_one row.revision)

theorem sound_claim (revision : ℤ) (lease : String) (now : ℤ) :
    Sound T (T.claim tenant collection revision lease now).2 :=
  sound_update fun _ _ => .inr ⟨rfl, rfl⟩

theorem sound_complete (revision : ℤ) (lease : String) (value : Vocabulary) :
    Sound T (T.complete tenant collection revision lease value).2 :=
  sound_update fun _ _ => .inl (by simp)

theorem sound_abandon (revision : ℤ) (lease : String) :
    Sound T (T.abandon tenant collection revision lease) :=
  sound_update fun _ _ => .inr ⟨rfl, rfl⟩

theorem sound_attempt (revision now : ℤ) : Sound T (T.attempt tenant collection revision now) :=
  sound_update fun _ _ => .inr ⟨rfl, rfl⟩

theorem sound_markFailed (revision now : ℤ) :
    Sound T (T.markFailed tenant collection revision now) :=
  sound_update fun _ _ => .inr ⟨rfl, rfl⟩

theorem sound_save [Unicode] (value : Vocabulary) (expected : ℤ) :
    Sound T (T.save tenant collection value expected).2 := by
  rcases T.save_cases tenant collection value expected with ⟨e, h⟩ | ⟨revision, T', hstore, h⟩
  · rw [h]
    exact .refl T
  · rw [h]
    have hsound : Sound T (T.store tenant collection value expected).2 := sound_store value expected
    rwa [hstore] at hsound

end Statements

end VocabularyTable

end Munarium

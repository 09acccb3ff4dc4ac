import Munarium.Evidence.Manifest

/-! The domain key of a manifest, and exactly which manifests share it with no manifest of
another tenant, result, policy, level or set of compartments. -/
namespace Munarium

/-- The key's fields are joined with U+001F. -/
def unitSeparator : Char := '\x1f'

/-- The text of an access level that validation lets through. -/
def IsLevel (s : String) : Prop := ∃ level : Int32, 0 ≤ level ∧ toString level = s

namespace EvidenceManifest

def policyText (m : EvidenceManifest) : String := m.versions.policy.getD ""

def compartmentsText (m : EvidenceManifest) : String :=
  join (String.singleton unitSeparator)
    (m.authorizationClass.compartments.insertionSort (· ≤ ·))

def material (m : EvidenceManifest) : String :=
  m.tenant ++ String.singleton unitSeparator ++ m.logicalResultHash ++
    String.singleton unitSeparator ++ m.policyText ++ String.singleton unitSeparator ++
    toString m.authorizationClass.accessLevel ++ String.singleton unitSeparator ++
    m.compartmentsText

def domainKey [Sha256] (m : EvidenceManifest) : String := "dk-" ++ sha256Hex (utf8 m.material)

/-- What two manifests of one key must have in common. -/
def SameClass (m n : EvidenceManifest) : Prop :=
  m.tenant = n.tenant ∧ m.logicalResultHash = n.logicalResultHash ∧
    m.versions.policy = n.versions.policy ∧
    m.authorizationClass.accessLevel = n.authorizationClass.accessLevel ∧
    ∀ c, c ∈ m.authorizationClass.compartments ↔ c ∈ n.authorizationClass.compartments

/-- The key's material reads back one way only: no piece of the tenant passes for the
hash, the policy is present and none of its pieces passes for the hash or the level where
they could stand, and the one compartment neither holds a level nor two sorted tags. -/
structure ReadsOneWay (m : EvidenceManifest) : Prop where
  tenant : ∀ before piece after, pieces unitSeparator m.tenant = before ++ piece :: after →
    isHash piece = true → trim (join (String.singleton unitSeparator) before) = ""
  policy : ∃ p, m.versions.policy = some p ∧ p ≠ "" ∧
    ∀ before piece after, pieces unitSeparator p = before ++ piece :: after →
      (isHash piece = true → after = []) ∧ (IsLevel piece → before = [])
  compartments : ∃ c, m.authorizationClass.compartments = [c] ∧ c ≠ "" ∧
    (∀ before piece after, pieces unitSeparator c = before ++ piece :: after →
      IsLevel piece → after = []) ∧
    ∀ a b, c = a ++ String.singleton unitSeparator ++ b → b < a

end EvidenceManifest

theorem isDigit_of_isLevel {s : String} (h : IsLevel s) : ∀ c ∈ s.toList, c.isDigit = true := by
  obtain ⟨level, hl, rfl⟩ := h
  have h0 : 0 ≤ level.toInt := by simpa using Int32.le_iff_toInt_le.mp hl
  obtain ⟨n, hn⟩ := Int.eq_ofNat_of_zero_le h0
  have htext : toString level = n.repr := by
    change toString level.toInt = _
    rw [hn]
    rfl
  rw [htext, Nat.repr_eq_ofList_toDigits, String.toList_ofList]
  intro c hc
  exact Nat.isDigit_of_mem_toDigits (by decide) (by decide) hc

theorem level_inj {a b : Int32} (ha : 0 ≤ a) (hb : 0 ≤ b) (h : toString a = toString b) :
    a = b := by
  have ha0 : 0 ≤ a.toInt := by simpa using Int32.le_iff_toInt_le.mp ha
  have hb0 : 0 ≤ b.toInt := by simpa using Int32.le_iff_toInt_le.mp hb
  obtain ⟨n, hn⟩ := Int.eq_ofNat_of_zero_le ha0
  obtain ⟨k, hk⟩ := Int.eq_ofNat_of_zero_le hb0
  have htext : toString n = toString k := by
    change toString a.toInt = toString b.toInt at h
    rw [hn, hk] at h
    exact h
  apply Int32.toInt_inj.mp
  rw [hn, hk, Digits.toString_inj htext]

theorem startsWith_of_isHash {s : String} (h : isHash s = true) :
    ∃ rest, s.toList = "sha256:".toList ++ rest ∧
      ∀ c ∈ rest, (c.isDigit || (decide ('a' ≤ c) && decide (c ≤ 'f'))) = true := by
  simp only [isHash, Bool.and_eq_true, startsWith] at h
  obtain ⟨⟨-, hp⟩, hall⟩ := h
  obtain ⟨rest, hrest⟩ := List.isPrefixOf_iff_prefix.mp hp
  refine ⟨rest, hrest.symm, ?_⟩
  rw [← hrest] at hall
  have hdrop : ("sha256:".toList ++ rest).drop 7 = rest := rfl
  rw [hdrop] at hall
  exact List.all_eq_true.mp hall

theorem unitSeparator_notMem_of_isHash {s : String} (h : isHash s = true) :
    unitSeparator ∉ s.toList := by
  obtain ⟨rest, hs, hall⟩ := startsWith_of_isHash h
  rw [hs]
  intro hmem
  rcases List.mem_append.mp hmem with hmem | hmem
  · exact absurd hmem (by decide)
  · exact absurd (hall _ hmem) (by decide)

theorem unitSeparator_notMem_of_isLevel {s : String} (h : IsLevel s) :
    unitSeparator ∉ s.toList := by
  intro hmem
  exact absurd (isDigit_of_isLevel h _ hmem) (by decide)

theorem not_isLevel_of_isHash {s : String} (h : isHash s = true) : ¬ IsLevel s := by
  intro hl
  obtain ⟨rest, hs, -⟩ := startsWith_of_isHash h
  exact absurd (isDigit_of_isLevel hl 's' (by rw [hs]; simp)) (by decide)

section Cuts
variable {α : Type*}

/-- Two ways to split a list at an element: at one place, or one place before the other. -/
theorem append_cons_eq_append_cons {a a' b b' : List α} {x x' : α}
    (h : a ++ x :: b = a' ++ x' :: b') :
    (a = a' ∧ x = x' ∧ b = b') ∨ (∃ c, a' = a ++ x :: c ∧ b = c ++ x' :: b') ∨
      ∃ c, a = a' ++ x' :: c ∧ b' = c ++ x :: b := by
  rcases List.append_eq_append_iff.mp h with ⟨c, rfl, hc⟩ | ⟨c, rfl, hc⟩
  · cases c with
    | nil =>
      obtain ⟨rfl, rfl⟩ := List.cons.inj hc
      exact .inl (by simp)
    | cons y c =>
      obtain ⟨rfl, rfl⟩ := List.cons.inj hc
      exact .inr (.inl ⟨c, rfl, rfl⟩)
  · cases c with
    | nil =>
      obtain ⟨rfl, rfl⟩ := List.cons.inj hc
      exact .inl (by simp)
    | cons y c =>
      obtain ⟨rfl, rfl⟩ := List.cons.inj hc
      exact .inr (.inr ⟨c, rfl, rfl⟩)

end Cuts

/-- The pieces of a material that reads one way have one cut into the five fields. -/
theorem cut_unique {T T' Q Q' K K' : List String} {h h' L L' : String}
    (heq : T ++ h :: (Q ++ L :: K) = T' ++ h' :: (Q' ++ L' :: K'))
    (hh' : isHash h' = true) (hL : IsLevel L) (hL' : IsLevel L') (hQ' : Q' ≠ [])
    (hK' : K' ≠ [])
    (hT : ∀ before x after, T = before ++ x :: after → isHash x = true → before ≠ T')
    (hQ : ∀ before x after, Q = before ++ x :: after →
      (isHash x = true → after = []) ∧ (IsLevel x → before = []))
    (hK : ∀ before x after, K = before ++ x :: after → IsLevel x → after = []) :
    T = T' ∧ h = h' ∧ Q = Q' ∧ L = L' ∧ K = K' := by
  rcases append_cons_eq_append_cons heq with ⟨rfl, rfl, hrest⟩ | ⟨X, rfl, hrest⟩ | ⟨X, hX, -⟩
  · rcases append_cons_eq_append_cons hrest with ⟨rfl, rfl, rfl⟩ | ⟨Y, -, hY⟩ | ⟨Y, hY, -⟩
    · exact ⟨rfl, rfl, rfl, rfl, rfl⟩
    · exact absurd (hK _ _ _ hY hL') hK'
    · exact absurd ((hQ _ _ _ hY).2 hL') hQ'
  · exfalso
    rcases append_cons_eq_append_cons hrest with ⟨-, rfl, -⟩ | ⟨Y, -, hY⟩ | ⟨Y, hY, hrest'⟩
    · exact not_isLevel_of_isHash hh' hL
    · have hlast : K = (Y ++ h' :: Q') ++ L' :: K' := by simp [hY]
      exact hK' (hK _ _ _ hlast hL')
    · obtain rfl := (hQ _ _ _ hY).1 hh'
      cases Q' with
      | nil => exact hQ' rfl
      | cons q Q' =>
        obtain ⟨rfl, hlast⟩ := List.cons.inj hrest'
        exact hK' (hK _ _ _ hlast.symm hL')
  · exact absurd rfl (hT _ _ _ hX hh')

namespace EvidenceManifest

theorem pieces_material {m : EvidenceManifest} (hh : isHash m.logicalResultHash = true)
    (hl : 0 ≤ m.authorizationClass.accessLevel) :
    pieces unitSeparator m.material = pieces unitSeparator m.tenant ++ m.logicalResultHash ::
      (pieces unitSeparator m.policyText ++ toString m.authorizationClass.accessLevel ::
        pieces unitSeparator m.compartmentsText) := by
  unfold material
  rw [pieces_append, pieces_append, pieces_append, pieces_append,
    pieces_eq_singleton (unitSeparator_notMem_of_isHash hh),
    pieces_eq_singleton (unitSeparator_notMem_of_isLevel ⟨_, hl, rfl⟩)]
  simp

theorem material_eq_of_domainKey [Sha256] (hinj : Function.Injective Sha256.digest)
    {m n : EvidenceManifest} : m.domainKey = n.domainKey ↔ m.material = n.material := by
  constructor
  · intro h
    apply utf8_injective
    apply sha256Hex_injective hinj
    have hl := congrArg String.toList h
    simp only [domainKey, String.toList_append, List.append_right_inj] at hl
    exact String.toList_injective hl
  · intro h
    rw [domainKey, domainKey, h]

theorem le_join_cons (c : Char) (p : String) (rest : List String) :
    p ≤ join (String.singleton c) (p :: rest) := by
  cases rest with
  | nil => exact le_rfl
  | cons q rest =>
    rw [String.le_iff_toList_le, join_cons_cons, String.append_assoc, String.toList_append]
    generalize (String.singleton c ++ join (String.singleton c) (q :: rest)).toList = tail
    rw [← not_lt]
    intro hlt
    have := Digits.append_lt_append_iff (a := p.toList) rfl tail []
    rw [List.append_nil] at this
    simpa using this.mp hlt

/-- A compartment that holds no two sorted tags is the only class with its text. -/
theorem eq_singleton_of_compartmentsText {n : EvidenceManifest} {c : String} (hne : c ≠ "")
    (hsplit : ∀ a b, c = a ++ String.singleton unitSeparator ++ b → b < a)
    (h : n.compartmentsText = c) : n.authorizationClass.compartments = [c] := by
  have hperm := List.perm_insertionSort (· ≤ ·) n.authorizationClass.compartments
  have hsorted := List.pairwise_insertionSort (· ≤ ·) n.authorizationClass.compartments
  unfold compartmentsText at h
  cases hs : n.authorizationClass.compartments.insertionSort (· ≤ ·) with
  | nil =>
    rw [hs] at h
    exact absurd h.symm hne
  | cons x rest =>
    rw [hs] at h hperm hsorted
    cases rest with
    | nil =>
      have hx : x = c := h
      rw [hx] at hperm
      exact (List.singleton_perm.mp hperm).symm
    | cons y rest =>
      have hlt := hsplit x _ h.symm
      have hxy : x ≤ y := (List.pairwise_cons.mp hsorted).1 y List.mem_cons_self
      exact absurd (hxy.trans (le_join_cons _ _ _)) (not_le.mpr hlt)

theorem sameClass_of_readsOneWay {m n : EvidenceManifest} (hm : m.Accepted) (hn : n.Accepted)
    (h : m.ReadsOneWay) (heq : m.material = n.material) : m.SameClass n := by
  obtain ⟨-, -, hmh, hml⟩ := accepted_iff.mp hm
  obtain ⟨-, hnt, hnh, hnl⟩ := accepted_iff.mp hn
  obtain ⟨p, hp, hpne, hpieces⟩ := h.policy
  obtain ⟨c, hc, hcne, hlevels, hsplit⟩ := h.compartments
  have hpolicy : m.policyText = p := by simp [policyText, hp]
  have hctext : m.compartmentsText = c := by
    simp [compartmentsText, hc, join]
  have hcut := congrArg (pieces unitSeparator) heq
  rw [pieces_material hmh hml, pieces_material hnh hnl, hpolicy, hctext] at hcut
  obtain ⟨ht, hh, hq, hl, hk⟩ := cut_unique hcut hnh ⟨_, hml, rfl⟩ ⟨_, hnl, rfl⟩
    (pieces_ne_nil _ _) (pieces_ne_nil _ _)
    (by
      rintro before x after hT hx rfl
      apply hnt
      rw [← join_pieces unitSeparator n.tenant]
      exact h.tenant _ _ _ hT hx)
    hpieces hlevels
  have hnp : n.versions.policy = some p := by
    have hpt := pieces_injective _ hq
    unfold policyText at hpt
    cases hnp : n.versions.policy with
    | none =>
      rw [hnp] at hpt
      exact absurd hpt hpne
    | some q =>
      rw [hnp] at hpt
      exact congrArg some hpt.symm
  have hnc := eq_singleton_of_compartmentsText hcne hsplit (pieces_injective _ hk).symm
  refine ⟨pieces_injective _ ht, hh, hp.trans hnp.symm, level_inj hml hnl hl, ?_⟩
  intro d
  rw [hc, hnc]

/-- The manifest that reads another cut of the same material as its own fields. -/
def recut (m : EvidenceManifest) (T : List String) (h : String) (Q : List String)
    (level : Int32) (K : List String) : EvidenceManifest :=
  { m with
    tenant := join (String.singleton unitSeparator) T
    logicalResultHash := h
    versions := ⟨some (join (String.singleton unitSeparator) Q)⟩
    authorizationClass := ⟨level, [join (String.singleton unitSeparator) K]⟩ }

theorem recut_spec {m : EvidenceManifest} (hm : m.Accepted) {T Q K : List String}
    {h : String} {level : Int32} (hT : T ≠ []) (hQ : Q ≠ []) (hK : K ≠ [])
    (hh : isHash h = true) (hl : 0 ≤ level)
    (ht : trim (join (String.singleton unitSeparator) T) ≠ "")
    (hcut : pieces unitSeparator m.material = T ++ h :: (Q ++ toString level :: K)) :
    (m.recut T h Q level K).Accepted ∧ m.material = (m.recut T h Q level K).material := by
  obtain ⟨hframe, -⟩ := accepted_iff.mp hm
  constructor
  · exact accepted_iff.mpr ⟨hframe, ht, hh, hl⟩
  · apply pieces_injective unitSeparator
    have hfree : ∀ p ∈ T ++ h :: (Q ++ toString level :: K), unitSeparator ∉ p.toList := by
      intro p hp
      rw [← hcut] at hp
      exact notMem_of_mem_pieces hp
    have hTp : pieces unitSeparator (join (String.singleton unitSeparator) T) = T := by
      apply pieces_join hT
      intro p hp
      exact hfree p (by simp [hp])
    have hQp : pieces unitSeparator (join (String.singleton unitSeparator) Q) = Q := by
      apply pieces_join hQ
      intro p hp
      exact hfree p (by simp [hp])
    have hKp : pieces unitSeparator (join (String.singleton unitSeparator) K) = K := by
      apply pieces_join hK
      intro p hp
      exact hfree p (by simp [hp])
    rw [pieces_material (m := m.recut T h Q level K) hh hl, hcut]
    simp [recut, policyText, compartmentsText, join, hTp, hQp, hKp]

theorem trim_join_append_ne {T rest : List String} (hT : T ≠ [])
    (ht : trim (join (String.singleton unitSeparator) T) ≠ "") :
    trim (join (String.singleton unitSeparator) (T ++ rest)) ≠ "" := by
  cases rest with
  | nil => simpa using ht
  | cons x rest =>
    intro h
    apply ht
    rw [trim_eq_empty_iff] at h ⊢
    intro c hc
    apply h
    rw [join_append _ hT (by simp)]
    simp [String.toList_append, hc]

theorem ne_append_cons {α : Type*} (a b : List α) (x : α) : a ≠ a ++ x :: b := by
  intro h
  have := congrArg List.length h
  simp at this

theorem ne_append_separator (c : Char) (s t : String) : s ≠ s ++ String.singleton c ++ t := by
  intro h
  have := congrArg (fun u => u.toList.length) h
  simp [String.toList_append] at this

theorem compartments_eq_singleton {m : EvidenceManifest}
    (h : ∀ c, c ∈ m.authorizationClass.compartments ↔ c = m.compartmentsText) :
    m.authorizationClass.compartments = [m.compartmentsText] := by
  have hperm := List.perm_insertionSort (· ≤ ·) m.authorizationClass.compartments
  cases hs : m.authorizationClass.compartments.insertionSort (· ≤ ·) with
  | nil =>
    rw [hs] at hperm
    have hmem := (h _).mpr rfl
    rw [← hperm.mem_iff] at hmem
    simp at hmem
  | cons x rest =>
    have hx : x = m.compartmentsText := by
      apply (h x).mp
      rw [← hperm.mem_iff, hs]
      exact List.mem_cons_self
    cases rest with
    | nil =>
      rw [hs] at hperm
      rw [← hx]
      exact (List.singleton_perm.mp hperm).symm
    | cons y rest =>
      exfalso
      have htext : m.compartmentsText = join (String.singleton unitSeparator) (x :: y :: rest) := by
        rw [compartmentsText, hs]
      rw [join_cons_cons, ← hx] at htext
      exact ne_append_separator _ _ _ htext

section Necessity

variable {m : EvidenceManifest} (hm : m.Accepted)
  (h : ∀ n : EvidenceManifest, n.Accepted → m.material = n.material → m.SameClass n)

include hm h

/-- Every cut of the material has the manifest's own fields. -/
theorem eq_of_cut {T Q K : List String} {x : String} {level : Int32} (hT : T ≠ [])
    (hQ : Q ≠ []) (hK : K ≠ []) (hx : isHash x = true) (hl : 0 ≤ level)
    (ht : trim (join (String.singleton unitSeparator) T) ≠ "")
    (hcut : pieces unitSeparator m.material = T ++ x :: (Q ++ toString level :: K)) :
    pieces unitSeparator m.tenant = T ∧
      m.versions.policy = some (join (String.singleton unitSeparator) Q) ∧
      pieces unitSeparator m.policyText = Q ∧
      ∀ c, c ∈ m.authorizationClass.compartments ↔
        c = join (String.singleton unitSeparator) K := by
  obtain ⟨hacc, hmat⟩ := recut_spec hm hT hQ hK hx hl ht hcut
  obtain ⟨hten, -, hpol, -, hcomp⟩ := h _ hacc hmat
  have hfree : ∀ p ∈ T ++ x :: (Q ++ toString level :: K), unitSeparator ∉ p.toList := by
    intro p hp
    rw [← hcut] at hp
    exact notMem_of_mem_pieces hp
  have hpol' : m.versions.policy = some (join (String.singleton unitSeparator) Q) := hpol
  have htext : m.policyText = join (String.singleton unitSeparator) Q := by
    simp [policyText, hpol']
  refine ⟨?_, hpol', ?_, ?_⟩
  · rw [hten]
    apply pieces_join hT
    intro p hp
    exact hfree p (by simp [hp])
  · rw [htext]
    apply pieces_join hQ
    intro p hp
    exact hfree p (by simp [hp])
  · intro c
    rw [hcomp c]
    simp [recut]

theorem own_cut : (∃ p, m.versions.policy = some p ∧ p ≠ "") ∧
    m.authorizationClass.compartments = [m.compartmentsText] ∧ m.compartmentsText ≠ "" := by
  obtain ⟨hframe, hmt, hmh, hml⟩ := accepted_iff.mp hm
  have hcut := pieces_material hmh hml
  obtain ⟨-, hpol, -, hcomp⟩ := eq_of_cut hm h (pieces_ne_nil _ _) (pieces_ne_nil _ _)
    (pieces_ne_nil _ _) hmh hml (by rwa [join_pieces]) hcut
  rw [join_pieces] at hpol
  simp only [join_pieces] at hcomp
  have hsingle := compartments_eq_singleton hcomp
  refine ⟨⟨_, hpol, ?_⟩, hsingle, ?_⟩
  · intro hempty
    have hnone := h { m with versions := ⟨none⟩ }
      (accepted_iff.mpr ⟨hframe, hmt, hmh, hml⟩)
      (by
        unfold material
        rw [hempty]
        rfl)
    have := hnone.2.2.1
    rw [hpol] at this
    cases this
  · intro hempty
    have hnil := h { m with authorizationClass := ⟨m.authorizationClass.accessLevel, []⟩ }
      (accepted_iff.mpr ⟨hframe, hmt, hmh, hml⟩)
      (by
        unfold material
        rw [hempty]
        rfl)
    have := (hnil.2.2.2.2 m.compartmentsText).mp (by rw [hsingle]; simp)
    simp at this

theorem tenant_of_agree {before after : List String} {x : String}
    (hpieces : pieces unitSeparator m.tenant = before ++ x :: after) (hx : isHash x = true) :
    trim (join (String.singleton unitSeparator) before) = "" := by
  obtain ⟨-, hmt, hmh, hml⟩ := accepted_iff.mp hm
  by_contra hne
  have hbefore : before ≠ [] := by
    rintro rfl
    exact hne (by decide)
  have hcut := pieces_material hmh hml
  rw [hpieces] at hcut
  have htenant := (eq_of_cut hm h hbefore (Q := after ++ m.logicalResultHash ::
    pieces unitSeparator m.policyText) (by simp) (pieces_ne_nil _ m.compartmentsText) hx hml hne
    (by simpa using hcut)).1
  exact ne_append_cons _ _ _ (htenant.symm.trans hpieces)

theorem policy_of_agree {before after : List String} {x : String}
    (hpieces : pieces unitSeparator m.policyText = before ++ x :: after) :
    (isHash x = true → after = []) ∧ (IsLevel x → before = []) := by
  obtain ⟨-, hmt, hmh, hml⟩ := accepted_iff.mp hm
  have hcut := pieces_material hmh hml
  rw [hpieces] at hcut
  have htrim : trim (join (String.singleton unitSeparator) (pieces unitSeparator m.tenant)) ≠
      "" := by rwa [join_pieces]
  constructor
  · intro hx
    by_contra hafter
    have htenant := (eq_of_cut hm h (T := pieces unitSeparator m.tenant ++ m.logicalResultHash ::
      before) (by simp) hafter (pieces_ne_nil _ m.compartmentsText) hx hml
      (trim_join_append_ne (pieces_ne_nil _ _) htrim) (by simpa using hcut)).1
    exact ne_append_cons _ _ _ htenant
  · rintro ⟨level, hl, rfl⟩
    by_contra hbefore
    have hpolicy := (eq_of_cut hm h (pieces_ne_nil _ _) hbefore (K := after ++
      toString m.authorizationClass.accessLevel :: pieces unitSeparator m.compartmentsText)
      (by simp) hmh hl htrim (by simpa using hcut)).2.2.1
    exact ne_append_cons _ _ _ (hpolicy.symm.trans hpieces)

theorem compartments_of_agree {before after : List String} {x : String}
    (hpieces : pieces unitSeparator m.compartmentsText = before ++ x :: after)
    (hx : IsLevel x) : after = [] := by
  obtain ⟨-, hmt, hmh, hml⟩ := accepted_iff.mp hm
  obtain ⟨level, hl, rfl⟩ := hx
  have hcut := pieces_material hmh hml
  rw [hpieces] at hcut
  by_contra hafter
  have hpolicy := (eq_of_cut hm h (pieces_ne_nil _ _) (Q := pieces unitSeparator m.policyText ++
    toString m.authorizationClass.accessLevel :: before) (by simp) hafter hmh hl
    (by rwa [join_pieces]) (by simpa using hcut)).2.2.1
  exact ne_append_cons _ _ _ hpolicy

theorem split_of_agree {a b : String}
    (hc : m.authorizationClass.compartments = [m.compartmentsText])
    (hsplit : m.compartmentsText = a ++ String.singleton unitSeparator ++ b) : b < a := by
  obtain ⟨hframe, hmt, hmh, hml⟩ := accepted_iff.mp hm
  by_contra hle
  have hpair := h { m with authorizationClass := ⟨m.authorizationClass.accessLevel, [a, b]⟩ }
    (accepted_iff.mpr ⟨hframe, hmt, hmh, hml⟩)
    (by
      unfold material
      rw [hsplit]
      simp [policyText, compartmentsText, List.insertionSort, not_lt.mp hle, join])
  have hmem := (hpair.2.2.2.2 a).mpr (by simp)
  rw [hc, List.mem_singleton] at hmem
  rw [← hmem] at hsplit
  exact ne_append_separator _ _ _ hsplit

theorem readsOneWay_of_agree : m.ReadsOneWay := by
  obtain ⟨⟨p, hp, hpne⟩, hc, hcne⟩ := own_cut hm h
  have hpolicy : m.policyText = p := by simp [policyText, hp]
  refine ⟨?_, ⟨p, hp, hpne, ?_⟩, ⟨m.compartmentsText, hc, hcne, ?_, ?_⟩⟩
  · intro before x after hpieces hx
    exact tenant_of_agree hm h hpieces hx
  · intro before x after hpieces
    rw [← hpolicy] at hpieces
    exact policy_of_agree hm h hpieces
  · intro before x after hpieces hx
    exact compartments_of_agree hm h hpieces hx
  · intro a b hsplit
    exact split_of_agree hm h hc hsplit

end Necessity

/-- A manifest shares its key with none of another class exactly when its fields read
back one way from the key's material. -/
theorem domainKey_separates_iff [Sha256] (hinj : Function.Injective Sha256.digest)
    {m : EvidenceManifest} (hm : m.Accepted) :
    (∀ n : EvidenceManifest, n.Accepted → m.domainKey = n.domainKey → m.SameClass n) ↔
      m.ReadsOneWay := by
  constructor
  · intro h
    apply readsOneWay_of_agree hm
    intro n hn hmat
    exact h n hn ((material_eq_of_domainKey hinj).mpr hmat)
  · intro h n hn hkey
    exact sameClass_of_readsOneWay hm hn h ((material_eq_of_domainKey hinj).mp hkey)

/-- A one-column table of tenant `demo`. -/
abbrev sample (policy : Option String) (compartments : List String) : EvidenceManifest where
  contractVersion := "0.1.0"
  canon := "canon@1"
  evidenceId := none
  tenant := "demo"
  logicalResultHash := "sha256:aaaaaaaaaaaaaaaaaaaaaaaaaaaaaaaaaaaaaaaaaaaaaaaaaaaaaaaaaaaaaaaa"
  artifactHash := "sha256:bbbbbbbbbbbbbbbbbbbbbbbbbbbbbbbbbbbbbbbbbbbbbbbbbbbbbbbbbbbbbbbb"
  bytesLen := 12
  mediaType := MEDIA_TYPE_CSV
  versions := ⟨policy⟩
  columns := [⟨"c1", "c1", true⟩]
  identity := ⟨.keys, []⟩
  snapshotVector := [⟨"crm"⟩]
  authorizationClass := ⟨0, compartments⟩
  retention := none

/-- SHA-256 where the sample needs it. -/
abbrev sampleSha256 : Sha256 := tabledSha256 [(utf8 (sample (some "p1") ["eu"]).material, [
    130, 190, 246, 120, 200, 22, 94, 189, 14, 225, 79, 100, 73, 216, 64, 26, 198, 95, 2, 252,
    80, 120, 28, 165, 251, 72, 48, 164, 167, 38, 232, 145])]

section
attribute [local instance] sampleSha256

theorem domainKey_separates_one_compartment :
    (∀ n : EvidenceManifest, n.Accepted → (sample (some "p1") ["eu"]).domainKey = n.domainKey →
      (sample (some "p1") ["eu"]).SameClass n) ↔ (sample (some "p1") ["eu"]).ReadsOneWay := by
  have hinj : Function.Injective sampleSha256.digest :=
    tabledSha256_injective (by decide) (by decide)
  have hm : (sample (some "p1") ["eu"]).Accepted := by decide +kernel
  exact domainKey_separates_iff hinj hm

end

/-- Two compartments and one whose tag holds the separator are one key, and so are an
absent and an empty policy. -/
theorem domainKey_shared_across_classes :
    (sample (some "p1") ["a", "b"]).Accepted ∧ (sample (some "p1") ["a\x1fb"]).Accepted ∧
      (sample (some "") ["a\x1fb"]).Accepted ∧ (sample none ["a\x1fb"]).Accepted ∧
      (∀ [Sha256], (sample (some "p1") ["a", "b"]).domainKey =
          (sample (some "p1") ["a\x1fb"]).domainKey ∧
        (sample none ["a\x1fb"]).domainKey = (sample (some "") ["a\x1fb"]).domainKey) ∧
      ¬ (sample (some "p1") ["a", "b"]).SameClass (sample (some "p1") ["a\x1fb"]) ∧
      ¬ (sample none ["a\x1fb"]).SameClass (sample (some "") ["a\x1fb"]) := by
  refine ⟨by decide +kernel, by decide +kernel, by decide +kernel, by decide +kernel, ?_, ?_, ?_⟩
  · intro _
    have hpair : (sample (some "p1") ["a", "b"]).material =
        (sample (some "p1") ["a\x1fb"]).material := by decide +kernel
    have hpolicy : (sample none ["a\x1fb"]).material = (sample (some "") ["a\x1fb"]).material := by
      decide +kernel
    exact ⟨by rw [domainKey, domainKey, hpair], by rw [domainKey, domainKey, hpolicy]⟩
  · intro h
    have := (h.2.2.2.2 "a").mp (by simp)
    exact absurd this (by decide)
  · intro h
    exact absurd h.2.2.1 (by decide)

end EvidenceManifest

end Munarium

import Munarium.Platform.CheckpointPages
import Munarium.Platform.EpochRuns

/-! Readers that follow a checkpoint's pages while the ledger goes on: they get every record up
to the cutoff once, under one digest. -/
namespace Munarium

namespace PlatformAction
open PlatformRecord (MAX)

section
variable [SerdeJson] [Sha256] [ActionSchema]

theorem exportOf_descriptor {l : ActionLedger} {pin : ℕ} {artifacts events : List Stored}
    {x : Export} (h : l.exportOf pin artifacts events = .ok x) :
    ∃ heads, x.descriptor = l.descriptorFields pin x.entries.length heads := by
  obtain ⟨archived, -, h⟩ := bind_eq_ok.mp h
  obtain ⟨⟨heads, recorded⟩, -, h⟩ := bind_eq_ok.mp h
  obtain ⟨⟨⟩, -, h⟩ := bind_eq_ok.mp h
  cases h
  exact ⟨_, rfl⟩

variable [Platform] [IdGenerator]

/-- A pinned checkpoint of a state: what it holds can be read and put together. -/
structure AtPin (l : ActionLedger) (pin : ℕ) (x : Export) (s : State) : Prop where
  linked : Linked l.version s
  reached : ∃ head, s.headOf l.version = .ok head ∧ pin ≤ head
  ordered : x.Ordered pin
  exported : ∃ artifacts events,
    l.snapshot pin (acceptedSlice (upTo pin (s.claims l.version))) = .ok (artifacts, events) ∧
      l.exportOf pin artifacts events = .ok x

theorem AtPin.later {l : ActionLedger} {pin : ℕ} {x : Export} {s t : State}
    (h : AtPin l pin x s) (hst : Links l.version s t) : AtPin l pin x t := by
  obtain ⟨ht, hlater⟩ := hst h.linked
  obtain ⟨head, hh, hle⟩ := h.reached
  obtain ⟨head', hh', hle'⟩ := hlater.head head hh
  refine ⟨ht, ⟨head', hh', hle.trans hle'⟩, h.ordered, ?_⟩
  rw [hlater.upTo_eq hh hle]
  exact h.exported

section Reader
variable {l : ActionLedger} {a : ActionAdmission} {pin limit : ℕ} {x : Export} {s : State}

omit [SerdeJson] [Sha256] [ActionSchema] [Platform] [IdGenerator] in
theorem checkPin_ok {current pin : ℕ} {cutoff : Option ℕ} (hpin : cutoff.getD current = pin)
    (hreached : pin ≤ current) (hmax : pin ≤ MAX) :
    ActionLedger.checkPin current cutoff = .ok pin := by
  subst hpin
  simp [ActionLedger.checkPin, require, hreached, hmax, bind, Except.bind]

/-- A page read at a pinned position is the same whatever joins meanwhile. -/
theorem checkpoint_ensures (hs : AtPin l pin x s) {after : ℕ}
    (hprepared : l.prepareCheckpoint a after limit = .ok ()) (hafter : after ≤ pin) :
    (l.checkpoint a (some pin) after limit).Ensures (Links l.version) Eq
      (fun r t => r = x.answer after limit ∧ AtPin l pin x t) s := by
  unfold ActionLedger.checkpoint
  rw [hprepared]
  apply Shared.ensures_read fun _ => rfl
  intro t hst
  have ht := hs.later hst
  obtain ⟨head, hh, hle⟩ := ht.reached
  have hcheck : ActionLedger.checkPin head (some pin) = .ok pin :=
    checkPin_ok rfl hle hs.ordered.bound
  rw [hh]
  show (onOk _ (ActionLedger.checkPin head (some pin))).Ensures _ _ _ _
  rw [hcheck]
  apply Shared.ensures_read fun _ => rfl
  intro u htu
  have hu := ht.later htu
  rw [hu.linked.root.slice_upTo pin]
  intro w huw
  obtain ⟨artifacts, events, hsnapshot, hexport⟩ := hu.exported
  refine ⟨?_, hu.later huw⟩
  simp [ActionLedger.judgeCheckpoint, hsnapshot, hexport, require, hafter, bind, Except.bind]

omit [SerdeJson] [Sha256] [ActionSchema] [Platform] [IdGenerator] in
theorem prepareCheckpoint_ok (hauthorized : l.authorize a false = .ok ()) (hpos : 1 ≤ limit)
    (hlimit : limit ≤ 64) {after : ℕ} (hafter : after ≤ MAX) :
    l.prepareCheckpoint a after limit = .ok () := by
  simp [ActionLedger.prepareCheckpoint, hauthorized, require, hpos, hlimit, hafter, bind,
    Except.bind]

/-- One page, and what a reader gets from there on if it gets the rest. -/
theorem page_ensures [SerdeMember] (hs : AtPin l pin x s) (hfits : x.Fits)
    (hauthorized : l.authorize a false = .ok ()) (hpos : 1 ≤ limit) (hlimit : limit ≤ 64)
    {before rest : List Json} {after : ℕ} (hentries : x.entries = before ++ rest)
    (hremaining : x.remaining after = rest) (hafter : after ≤ pin)
    (hstart : rest = [] → after = 0 ∧ before = [])
    {k : ℕ → ℕ → ℕ → Shared State (Result (List Json))}
    (hk : ∀ t selected rest' next, AtPin l pin x t → rest = selected ++ rest' → selected ≠ [] →
      rest' ≠ [] → next ≤ pin → x.remaining next = rest' →
      (k pin x.entries.length next).Ensures (Links l.version) Eq
        (fun r _ => ∃ pages, r = .ok pages ∧ Pages x pin rest' pages) t) :
    ((l.checkpoint a (some pin) after limit).bind (onOk (ActionLedger.withRest k))).Ensures
      (Links l.version) Eq (fun r _ => ∃ pages, r = .ok pages ∧ Pages x pin rest pages) s := by
  apply Shared.Ensures.bind (relyLinked _).refl
  have hprepared := prepareCheckpoint_ok hauthorized hpos hlimit (hafter.trans hs.ordered.bound)
  apply (checkpoint_ensures hs hprepared hafter).weaken (fun _ _ h => h)
  rintro r t ⟨rfl, ht⟩
  obtain ⟨selected, rest', hrest, hsome, hanswer⟩ :=
    Export.answer_ok hfits hentries hremaining hpos hstart
  obtain ⟨artifacts, events, -, hexport⟩ := hs.exported
  obtain ⟨heads, hdescriptor⟩ := exportOf_descriptor hexport
  rw [hanswer]
  show (ActionLedger.withRest k _).Ensures _ _ _ _
  by_cases hdone : rest' = []
  · subst hdone
    rw [List.append_nil] at hrest
    subst hrest
    have hcomplete := (page_index hdescriptor after rest true .null).2.2.2.2.1
    simp only [decide_true, if_true]
    rw [ActionLedger.withRest, if_pos hcomplete]
    exact fun _ _ => ⟨_, rfl, pages_last hdescriptor⟩
  have hselected : selected ≠ [] := by
    apply hsome
    rw [hrest]
    simp [hdone]
  obtain ⟨init, last, rfl⟩ := (List.eq_nil_or_concat selected).resolve_left hselected
  rw [List.concat_eq_append] at hrest hselected ⊢
  have hlast : last ∈ x.entries := by simp [hentries, hrest]
  obtain ⟨next, hnext, -, hle⟩ := hs.ordered.numbered last hlast
  have hposition : lastPosition (init ++ [last]) = .int next := by
    rw [lastPosition, List.getLast?_concat, Option.map_some, Option.getD_some, hnext]
  simp only [hdone, decide_false, if_false, hposition]
  obtain ⟨hpin, htotal, -, -, hcomplete, hafterNext⟩ :=
    page_index hdescriptor after (init ++ [last]) false (.int next)
  have hbound := hs.ordered.bound
  rw [ActionLedger.withRest, if_neg (by simp [hcomplete]), hpin, htotal, hafterNext,
    number_int hbound, number_int (hs.ordered.length_le.trans hbound),
    number_int (hle.trans hbound)]
  apply Shared.Ensures.map
  have hsplit : x.entries = before ++ (init ++ [last]) ++ rest' := by
    rw [hentries, hrest]
    simp only [List.append_assoc]
  have hend : (before ++ (init ++ [last])).getLast? = some last := by
    rw [← List.append_assoc, List.getLast?_concat]
  have hremaining' : x.remaining next = rest' :=
    hs.ordered.remaining_past hsplit hend hnext hle
  apply (hk t _ rest' next ht hrest hselected hdone hle hremaining').weaken (fun _ _ h => h)
  rintro r u ⟨pages, rfl, hpages⟩
  exact ⟨_, rfl, hrest ▸ hpages.cons hdescriptor⟩

/-- Following a checkpoint's pages gives all that remains of it. -/
theorem followPages_ensures [SerdeMember] (hs : AtPin l pin x s) (hfits : x.Fits)
    (hauthorized : l.authorize a false = .ok ()) (hpos : 1 ≤ limit) (hlimit : limit ≤ 64)
    {before rest : List Json} {n after : ℕ} (hentries : x.entries = before ++ rest)
    (hremaining : x.remaining after = rest) (hafter : after ≤ pin) (hne : rest ≠ [])
    (hn : rest.length ≤ n) : (l.followPages a limit pin n after).Ensures (Links l.version) Eq
      (fun r _ => ∃ pages, r = .ok pages ∧ Pages x pin rest pages) s := by
  induction n generalizing s before rest after with
  | zero => exact absurd (List.length_eq_zero_iff.mp (by omega)) hne
  | succ n ih =>
    unfold ActionLedger.followPages
    apply page_ensures hs hfits hauthorized hpos hlimit hentries hremaining hafter
      (fun hnil => absurd hnil hne)
    intro t selected rest' next ht hrest hselected hne' hnext hremaining'
    have hlen : 0 < selected.length := List.length_pos_of_ne_nil hselected
    have hshorter : rest'.length ≤ n := by
      rw [hrest, List.length_append] at hn
      omega
    have hsplit : x.entries = before ++ selected ++ rest' := by
      rw [hentries, hrest, List.append_assoc]
    exact ih ht hsplit hremaining' hnext hne' hshorter

/-- A reader of all pages gets all records of the checkpoint. -/
theorem readPages_ensures [SerdeMember] (hs : AtPin l pin x s) (hfits : x.Fits)
    (hauthorized : l.authorize a false = .ok ()) (hpos : 1 ≤ limit) (hlimit : limit ≤ 64) :
    (l.readPages a (some pin) limit).Ensures (Links l.version) Eq
      (fun r _ => ∃ pages, r = .ok pages ∧ Pages x pin x.entries pages) s := by
  unfold ActionLedger.readPages
  have hall : x.entries = [] ++ x.entries := rfl
  apply page_ensures hs hfits hauthorized hpos hlimit hall hs.ordered.remaining_zero
    (Nat.zero_le pin) (fun _ => ⟨rfl, rfl⟩)
  intro t selected rest' next ht hrest _ hne hnext hremaining
  have hlen := congrArg List.length hrest
  rw [List.length_append] at hlen
  exact followPages_ensures ht hfits hauthorized hpos hlimit hrest hremaining hnext hne (by omega)

omit [SerdeJson] [Sha256] [ActionSchema] [Platform] [IdGenerator] in
theorem ensures_onOk {β γ : Type} {R G : State → State → Prop} {r : Result β}
    {next : β → Shared State (Result γ)} {s : State}
    (h : ∀ b, r = .ok b → (next b).Ensures R G (fun _ _ => True) s) :
    (onOk next r).Ensures R G (fun _ _ => True) s := by
  cases r with
  | error e => exact fun _ _ => trivial
  | ok b => exact h b rfl

theorem checkpoint_reads (cutoff : Option ℕ) (after : ℕ) :
    (l.checkpoint a cutoff after limit).Ensures (Links l.version) Eq (fun _ _ => True) s := by
  apply ensures_onOk
  rintro ⟨⟩ -
  apply Shared.ensures_read fun _ => rfl
  intro t _
  apply ensures_onOk
  intro current _
  apply ensures_onOk
  intro pin _
  apply Shared.ensures_read fun _ => rfl
  intro u _
  apply ensures_onOk
  exact fun _ _ _ _ => trivial

theorem withRest_reads {k : ℕ → ℕ → ℕ → Shared State (Result (List Json))}
    (hk : ∀ pin total next,
      (k pin total next).Ensures (Links l.version) Eq (fun _ _ => True) s) (page : Json) :
    (ActionLedger.withRest k page).Ensures (Links l.version) Eq (fun _ _ => True) s := by
  unfold ActionLedger.withRest
  split
  · exact fun _ _ => trivial
  · apply ensures_onOk
    rintro ⟨pin, total, next⟩ -
    exact Shared.Ensures.map (hk pin total next)

theorem followPages_reads (n after : ℕ) :
    (l.followPages a limit pin n after).Ensures (Links l.version) Eq (fun _ _ => True) s := by
  induction n generalizing s after with
  | zero => exact fun _ _ => trivial
  | succ n ih =>
    unfold ActionLedger.followPages
    apply Shared.Ensures.bind (relyLinked _).refl
    apply (checkpoint_reads _ _).weaken (fun _ _ h => h)
    exact fun r t _ => ensures_onOk fun page _ => withRest_reads (fun _ _ next => ih next) page

/-- Reading changes nothing. -/
theorem readPages_reads (cutoff : Option ℕ) :
    (l.readPages a cutoff limit).Ensures (Links l.version) Eq (fun _ _ => True) s := by
  unfold ActionLedger.readPages
  apply Shared.Ensures.bind (relyLinked _).refl
  apply (checkpoint_reads _ _).weaken (fun _ _ h => h)
  exact fun r t _ =>
    ensures_onOk fun page _ => withRest_reads (fun _ _ _ => followPages_reads _ _) page

end Reader

/-- One reader of a checkpoint, under the policy it holds. -/
structure ExportCall where
  policy : ActionPolicy
  admission : ActionAdmission
  cutoff : Option ℕ
  limit : ℕ

/-- The ledger's calls and its readers; a reader answers with the list of its pages. -/
def ledgerProgram (v : String) : ActionCall ⊕ ExportCall → Shared State (Result Json)
  | .inl c => program v c
  | .inr c => (ActionLedger.readPages { version := v, policy := c.policy } c.admission c.cutoff
      c.limit).map fun r => r.map .arr

section Runs
variable [Unicode]

theorem boundsLedger [StreamSchema] [SerdeRoundTrip] (v : String) :
    Pool.Bounds (ledgerProgram v) (Outside v) (Linked v) (Links v) (fun _ => Links v)
      (fun _ _ _ => True) where
  refl := (relyLinked v).refl
  trans := (relyLinked v).trans
  keeps := (relyLinked v).keeps
  start r s hs := by
    cases r with
    | inl c =>
      exact ((boundsLinked v).start c s hs).weaken (fun _ _ h => h.1) fun _ _ _ => trivial
    | inr c =>
      apply Shared.Ensures.map
      apply (readPages_reads (l := { version := v, policy := c.policy }) c.cutoff).weaken
      · rintro _ _ rfl
        exact (relyLinked v).refl _
      · exact fun _ _ _ => trivial
  guarantee _ _ _ _ h := h
  outside _ hf _ _ := hf.links

omit [Unicode] in
/-- The first step of a reader is to read the head, and only the pin it gives matters. -/
theorem ledgerProgram_pins {v : String} (policy : ActionPolicy) (a : ActionAdmission) (limit : ℕ)
    (hprepared : ActionLedger.prepareCheckpoint { version := v, policy := policy } a 0 limit =
      .ok ()) :
    ∃ k : Result ℕ → Shared State (Result Json),
      ∀ cutoff, ledgerProgram v (.inr ⟨policy, a, cutoff, limit⟩) =
      Shared.read (fun s => s.headOf v)
        (fun head => k (head.bind fun current => ActionLedger.checkPin current cutoff)) := by
  let l : ActionLedger := { version := v, policy := policy }
  refine ⟨fun pinned => ((onOk (fun pin => Shared.read
      (fun s => s.sliceFacts v { asOfSeq := some pin })
      (onOk fun facts => .done (l.judgeCheckpoint 0 limit pin facts))) pinned).bind
    (onOk (ActionLedger.withRest fun pin total next => l.followPages a limit pin total next))).map
      fun r => r.map Json.arr, ?_⟩
  intro cutoff
  unfold ledgerProgram ActionLedger.readPages ActionLedger.checkpoint
  simp only [hprepared, onOk, Shared.read, Shared.bind, Shared.map]
  congr 1
  funext s
  cases s.headOf v with
  | error e => rfl
  | ok head => rfl

end Runs
end

section
attribute [local instance] asciiUnicode samplePlatform unaryIds plainSha256 sampleSerde sampleSchema

def sampleReaders : ActionPolicy := { samplePolicy with readers := {"svc-warden"} }

def readerAdmission : ActionAdmission := { sampleAdmission with service := "svc-warden" }

def isRefusal : Shared State (Result (List Json)) → Bool
  | .done (.error _) => true
  | _ => false

theorem sampleMembers : SerdeMember where
  short before after k v w hv hk := by
    have hplain : sampleTexts.all (fun e => e.1.asObject.all fun fields =>
        fields.all fun f => f.2 != .null && f.2 != .bool true) = true := by decide +kernel
    have hnone : sampleTexts.lookup (.object (before ++ (k, v) :: after)) = none := by
      rw [List.lookup_eq_none_iff]
      intro e he
      rw [bne_iff_ne]
      intro heq
      have hfields := List.all_eq_true.mp hplain e he
      rw [← heq] at hfields
      have hget : (Json.object (before ++ (k, v) :: after)).get k = some v := by
        simp only [Json.object, Json.get_obj, List.foldl_append, List.foldl_cons]
        rw [Json.lookup_foldl_insert after hk, SortedMap.lookup_insertEntry_self]
      obtain ⟨first, last, hsplit, -⟩ := List.lookup_eq_some_iff.mp hget
      have hmember := List.all_eq_true.mp hfields (k, v) (by rw [hsplit]; simp)
      rcases hv with rfl | rfl
      · exact absurd hmember (by simp)
      · exact absurd hmember (by simp)
    show (((sampleTexts.lookup _).map utf8).getD []).length ≤ _
    rw [hnone]
    exact Nat.zero_le _

theorem sampleSerde_short (v : Json) : (SerdeJson.toVec v).length ≤ 7 := by
  have hshort : sampleTexts.all (fun e => decide ((utf8 e.2).length ≤ 7)) = true := by
    decide +kernel
  show (((sampleTexts.lookup v).map utf8).getD []).length ≤ 7
  cases hv : sampleTexts.lookup v with
  | none => exact Nat.zero_le 7
  | some t =>
    obtain ⟨before, after, hsplit, -⟩ := List.lookup_eq_some_iff.mp hv
    have hmem : (v, t) ∈ sampleTexts := by
      rw [hsplit]
      simp
    exact of_decide_eq_true (List.all_eq_true.mp hshort _ hmem)

def archived : Pool State (ActionCall ⊕ ExportCall) (Result Json) :=
  Pool.play (ledgerProgram "memv-") { state := freshLedger }
    (.start (.inl (.archive samplePolicy sampleAdmission (utf8 "request"))) ::
      List.replicate 3 (.advance 0))

/-- A request is archived, and a reader asks for what is there. -/
def archivedAndAsked : Pool State (ActionCall ⊕ ExportCall) (Result Json) :=
  archived.step (ledgerProgram "memv-") (.start (.inr ⟨sampleReaders, readerAdmission, none, 1⟩))

/-- Another call's row joins before the reader's page is put together. -/
def joined : Pool State (ActionCall ⊕ ExportCall) (Result Json) :=
  Pool.play (ledgerProgram "memv-") (archivedAndAsked.advance 1)
    (.start (.inl (.applyActivation samplePolicy sampleEnrollment .null sampleEvidence)) ::
      List.replicate 3 (.advance 2))

end

end PlatformAction
end Munarium

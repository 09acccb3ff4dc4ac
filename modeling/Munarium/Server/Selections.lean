import Munarium.Lib.Delimited
import Munarium.Server.EvidenceProviders

/-! The selections of semantic data views: a model's reply is cut at its braces, and what it chooses
is kept where the view declares it. -/
namespace Munarium

/-- What is cut from the first opening brace of a reply to its last closing one. -/
inductive BraceSlice where
  | absent
  | outOfRange
  | object (text : List Char)

/-- `&text[a..=b]`; both braces are one byte, so the range fails on positions of characters as it
does on those of bytes. -/
def sliceBraces (text : List Char) : BraceSlice :=
  match Delimited.cut '\x7b' text, Delimited.cut '\x7d' text.reverse with
  | some (before, _), some (_, rest) =>
      let a := before.length
      let b := rest.length
      if a ≤ b + 1 then .object ((text.drop a).take (b + 1 - a)) else .outOfRange
  | _, _ => .absent

/-- The members of a part of a view's specification, with their descriptions. -/
def viewNames (spec : Json) (key : String) : List (String × String) :=
  (((spec.get key).bind Json.asObject).getD []).map fun m =>
    (m.1, ((m.2.get "description").bind Json.asStr).getD "")

def dimTypes (spec : Json) : SortedMap String String :=
  (((spec.get "dimensions").bind Json.asObject).getD []).foldl
    (fun types m => types.insert m.1 (((m.2.get "type").bind Json.asStr).getD "string"))
    SortedMap.empty

def strings (v : Option Json) : List String :=
  ((v.bind Json.asArray).getD []).filterMap Json.asStr

/-- The dimensions that a view names as filterable. -/
def filterableDimensions (spec : Json) : List String :=
  strings ((spec.get "filters").bind fun f => f.get "allowedDimensions")

def synonymLine (m : String × Json) : Option String :=
  m.2.asArray.map fun items => m.1 ++ ": " ++ join ", " (items.filterMap Json.asStr)

def synonyms (spec : Json) : String :=
  join "; " ((((spec.get "synonyms").bind Json.asObject).getD []).filterMap synonymLine)

def listed (items : List (String × String)) : String :=
  join ", " (items.map fun i => if i.2.isEmpty then i.1 else i.1 ++ " (" ++ i.2 ++ ")")

def selectionPrompt (view : DataViewSpec) (spec : Json) (query : String) : String :=
  "You choose what to ask a governed data view. Answer with ONLY a JSON object of the form " ++
  "\x7b\"measures\": [..], \"dimensions\": [..], \"filters\": [\x7b\"dimension\": \"..\", " ++
  "\"value\": \"..\"\x7d]\x7d. Use only the listed names, verbatim. Choose the fewest dimensions " ++
  "that answer the question; add a filter only when the question names a specific value of a " ++
  "filterable dimension. No prose.\n\nView: " ++ view.contract ++ " — " ++
  trim (((spec.get "description").bind Json.asStr).getD "") ++ "\nMeasures: " ++
  listed (viewNames spec "measures") ++ "\nDimensions: " ++ listed (viewNames spec "dimensions") ++
  "\nFilterable dimensions: " ++
  (if (filterableDimensions spec).isEmpty then "(all)" else join ", " (filterableDimensions spec)) ++
  "\nSynonyms: " ++ (if (synonyms spec).isEmpty then "(none)" else synonyms spec) ++
  "\n\nQuestion: " ++ query

/-- The names that a reply chooses of those that are allowed. -/
def pickNames (chosen : Json) (key : String) (allowed : List (String × String)) : List String :=
  (strings (chosen.get key)).filter fun x => allowed.any fun a => a.1 == x

/-- A filter that a reply asks for, where the view declares and allows its dimension. -/
def pickFilter [FloatText] (spec f : Json) : Option SemanticFilterSelection :=
  ((f.get "dimension").bind Json.asStr).bind fun dimension =>
    let value :=
      match (f.get "value").getD .null with
      | .str v => v
      | other => other.display
    let declared := (viewNames spec "dimensions").any fun d => d.1 == dimension
    let open_ := (filterableDimensions spec).isEmpty || (filterableDimensions spec).contains dimension
    if declared && open_ then
      some ⟨dimension, value, ((dimTypes spec).get? dimension).getD "string"⟩
    else none

/-- What a reply that is an object selects of a view; none without a measure. -/
def chosenSelection [FloatText] (spec chosen : Json) : Option SemanticSelection :=
  let measures := pickNames chosen "measures" (viewNames spec "measures")
  if measures.isEmpty then none
  else some {
    measures := measures
    dimensions := pickNames chosen "dimensions" (viewNames spec "dimensions")
    filters := (((chosen.get "filters").bind Json.asArray).getD []).filterMap (pickFilter spec) }

/-- What a reply selects of a view; the slice panics where its range ends before it starts. -/
def readReply [FloatText] (parse : String → Option Json) (spec : Json) (text : String) :
    Except String (Option SemanticSelection) :=
  match sliceBraces text.toList with
  | .absent => .ok none
  | .outOfRange => .error "slice index starts past its end"
  | .object cut => .ok ((parse (String.ofList cut)).bind (chosenSelection spec))

/-- What stands outside: a view's document, where it is fetched and read, and a model's reply to a
prompt, where there is one. -/
structure SelectionSources where
  asset : DataViewSpec → Option Json
  reply : DataViewSpec → String → Option String

structure ResearchProfile where
  name : String
  layers : List EvidenceLayer

structure RetrievalSpec where
  researchProfiles : List ResearchProfile
  defaultResearchProfile : Option String

structure SelectionRequest where
  query : String
  researchProfile : Option String

/-- The layers of the profile that a request names, or of the default one. -/
def profileLayers (retrieval : Option RetrievalSpec) (req : SelectionRequest) :
    Option (List EvidenceLayer) :=
  retrieval.bind fun r =>
    let profileName := req.researchProfile.or r.defaultResearchProfile
    (r.researchProfiles.find? fun p => some p.name == profileName).map ResearchProfile.layers

/-- The semantic views that the layers reach. -/
def reachableViews (layers : List EvidenceLayer) (views : List DataViewSpec) : List DataViewSpec :=
  let reachable := layers.flatMap fun l => l.sources.filterMap (stripStart "matrix:")
  views.filter fun v => v.kind.isSemantic && reachable.contains v.name

/-- A view's specification and the reply to its prompt, where the view has measures. -/
def viewReply (o : SelectionSources) (query : String) (view : DataViewSpec) :
    Option (Json × String) :=
  (o.asset view).bind fun asset =>
    let spec := (asset.get "spec").getD .null
    if (viewNames spec "measures").isEmpty then none
    else (o.reply view (selectionPrompt view spec query)).map fun text => (spec, text)

def viewSelection [FloatText] (parse : String → Option Json) (o : SelectionSources) (query : String)
    (view : DataViewSpec) : Except String (Option SemanticSelection) :=
  match viewReply o query view with
  | none => .ok none
  | some (spec, text) => readReply parse spec text

def selectViews (select : DataViewSpec → Except String (Option SemanticSelection))
    (out : SortedMap String SemanticSelection) :
    List DataViewSpec → Except String (SortedMap String SemanticSelection)
  | [] => .ok out
  | view :: views =>
      match select view with
      | .error panic => .error panic
      | .ok none => selectViews select out views
      | .ok (some selection) => selectViews select (out.insert view.name selection) views

/-- The views that are asked for a selection. -/
def askedViews (retrieval : Option RetrievalSpec) (views : List DataViewSpec)
    (req : SelectionRequest) (matrixBaseUrl : Option String) : List DataViewSpec :=
  match profileLayers retrieval req, matrixBaseUrl with
  | some layers, some _ => reachableViews layers views
  | _, _ => []

def resolveSelections [FloatText] (parse : String → Option Json) (o : SelectionSources)
    (retrieval : Option RetrievalSpec) (views : List DataViewSpec) (req : SelectionRequest)
    (matrixBaseUrl : Option String) : Except String (SortedMap String SemanticSelection) :=
  selectViews (viewSelection parse o req.query) SortedMap.empty
    (askedViews retrieval views req matrixBaseUrl)

section Reply

/-- A reply whose last closing brace stands before its first opening one, with text between. -/
def Crossed (text : List Char) : Prop :=
  ∃ before between after, text = before ++ '\x7d' :: (between ++ '\x7b' :: after) ∧
    '\x7b' ∉ before ∧ '\x7b' ∉ between ∧ '\x7d' ∉ between ∧ '\x7d' ∉ after ∧ between ≠ []

/-- The slice fails exactly on a reply whose braces are crossed. -/
theorem sliceBraces_outOfRange_iff (text : List Char) :
    sliceBraces text = .outOfRange ↔ Crossed text := by
  constructor
  · intro h
    unfold sliceBraces at h
    split at h
    · rename_i before after behind rest hopen hclose
      simp only at h
      split_ifs at h with hle
      obtain ⟨htext, hbefore⟩ := Delimited.cut_eq_some_iff.mp hopen
      obtain ⟨hreverse, hbehind⟩ := Delimited.cut_eq_some_iff.mp hclose
      have hlast : text = rest.reverse ++ '\x7d' :: behind.reverse := by
        rw [← text.reverse_reverse, hreverse]
        simp
      have hjoin : rest.reverse ++ '\x7d' :: behind.reverse = before ++ '\x7b' :: after :=
        hlast.symm.trans htext
      rcases List.append_eq_append_iff.mp hjoin with ⟨u, hu, hrest⟩ | ⟨u, hu, hrest⟩
      · have hlen := congrArg List.length hu
        simp only [List.length_append, List.length_reverse] at hlen
        cases u with
        | nil =>
          rw [List.length_nil] at hlen
          omega
        | cons x between =>
          rw [List.length_cons] at hlen
          obtain ⟨rfl, hbehind'⟩ : '\x7d' = x ∧ behind.reverse = between ++ '\x7b' :: after := by
            simpa using hrest
          have hmem : '\x7d' ∉ between ++ '\x7b' :: after := by
            rw [← hbehind', List.mem_reverse]
            exact hbehind
          simp only [hu, List.mem_append, List.mem_cons, not_or] at hbefore hmem
          have hne : between ≠ [] := by
            rintro rfl
            rw [List.length_nil] at hlen
            omega
          refine ⟨rest.reverse, between, after, ?_, hbefore.1, hbefore.2.2, hmem.1, hmem.2.2, hne⟩
          rw [hlast, hbehind']
      · have hlen := congrArg List.length hu
        simp only [List.length_append, List.length_reverse] at hlen
        omega
    · cases h
  · intro h
    obtain ⟨before, between, after, htext, hb, hbo, hbc, hac, hne⟩ := h
    have hopen : Delimited.cut '\x7b' text = some (before ++ '\x7d' :: between, after) := by
      apply Delimited.cut_eq_some_iff.mpr
      constructor
      · rw [htext, List.append_assoc, List.cons_append]
      · simp only [List.mem_append, List.mem_cons, not_or]
        exact ⟨hb, by decide, hbo⟩
    have hclose : Delimited.cut '\x7d' text.reverse =
        some ((between ++ '\x7b' :: after).reverse, before.reverse) := by
      apply Delimited.cut_eq_some_iff.mpr
      constructor
      · simp [htext]
      · simp only [List.mem_reverse, List.mem_append, List.mem_cons, not_or]
        exact ⟨hbc, by decide, hac⟩
    have hpos := List.length_pos_iff.mpr hne
    simp only [sliceBraces, hopen, hclose, List.length_append, List.length_cons,
      List.length_reverse]
    rw [if_neg (by omega)]

theorem readReply_panics_iff [FloatText] (parse : String → Option Json) (spec : Json)
    (text : String) : (∃ panic, readReply parse spec text = .error panic) ↔
      Crossed text.toList := by
  rw [← sliceBraces_outOfRange_iff]
  unfold readReply
  cases sliceBraces text.toList <;> simp

end Reply

section Choice

variable {spec chosen : Json}

/-- A name that a part of a specification declares. -/
def Declared (spec : Json) (key name : String) : Prop :=
  ∃ members value, (spec.get key).bind Json.asObject = some members ∧ (name, value) ∈ members

/-- A name that a part of a reply lists. -/
def Listed (chosen : Json) (key name : String) : Prop :=
  ∃ items, (chosen.get key).bind Json.asArray = some items ∧ Json.str name ∈ items

/-- A selection within what a view declares and allows. -/
structure Allowed (spec : Json) (s : SemanticSelection) : Prop where
  some_measure : s.measures ≠ []
  measures : ∀ m ∈ s.measures, Declared spec "measures" m
  dimensions : ∀ d ∈ s.dimensions, Declared spec "dimensions" d
  filters : ∀ f ∈ s.filters, Declared spec "dimensions" f.dimension ∧
    (filterableDimensions spec = [] ∨ f.dimension ∈ filterableDimensions spec)

theorem any_viewNames_iff {key name : String} :
    (viewNames spec key).any (fun a => a.1 == name) = true ↔ Declared spec key name := by
  unfold viewNames Declared
  cases (spec.get key).bind Json.asObject with
  | none => simp
  | some members => simp

theorem mem_strings_iff {key name : String} :
    name ∈ strings (chosen.get key) ↔ Listed chosen key name := by
  unfold strings Listed
  cases (chosen.get key).bind Json.asArray with
  | none => simp
  | some items => simp [List.mem_filterMap, Json.asStr_eq_some]

theorem mem_pickNames_iff {key name : String} :
    name ∈ pickNames chosen key (viewNames spec key) ↔
      Listed chosen key name ∧ Declared spec key name := by
  rw [pickNames, List.mem_filter, mem_strings_iff, any_viewNames_iff]

theorem pickFilter_allowed [FloatText] {f : Json} {s : SemanticFilterSelection}
    (h : pickFilter spec f = some s) : Declared spec "dimensions" s.dimension ∧
      (filterableDimensions spec = [] ∨ s.dimension ∈ filterableDimensions spec) := by
  obtain ⟨dimension, -, hpick⟩ := Option.bind_eq_some_iff.mp h
  simp only at hpick
  split_ifs at hpick with hboth
  cases hpick
  rw [Bool.and_eq_true, any_viewNames_iff, Bool.or_eq_true, List.isEmpty_iff,
    List.contains_iff_mem] at hboth
  exact hboth

/-- What is chosen is within what the view declares and allows. -/
theorem chosenSelection_allowed [FloatText] {s : SemanticSelection}
    (h : chosenSelection spec chosen = some s) : Allowed spec s := by
  unfold chosenSelection at h
  simp only at h
  split_ifs at h with hempty
  cases h
  constructor
  case some_measure => exact fun hnil => hempty (List.isEmpty_iff.mpr hnil)
  case measures => exact fun m hm => (mem_pickNames_iff.mp hm).2
  case dimensions => exact fun d hd => (mem_pickNames_iff.mp hd).2
  case filters =>
    intro f hf
    obtain ⟨asked, -, hpick⟩ := List.mem_filterMap.mp hf
    exact pickFilter_allowed hpick

theorem chosenSelection_listed [FloatText] {s : SemanticSelection}
    (h : chosenSelection spec chosen = some s) :
    ∃ m, Listed chosen "measures" m ∧ Declared spec "measures" m := by
  unfold chosenSelection at h
  simp only at h
  split_ifs at h with hempty
  obtain ⟨m, hm⟩ := List.exists_mem_of_ne_nil _ (fun hnil => hempty (List.isEmpty_iff.mpr hnil))
  exact ⟨m, mem_pickNames_iff.mp hm⟩

end Choice

/-- A reply whose object lists a measure that the view declares. -/
def YieldsMeasure (parse : String → Option Json) (spec : Json) (text : String) : Prop :=
  ∃ cut chosen m, sliceBraces text.toList = .object cut ∧ parse (String.ofList cut) = some chosen ∧
    Listed chosen "measures" m ∧ Declared spec "measures" m

theorem readReply_selects [FloatText] {parse : String → Option Json} {spec : Json} {text : String}
    {s : SemanticSelection} (h : readReply parse spec text = .ok (some s)) :
    Allowed spec s ∧ YieldsMeasure parse spec text := by
  unfold readReply at h
  cases hslice : sliceBraces text.toList with
  | absent =>
    rw [hslice] at h
    cases h
  | outOfRange =>
    rw [hslice] at h
    cases h
  | object cut =>
    rw [hslice] at h
    obtain ⟨chosen, hparse, hchosen⟩ := Option.bind_eq_some_iff.mp (Except.ok.inj h)
    obtain ⟨m, hlisted, hdeclared⟩ := chosenSelection_listed hchosen
    exact ⟨chosenSelection_allowed hchosen, cut, chosen, m, hslice, hparse, hlisted, hdeclared⟩

section Loop

variable {select : DataViewSpec → Except String (Option SemanticSelection)}
  {views : List DataViewSpec} {out : SortedMap String SemanticSelection}

/-- The loop returns exactly where no view's step panics. -/
theorem selectViews_returns_iff : (∃ result, selectViews select out views = .ok result) ↔
    ∀ view ∈ views, ¬ ∃ panic, select view = .error panic := by
  induction views generalizing out with
  | nil => simp [selectViews]
  | cons view views ih =>
    rw [List.forall_mem_cons, selectViews]
    cases hview : select view with
    | error panic => simp
    | ok selection =>
      cases selection with
      | none => simp [ih]
      | some s => simp [ih]

/-- What the loop stores is from before it, or of a view that selects it. -/
theorem selectViews_stores {result : SortedMap String SemanticSelection} {name : String}
    {s : SemanticSelection} (h : selectViews select out views = .ok result)
    (hget : result.get? name = some s) : out.get? name = some s ∨
      ∃ view ∈ views, view.name = name ∧ select view = .ok (some s) := by
  induction views generalizing out with
  | nil =>
    cases h
    exact Or.inl hget
  | cons view views ih =>
    rw [selectViews] at h
    cases hview : select view with
    | error panic =>
      rw [hview] at h
      cases h
    | ok selection =>
      cases selection with
      | none =>
        rw [hview] at h
        rcases ih h with hout | ⟨later, hmem, hlater⟩
        · exact Or.inl hout
        · exact Or.inr ⟨later, List.mem_cons_of_mem _ hmem, hlater⟩
      | some chosen =>
        rw [hview] at h
        rcases ih h with hout | ⟨later, hmem, hlater⟩
        · rw [SortedMap.get?_insert] at hout
          split_ifs at hout with hname
          · cases hout
            exact Or.inr ⟨view, List.mem_cons_self, hname.symm, hview⟩
          · exact Or.inl hout
        · exact Or.inr ⟨later, List.mem_cons_of_mem _ hmem, hlater⟩

end Loop

/-- The processing returns; what it stores under a name is allowed by a view of that name whose
reply yields a measure, and where no such reply does nothing is stored. -/
structure SelectionsSafe [FloatText] (parse : String → Option Json) (o : SelectionSources)
    (retrieval : Option RetrievalSpec) (views : List DataViewSpec) (req : SelectionRequest)
    (matrixBaseUrl : Option String) : Prop where
  returns : ∃ out, resolveSelections parse o retrieval views req matrixBaseUrl = .ok out
  stored : ∀ out name s, resolveSelections parse o retrieval views req matrixBaseUrl = .ok out →
    out.get? name = some s → ∃ view ∈ views, view.name = name ∧ ∃ spec text,
      viewReply o req.query view = some (spec, text) ∧ Allowed spec s
  unanswered : ∀ out name, resolveSelections parse o retrieval views req matrixBaseUrl = .ok out →
    (∀ view ∈ views, view.name = name → ∀ spec text,
      viewReply o req.query view = some (spec, text) → ¬ YieldsMeasure parse spec text) →
    out.get? name = none

theorem askedViews_subset {retrieval : Option RetrievalSpec} {views : List DataViewSpec}
    {req : SelectionRequest} {matrixBaseUrl : Option String} :
    askedViews retrieval views req matrixBaseUrl ⊆ views := by
  unfold askedViews
  split
  · unfold reachableViews
    exact List.filter_subset_self _
  · exact List.nil_subset _

theorem viewSelection_panics_iff [FloatText] (parse : String → Option Json) (o : SelectionSources)
    (query : String) (view : DataViewSpec) :
    (∃ panic, viewSelection parse o query view = .error panic) ↔
      ∃ spec text, viewReply o query view = some (spec, text) ∧ Crossed text.toList := by
  unfold viewSelection
  cases viewReply o query view with
  | none => simp
  | some r =>
    simp only [readReply_panics_iff, Option.some.injEq]
    constructor
    · intro h
      exact ⟨r.1, r.2, rfl, h⟩
    · intro h
      obtain ⟨spec, text, rfl, hcrossed⟩ := h
      exact hcrossed

theorem viewSelection_selects [FloatText] {parse : String → Option Json} {o : SelectionSources}
    {query : String} {view : DataViewSpec} {s : SemanticSelection}
    (h : viewSelection parse o query view = .ok (some s)) : ∃ spec text,
      viewReply o query view = some (spec, text) ∧ Allowed spec s ∧
        YieldsMeasure parse spec text := by
  unfold viewSelection at h
  cases hreply : viewReply o query view with
  | none =>
    rw [hreply] at h
    cases h
  | some r =>
    rw [hreply] at h
    exact ⟨r.1, r.2, rfl, readReply_selects h⟩

/-- The processing is safe exactly where no reply that it reads has its braces crossed. -/
theorem resolveSelections_safe_iff [FloatText] (parse : String → Option Json)
    (o : SelectionSources) (retrieval : Option RetrievalSpec) (views : List DataViewSpec)
    (req : SelectionRequest) (matrixBaseUrl : Option String) :
    SelectionsSafe parse o retrieval views req matrixBaseUrl ↔
      ∀ view ∈ askedViews retrieval views req matrixBaseUrl, ∀ spec text,
        viewReply o req.query view = some (spec, text) → ¬ Crossed text.toList := by
  have hreturns : (∃ out, resolveSelections parse o retrieval views req matrixBaseUrl = .ok out) ↔
      ∀ view ∈ askedViews retrieval views req matrixBaseUrl, ∀ spec text,
        viewReply o req.query view = some (spec, text) → ¬ Crossed text.toList := by
    unfold resolveSelections
    simp only [selectViews_returns_iff, viewSelection_panics_iff, not_exists, not_and]
  have hstored : ∀ out name s,
      resolveSelections parse o retrieval views req matrixBaseUrl = .ok out →
      out.get? name = some s → ∃ view ∈ views, view.name = name ∧ ∃ spec text,
        viewReply o req.query view = some (spec, text) ∧ Allowed spec s ∧
          YieldsMeasure parse spec text := by
    intro out name s hout hget
    rcases selectViews_stores hout hget with hempty | ⟨view, hview, hname, hselect⟩
    · cases hempty
    · exact ⟨view, askedViews_subset hview, hname, viewSelection_selects hselect⟩
  constructor
  · intro h
    exact hreturns.mp h.returns
  · intro h
    constructor
    case returns => exact hreturns.mpr h
    case stored =>
      intro out name s hout hget
      obtain ⟨view, hview, hname, spec, text, hreply, hallowed, -⟩ := hstored out name s hout hget
      exact ⟨view, hview, hname, spec, text, hreply, hallowed⟩
    case unanswered =>
      intro out name hout hno
      by_contra hsome
      obtain ⟨s, hget⟩ := Option.ne_none_iff_exists'.mp hsome
      obtain ⟨view, hview, hname, spec, text, hreply, -, hyields⟩ := hstored out name s hout hget
      exact hno view hview hname spec text hreply hyields

def regionView : DataViewSpec :=
  ⟨"sales", "sales@1", .metricView, SortedMap.empty, 0, []⟩

/-- A view with one measure, and a reply that closes a brace before it opens one. -/
def crossedSources : SelectionSources where
  asset _ := some (.obj [("spec", .obj [("measures", .obj [("revenue", .obj [])])])])
  reply _ _ := some "use \x7d here \x7b now"

def regionRetrieval : RetrievalSpec :=
  ⟨[⟨"p", [⟨"sales", ["matrix:sales"], .required, .primary, none, true, none⟩]⟩], some "p"⟩

/-- The reply makes the processing panic. -/
theorem crossed_reply_panics :
    let _ : FloatText := ⟨fun _ => ""⟩
    ¬ SelectionsSafe (fun _ => none) crossedSources (some regionRetrieval) [regionView]
      ⟨"how much?", none⟩ (some "http://matrix") := by
  intro _ h
  obtain ⟨out, hout⟩ := h.returns
  have hpanic : resolveSelections (fun _ => none) crossedSources (some regionRetrieval)
      [regionView] ⟨"how much?", none⟩ (some "http://matrix") =
        .error "slice index starts past its end" := by
    rfl
  rw [hpanic] at hout
  cases hout

end Munarium

import Munarium.Std.Json
import Munarium.Lib.StableSort

/-! The order of an object's members, at every depth: documents that differ in it alone, the one
value that they have, and what their names say. -/
namespace Munarium
namespace Json
open StableSort

/-- Induction over a document. -/
@[elab_as_elim] theorem inductionOn {P : Json → Prop} (null : P .null) (bool : ∀ b, P (.bool b))
    (int : ∀ n, P (.int n)) (float : ∀ q, P (.float q)) (str : ∀ s, P (.str s))
    (arr : ∀ items, (∀ v ∈ items, P v) → P (.arr items))
    (obj : ∀ fields, (∀ f ∈ fields, P f.2) → P (.obj fields)) (v : Json) : P v := by
  refine Json.rec (motive_1 := P) (motive_2 := fun items => ∀ v ∈ items, P v)
    (motive_3 := fun fields => ∀ f ∈ fields, P f.2) (motive_4 := fun f => P f.2)
    null bool int float str arr obj ?_ ?_ ?_ ?_ ?_ v
  · simp
  · intro v rest hv hrest w hw
    rcases List.mem_cons.mp hw with rfl | hw
    · exact hv
    · exact hrest w hw
  · simp
  · intro f rest hf hrest g hg
    rcases List.mem_cons.mp hg with rfl | hg
    · exact hf
    · exact hrest g hg
  · exact fun _ _ h => h

mutual
/-- At every depth, an object's members rearranged. -/
def arranged (arrange : List (String × Json) → List (String × Json)) : Json → Json
  | .arr items => .arr (arrangedItems arrange items)
  | .obj fields => .obj (arrange (arrangedFields arrange fields))
  | v => v

def arrangedItems (arrange : List (String × Json) → List (String × Json)) : List Json → List Json
  | [] => []
  | v :: rest => v.arranged arrange :: arrangedItems arrange rest

def arrangedFields (arrange : List (String × Json) → List (String × Json)) :
    List (String × Json) → List (String × Json)
  | [] => []
  | (k, v) :: rest => (k, v.arranged arrange) :: arrangedFields arrange rest
end

/-- The value of a document: each object is the map that its members make one by one. -/
def ordered : Json → Json :=
  arranged fun fields => fields.foldl (fun m f => SortedMap.insertEntry f.1 f.2 m) []

mutual
/-- At every depth, what an object's names say. -/
def Names (P : List String → Prop) : Json → Prop
  | .arr items => NamesItems P items
  | .obj fields => P (fields.map Prod.fst) ∧ NamesFields P fields
  | _ => True

def NamesItems (P : List String → Prop) : List Json → Prop
  | [] => True
  | v :: rest => v.Names P ∧ NamesItems P rest

def NamesFields (P : List String → Prop) : List (String × Json) → Prop
  | [] => True
  | f :: rest => f.2.Names P ∧ NamesFields P rest
end

/-- No object names a member twice. -/
def Distinct : Json → Prop := Names List.Nodup

/-- Each object is a map in ascending order of its names. -/
def Ordered : Json → Prop := Names (List.Pairwise (· < ·))

/-- Documents that differ in the order of members alone, at any depth. -/
inductive Reordered : Json → Json → Prop
  | refl (v : Json) : Reordered v v
  | members {fs gs : List (String × Json)} (h : fs.Perm gs) : Reordered (.obj fs) (.obj gs)
  | item {v w : Json} (xs ys : List Json) (h : Reordered v w) :
      Reordered (.arr (xs ++ v :: ys)) (.arr (xs ++ w :: ys))
  | member {v w : Json} (fs gs : List (String × Json)) (k : String) (h : Reordered v w) :
      Reordered (.obj (fs ++ (k, v) :: gs)) (.obj (fs ++ (k, w) :: gs))
  | trans {u v w : Json} (h : Reordered u v) (h' : Reordered v w) : Reordered u w

section
variable {arrange : List (String × Json) → List (String × Json)} {P : List String → Prop}

@[simp] theorem arrangedItems_eq (items : List Json) :
    arrangedItems arrange items = items.map (arranged arrange) := by
  induction items with
  | nil => rfl
  | cons v rest ih => rw [arrangedItems, ih, List.map_cons]

@[simp] theorem arrangedFields_eq (fields : List (String × Json)) :
    arrangedFields arrange fields = fields.map fun f => (f.1, f.2.arranged arrange) := by
  induction fields with
  | nil => rfl
  | cons f rest ih => rw [arrangedFields, ih, List.map_cons]

@[simp] theorem namesItems_iff {items : List Json} :
    NamesItems P items ↔ ∀ v ∈ items, v.Names P := by
  induction items with
  | nil => simp [NamesItems]
  | cons v rest ih => simp [NamesItems, ih]

@[simp] theorem namesFields_iff {fields : List (String × Json)} :
    NamesFields P fields ↔ ∀ f ∈ fields, f.2.Names P := by
  induction fields with
  | nil => simp [NamesFields]
  | cons f rest ih => simp [NamesFields, ih]

theorem Names.imp {Q : List String → Prop} (hPQ : ∀ ns, P ns → Q ns) {v : Json}
    (h : v.Names P) : v.Names Q := by
  induction v using inductionOn with
  | arr items ih =>
    simp only [Names, namesItems_iff] at h ⊢
    exact fun v hv => ih v hv (h v hv)
  | obj fields ih =>
    simp only [Names, namesFields_iff] at h ⊢
    exact ⟨hPQ _ h.1, fun f hf => ih f hf (h.2 f hf)⟩
  | _ => trivial

/-- The names of a document whose objects were rearranged. -/
theorem Names.arranged {Q : List String → Prop} (hperm : ∀ fs, (arrange fs).Perm fs)
    (hnames : ∀ fs, P (fs.map Prod.fst) → Q ((arrange fs).map Prod.fst)) {v : Json}
    (h : v.Names P) : (v.arranged arrange).Names Q := by
  induction v using inductionOn with
  | arr items ih =>
    simp only [Json.arranged, Names, namesItems_iff, arrangedItems_eq, List.mem_map] at h ⊢
    intro w hw
    obtain ⟨v, hv, rfl⟩ := hw
    exact ih v hv (h v hv)
  | obj fields ih =>
    simp only [Json.arranged, Names, namesFields_iff, arrangedFields_eq] at h ⊢
    obtain ⟨hp, hall⟩ := h
    constructor
    · apply hnames
      simpa [List.map_map, Function.comp_def] using hp
    · intro f hf
      obtain ⟨g, hg, rfl⟩ := List.mem_map.mp ((hperm _).mem_iff.mp hf)
      exact ih g hg (hall g hg)
  | _ => trivial

/-- Rearranged so that members that are in order stay, a document comes back. -/
theorem arranged_arranged {arrange' : List (String × Json) → List (String × Json)}
    (hmap : ∀ g : Json → Json, ∀ fs : List (String × Json),
      (arrange fs).map (fun f => (f.1, g f.2)) = arrange (fs.map fun f => (f.1, g f.2)))
    (hback : ∀ fs : List (String × Json), P (fs.map Prod.fst) → arrange' (arrange fs) = fs)
    {v : Json} (h : v.Names P) : (v.arranged arrange).arranged arrange' = v := by
  induction v using inductionOn with
  | arr items ih =>
    simp only [Names, namesItems_iff] at h
    simp only [Json.arranged, arrangedItems_eq, List.map_map, Json.arr.injEq]
    conv_rhs => rw [← List.map_id items]
    exact List.map_congr_left fun v hv => ih v hv (h v hv)
  | obj fields ih =>
    simp only [Names, namesFields_iff] at h
    obtain ⟨hp, hall⟩ := h
    simp only [Json.arranged, arrangedFields_eq, Json.obj.injEq]
    rw [hmap, List.map_map]
    have hsame : fields.map ((fun f => (f.1, f.2.arranged arrange')) ∘
        fun f => (f.1, f.2.arranged arrange)) = fields := by
      conv_rhs => rw [← List.map_id fields]
      apply List.map_congr_left
      intro f hf
      exact Prod.ext rfl (ih f hf (hall f hf))
    rw [hsame, hback fields hp]
  | _ => rfl

theorem Reordered.names {v w : Json} (h : Reordered v w)
    (hperm : ∀ ns ms : List String, ns.Perm ms → P ns → P ms) (hv : v.Names P) : w.Names P := by
  induction h with
  | refl => exact hv
  | members hfs =>
    simp only [Names, namesFields_iff] at hv ⊢
    exact ⟨hperm _ _ (hfs.map Prod.fst) hv.1, fun f hf => hv.2 f (hfs.mem_iff.mpr hf)⟩
  | item xs ys h ih =>
    simp only [Names, namesItems_iff, List.mem_append, List.mem_cons] at hv ⊢
    rintro u (hu | rfl | hu)
    · exact hv u (.inl hu)
    · exact ih (hv _ (.inr (.inl rfl)))
    · exact hv u (.inr (.inr hu))
  | member fs gs k h ih =>
    simp only [Names, namesFields_iff, List.map_append, List.map_cons, List.mem_append,
      List.mem_cons] at hv ⊢
    refine ⟨hv.1, ?_⟩
    rintro f (hf | rfl | hf)
    · exact hv.2 f (.inl hf)
    · exact ih (hv.2 _ (.inr (.inl rfl)))
    · exact hv.2 f (.inr (.inr hf))
  | trans _ _ ih ih' => exact ih' (ih hv)

theorem Ordered.distinct {v : Json} (h : v.Ordered) : v.Distinct :=
  h.imp fun _ hns => hns.imp fun hlt => hlt.ne

end

end Json
end Munarium

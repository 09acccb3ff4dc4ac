import Munarium.Datastore.Canonical

/-! The canonical text is a normal form: it forgets the order of members, it reads back as the
value, and so it tells values apart. -/
namespace Munarium
open StableSort
namespace Canonical

section
variable {α β : Type*}

theorem keyBytes_lt_iff {k l : String} :
    keyBytes k < keyBytes l ↔ encodeUtf16 k < encodeUtf16 l := toBeBytes_lt_iff

theorem keyBytes_injective : Function.Injective keyBytes := by
  intro k l h
  apply encodeUtf16_injective
  rcases lt_trichotomy (encodeUtf16 k) (encodeUtf16 l) with hlt | heq | hlt
  · exact absurd (keyBytes_lt_iff.mpr hlt) (by rw [h]; exact lt_irrefl _)
  · exact heq
  · exact absurd (keyBytes_lt_iff.mpr hlt) (by rw [h]; exact lt_irrefl _)

theorem sortKeys_perm (members : List (String × α)) : (sortKeys members).Perm members :=
  sortBy_perm _ _

theorem sortKeys_map (f : String × α → β) (members : List (String × α)) :
    (sortKeys members).map (fun m => (m.1, f m)) = sortKeys (members.map fun m => (m.1, f m)) :=
  map_sortBy_of fun _ _ _ _ => rfl

theorem keys_nodup {members : List (String × α)} (h : (members.map Prod.fst).Nodup) :
    (members.map fun m => keyBytes m.1).Nodup := by
  have hmap := h.map keyBytes_injective
  rwa [List.map_map] at hmap

theorem sortKeys_eq_of_perm {members members' : List (String × α)} (h : members.Perm members')
    (hnodup : (members.map Prod.fst).Nodup) : sortKeys members = sortKeys members' :=
  (keyedBy_compare fun m : String × α => keyBytes m.1).sortBy_eq_of_perm h (keys_nodup hnodup)

theorem sortKeys_ascending {members : List (String × α)} (h : (members.map Prod.fst).Nodup) :
    ((sortKeys members).map Prod.fst).Pairwise fun k l => encodeUtf16 k < encodeUtf16 l := by
  rw [List.pairwise_map]
  exact ((keyedBy_compare fun m : String × α => keyBytes m.1).strict (keys_nodup h)).imp
    keyBytes_lt_iff.mp

end

theorem sorted_obj (fields : List (String × Json)) :
    sorted (.obj fields) = .obj ((sortKeys fields).map fun f => (f.1, sorted f.2)) := by
  rw [sorted, Json.arranged, Json.arrangedFields_eq, ← sortKeys_map]

theorem sorted_arr (items : List Json) : sorted (.arr items) = .arr (items.map sorted) := by
  rw [sorted, Json.arranged, Json.arrangedItems_eq]

theorem sorted_ascending {v : Json} (h : v.Distinct) : Ascending (sorted v) :=
  Json.Names.arranged sortKeys_perm (fun _ => sortKeys_ascending) h

/-- Sorting the members of a value does not change the value. -/
theorem ordered_sorted {v : Json} (h : v.Ordered) : (sorted v).ordered = v := by
  apply Json.arranged_arranged (P := List.Pairwise (· < ·)) _ _ h
  · intro g fs
    exact sortKeys_map (fun f => g f.2) fs
  · intro fs hfs
    apply SortedMap.foldl_insertEntry_of_perm _ (sortKeys_perm fs)
    exact List.pairwise_map.mp hfs

section
variable [FloatText] {path : String}

theorem writeFields_eq (fields : List (String × Json)) : writeFields path fields =
    fields.map fun f => (f.1, writeCanonical (path ++ "." ++ f.1) f.2) := by
  induction fields with
  | nil => rfl
  | cons f rest ih => rw [writeFields, ih, List.map_cons]

theorem writeItems_congr {v w : Json} (h : ∀ path, writeCanonical path v = writeCanonical path w)
    (xs ys : List Json) (i : ℕ) :
    writeItems path i (xs ++ v :: ys) = writeItems path i (xs ++ w :: ys) := by
  induction xs generalizing i with
  | nil => simp only [List.nil_append, writeItems, h]
  | cons x xs ih => simp only [List.cons_append, writeItems, ih]

/-- The text, or the refusal, does not depend on the order of members. -/
theorem write_reordered {v w : Json} (h : Json.Reordered v w) (hv : v.Distinct) (path : String) :
    writeCanonical path v = writeCanonical path w := by
  induction h generalizing path with
  | refl => rfl
  | members hperm =>
    have hnodup := hv.1
    rw [writeCanonical, writeCanonical, writeFields_eq, writeFields_eq]
    rw [sortKeys_eq_of_perm (hperm.map _)]
    rw [List.map_map]
    exact hnodup
  | item xs ys _ ih =>
    have hin : ∀ u ∈ xs ++ _ :: ys, u.Distinct := Json.namesItems_iff.mp hv
    rw [writeCanonical, writeCanonical, writeItems_congr (ih (hin _ (by simp)))]
  | member fs gs k _ ih =>
    have hin : ∀ f ∈ fs ++ (k, _) :: gs, f.2.Distinct := Json.namesFields_iff.mp hv.2
    rw [writeCanonical, writeCanonical, writeFields_eq, writeFields_eq, List.map_append,
      List.map_append, List.map_cons, List.map_cons, ih (hin (k, _) (by simp))]
  | trans h _ ih ih' =>
    have hperm : ∀ ns ms : List String, ns.Perm ms → ns.Nodup → ms.Nodup :=
      fun _ _ hp => hp.nodup_iff.mp
    rw [ih hv, ih' (h.names hperm hv)]

omit [FloatText] in
theorem collect_ok {members : List (String × Except DatastoreError (List Char))}
    {texts : List (List Char)} (h : collect members = .ok texts) :
    List.Forall₂ (fun m t => ∃ text, m.2 = .ok text ∧ t = writeString m.1 ++ ':' :: text)
      members texts := by
  induction members generalizing texts with
  | nil =>
    cases h
    exact .nil
  | cons m rest ih =>
    obtain ⟨k, r⟩ := m
    cases r with
    | error e => cases h
    | ok text =>
      cases hrest : collect rest with
      | error e =>
        simp only [collect, hrest] at h
        cases h
      | ok texts' =>
        simp only [collect, hrest] at h
        cases h
        exact .cons ⟨text, rfl, rfl⟩ (ih hrest)

theorem writeItems_ok {items : List Json} {i : ℕ} {texts : List (List Char)}
    (h : writeItems path i items = .ok texts) :
    List.Forall₂ (fun v t => ∃ path, writeCanonical path v = .ok t) items texts := by
  induction items generalizing i texts with
  | nil =>
    cases h
    exact .nil
  | cons v rest ih =>
    cases hv : writeCanonical (path ++ "[" ++ toString i ++ "]") v with
    | error e =>
      simp only [writeItems, hv] at h
      cases h
    | ok text =>
      cases hrest : writeItems path (i + 1) rest with
      | error e =>
        simp only [writeItems, hv, hrest] at h
        cases h
      | ok texts' =>
        simp only [writeItems, hv, hrest] at h
        cases h
        exact .cons ⟨_, hv⟩ (ih hrest)

/-- What an accepted document is, and its text. -/
theorem writeCanonical_arr {items : List Json} {t : List Char}
    (h : writeCanonical path (.arr items) = .ok t) :
    ∃ texts, writeItems path 0 items = .ok texts ∧ t = '[' :: (commas texts ++ [']']) := by
  cases htexts : writeItems path 0 items with
  | error e =>
    simp only [writeCanonical, htexts] at h
    cases h
  | ok texts =>
    simp only [writeCanonical, htexts] at h
    cases h
    exact ⟨texts, rfl, rfl⟩

theorem writeCanonical_obj {fields : List (String × Json)} {t : List Char}
    (h : writeCanonical path (.obj fields) = .ok t) :
    ∃ texts, List.Forall₂
        (fun f t => ∃ path text, writeCanonical path f.2 = .ok text ∧
          t = writeString f.1 ++ ':' :: text) (sortKeys fields) texts ∧
      t = '{' :: (commas texts ++ ['}']) := by
  have hsort : sortKeys (writeFields path fields) =
      (sortKeys fields).map fun f => (f.1, writeCanonical (path ++ "." ++ f.1) f.2) := by
    rw [writeFields_eq, ← sortKeys_map]
  cases htexts : collect (sortKeys (writeFields path fields)) with
  | error e =>
    simp only [writeCanonical, htexts] at h
    cases h
  | ok texts =>
    simp only [writeCanonical, htexts] at h
    cases h
    refine ⟨texts, ?_, rfl⟩
    rw [hsort] at htexts
    have hall := collect_ok htexts
    rw [List.forall₂_map_left_iff] at hall
    exact hall.imp fun f t ⟨text, htext, ht⟩ => ⟨_, text, htext, ht⟩

omit [FloatText] in
theorem commas_cons (t : List Char) (texts : List (List Char)) :
    commas (t :: texts) = t ++ if texts = [] then [] else ',' :: commas texts := by
  cases texts <;> simp [commas, List.intercalate]

omit [FloatText] in
theorem integerText_starts (i : ℤ) : ∃ c cs, integerText i = c :: cs ∧
    (c = '-' ∨ c.isDigit = true) := by
  cases i with
  | ofNat n =>
    cases hdigits : Nat.toDigits 10 n with
    | nil => exact absurd hdigits Nat.toDigits_ne_nil
    | cons c cs =>
      have hc := Nat.isDigit_of_mem_toDigits (b := 10) (n := n) (c := c) (by decide) (by decide)
        (by rw [hdigits]; exact List.mem_cons_self)
      exact ⟨c, cs, hdigits, .inr hc⟩
  | negSucc n => exact ⟨'-', _, rfl, .inl rfl⟩

/-- A text's first character is its own. -/
theorem writeCanonical_starts {v : Json} {t : List Char} (h : writeCanonical path v = .ok t) :
    ∃ c cs, t = c :: cs ∧ Json.isBlank c = false ∧ c ≠ ']' ∧ c ≠ '}' := by
  cases v with
  | null =>
    cases h
    exact ⟨_, _, rfl, by decide, by decide, by decide⟩
  | bool b =>
    cases b <;> cases h <;> exact ⟨_, _, rfl, by decide, by decide, by decide⟩
  | int n =>
    simp only [writeCanonical] at h
    split at h
    · rename_i i _
      cases h
      obtain ⟨c, cs, hi, hc⟩ := integerText_starts i
      refine ⟨c, cs, hi, ?_⟩
      rcases hc with rfl | hc
      · decide
      · have hne (d : Char) (hd : d.isDigit = false) : c ≠ d := by
          rintro rfl
          rw [hc] at hd
          cases hd
        have hblank : Json.isBlank c = false := by
          simp [Json.isBlank, hne ' ' rfl, hne '\n' rfl, hne '\t' rfl, hne '\r' rfl]
        exact ⟨hblank, hne ']' rfl, hne '}' rfl⟩
    · cases h
  | float q => cases h
  | str s =>
    cases h
    exact ⟨_, _, rfl, by decide, by decide, by decide⟩
  | arr items =>
    obtain ⟨texts, -, rfl⟩ := writeCanonical_arr h
    exact ⟨_, _, rfl, by decide, by decide, by decide⟩
  | obj fields =>
    obtain ⟨texts, -, rfl⟩ := writeCanonical_obj h
    exact ⟨_, _, rfl, by decide, by decide, by decide⟩

variable [Json.FloatReader]

omit [FloatText] [Json.FloatReader] in
theorem ends_cons {c : Char} (h : c = ',' ∨ c = ']' ∨ c = '}') (rest : List Char) :
    Json.Ends (c :: rest) := by
  intro d hd
  cases hd
  rcases h with rfl | rfl | rfl <;> decide

/-- What reading a written value back says. -/
def ReadsBack (v : Json) : Prop :=
  ∀ path t, writeCanonical path v = .ok t → ∀ rest, Json.Ends rest → ∀ fuel, t.length ≤ fuel →
    Json.readValue fuel (t ++ rest) = some (sorted v, rest)

omit [FloatText] in
theorem readValue_integer {fuel : ℕ} {rest : List Char} {i : ℤ} (h : Json.Ends rest)
    (hlow : -2 ^ 63 ≤ i) (hhigh : i < 2 ^ 63) :
    Json.readValue (fuel + 1) (integerText i ++ rest) = some (.int i, rest) := by
  obtain ⟨c, cs, htext, hc⟩ := integerText_starts i
  rw [htext, List.cons_append, Json.readValue_number hc, ← List.cons_append, ← htext]
  cases i with
  | ofNat n =>
    rw [Int.ofNat_eq_natCast] at hhigh
    exact (Json.readNumber_digits h).1 (by omega)
  | negSucc n => exact (Json.readNumber_digits h).2 (by omega) (by omega)

theorem readItems_written {items : List Json} {texts : List (List Char)}
    (h : List.Forall₂ (fun v t => ∃ path, writeCanonical path v = .ok t) items texts)
    (hne : items ≠ []) (ih : ∀ v ∈ items, ReadsBack v) (rest : List Char) (fuel : ℕ)
    (hfuel : (commas texts).length < fuel) :
    Json.readItems fuel (commas texts ++ ']' :: rest) = some (items.map sorted, rest) := by
  induction h generalizing fuel with
  | nil => exact absurd rfl hne
  | @cons v t items texts hv hrest hind =>
    obtain ⟨path, hv⟩ := hv
    obtain ⟨hread, ih⟩ := List.forall_mem_cons.mp ih
    obtain ⟨fuel, rfl⟩ : ∃ n, fuel = n + 1 := ⟨fuel - 1, by omega⟩
    rw [commas_cons] at hfuel ⊢
    cases hrest with
    | nil =>
      simp only [if_true, List.append_nil] at hfuel ⊢
      exact Json.readItems_last
        (hread path t hv _ (ends_cons (.inr (.inl rfl)) rest) fuel (by omega))
    | cons hw hrest =>
      simp only [List.cons_ne_nil, if_false, List.length_append, List.length_cons,
        List.append_assoc, List.cons_append] at hfuel ⊢
      rw [Json.readItems_next (hread path t hv _ (ends_cons (.inl rfl) _) fuel (by omega)),
        hind (by simp) ih fuel (by omega)]
      rfl

theorem readMembers_written {fields : List (String × Json)} {texts : List (List Char)}
    (h : List.Forall₂ (fun f t => ∃ path text, writeCanonical path f.2 = .ok text ∧
      t = writeString f.1 ++ ':' :: text) fields texts)
    (hne : fields ≠ []) (ih : ∀ f ∈ fields, ReadsBack f.2) (rest : List Char) (fuel : ℕ)
    (hfuel : (commas texts).length < fuel) :
    Json.readMembers fuel (commas texts ++ '}' :: rest) =
      some (fields.map (fun f => (f.1, sorted f.2)), rest) := by
  induction h generalizing fuel with
  | nil => exact absurd rfl hne
  | @cons f t fields texts hf hrest hind =>
    obtain ⟨path, text, hf, rfl⟩ := hf
    obtain ⟨hread, ih⟩ := List.forall_mem_cons.mp ih
    obtain ⟨fuel, rfl⟩ : ∃ n, fuel = n + 1 := ⟨fuel - 1, by omega⟩
    rw [commas_cons] at hfuel ⊢
    cases hrest with
    | nil =>
      simp only [if_true, List.append_nil, writeString, List.cons_append, List.append_assoc,
        List.nil_append, List.length_cons, List.length_append] at hfuel ⊢
      exact Json.readMembers_last
        (hread path text hf _ (ends_cons (.inr (.inr rfl)) rest) fuel (by omega))
    | cons hg hrest =>
      simp only [List.cons_ne_nil, if_false, writeString, List.cons_append, List.append_assoc,
        List.nil_append, List.length_cons, List.length_append] at hfuel ⊢
      rw [Json.readMembers_next
        (hread path text hf _ (ends_cons (.inl rfl) _) fuel (by omega)),
        hind (by simp) ih fuel (by omega)]
      rfl

/-- A written value reads back, with its members in the order that they were written in. -/
theorem readsBack (v : Json) : ReadsBack v := by
  induction v using Json.inductionOn with
  | float q =>
    intro path t h
    cases h
  | null =>
    intro path t h rest _ fuel hfuel
    cases h
    obtain ⟨fuel, rfl⟩ : ∃ n, fuel = n + 1 := ⟨fuel - 1, by simp at hfuel; omega⟩
    rfl
  | bool b =>
    intro path t h rest _ fuel hfuel
    cases b <;> cases h <;>
      obtain ⟨fuel, rfl⟩ : ∃ n, fuel = n + 1 := ⟨fuel - 1, by simp at hfuel; omega⟩
    · rfl
    · rfl
  | int n =>
    intro path t h rest hrest fuel hfuel
    simp only [writeCanonical, Json.asI64] at h
    split_ifs at h with hrange
    · cases h
      obtain ⟨c, cs, htext, -⟩ := integerText_starts n
      obtain ⟨fuel, rfl⟩ : ∃ n, fuel = n + 1 := ⟨fuel - 1, by simp [htext] at hfuel; omega⟩
      exact readValue_integer hrest hrange.1 hrange.2
  | str s =>
    intro path t h rest _ fuel hfuel
    cases h
    obtain ⟨fuel, rfl⟩ : ∃ n, fuel = n + 1 := ⟨fuel - 1, by simp [writeString] at hfuel; omega⟩
    simp only [writeString, List.cons_append, List.append_assoc, List.nil_append]
    exact Json.readValue_string s rest
  | arr items ih =>
    intro path t h rest _ fuel hfuel
    obtain ⟨texts, htexts, rfl⟩ := writeCanonical_arr h
    obtain ⟨fuel, rfl⟩ : ∃ n, fuel = n + 1 := ⟨fuel - 1, by simp at hfuel; omega⟩
    have hall := writeItems_ok htexts
    rw [sorted_arr]
    cases items with
    | nil =>
      cases hall
      rfl
    | cons v items =>
      have hread := readItems_written hall (by simp) ih rest fuel (by simp at hfuel; omega)
      obtain ⟨c, cs, hstart, hblank, hc, -⟩ : ∃ c cs, commas texts = c :: cs ∧
          Json.isBlank c = false ∧ c ≠ ']' ∧ c ≠ '}' := by
        cases hall with
        | cons hv _ =>
          obtain ⟨path, hv⟩ := hv
          obtain ⟨c, cs, rfl, hc⟩ := writeCanonical_starts hv
          exact ⟨c, _, by rw [commas_cons, List.cons_append], hc⟩
      rw [List.cons_append, List.append_assoc]
      rw [hstart] at hread ⊢
      rw [List.cons_append, Json.readValue_items hblank hc, ← List.cons_append]
      simp only [List.singleton_append, hread, Option.map_some]
  | obj fields ih =>
    intro path t h rest _ fuel hfuel
    obtain ⟨texts, hall, rfl⟩ := writeCanonical_obj h
    obtain ⟨fuel, rfl⟩ : ∃ n, fuel = n + 1 := ⟨fuel - 1, by simp at hfuel; omega⟩
    have ih' : ∀ f ∈ sortKeys fields, ReadsBack f.2 :=
      fun f hf => ih f ((sortKeys_perm fields).mem_iff.mp hf)
    rw [sorted_obj]
    cases hfields : sortKeys fields with
    | nil =>
      rw [hfields] at hall
      cases hall
      rfl
    | cons f fs =>
      rw [hfields] at hall ih'
      have hread := readMembers_written hall (by simp) ih' rest fuel (by simp at hfuel; omega)
      obtain ⟨cs, hstart⟩ : ∃ cs, commas texts = '"' :: cs := by
        cases hall with
        | cons hf _ =>
          obtain ⟨path, text, -, rfl⟩ := hf
          exact ⟨_, by rw [commas_cons, writeString, List.cons_append, List.cons_append]⟩
      rw [List.cons_append, List.append_assoc]
      rw [hstart] at hread ⊢
      rw [List.cons_append, Json.readValue_members (by decide) (by decide), ← List.cons_append]
      simp only [List.singleton_append, hread, Option.map_some]

theorem read_canonicalText {v : Json} {t : String} (h : canonicalText v = .ok t) :
    Json.read t = some (sorted v) := by
  cases hwrite : writeCanonical "$" v with
  | error e =>
    rw [canonicalText, hwrite] at h
    cases h
  | ok cs =>
    rw [canonicalText, hwrite] at h
    cases h
    have hread := readsBack v "$" cs hwrite [] (fun c hc => by cases hc) (cs.length + 1) (by omega)
    rw [List.append_nil] at hread
    simp [Json.read, hread, Json.skipBlank]

theorem parse_canonicalText {v : Json} {t : String} (hv : v.Ordered)
    (h : canonicalText v = .ok t) : Json.parse t = some v := by
  rw [Json.parse, read_canonicalText h, Option.map_some, ordered_sorted hv]

omit [Json.FloatReader] in
theorem canonicalBytes_ok {v : Json} {bytes : Bytes} (h : canonicalBytes v = .ok bytes) :
    ∃ t, canonicalText v = .ok t ∧ bytes = utf8 t := by
  cases htext : canonicalText v with
  | error e =>
    rw [canonicalBytes, htext] at h
    cases h
  | ok t =>
    rw [canonicalBytes, htext] at h
    cases h
    exact ⟨t, rfl, rfl⟩

/-- The bytes of a document do not depend on the order of its members; those of a value read back
to it and to no other; and they have the members in ascending order of their UTF-16 code units. -/
theorem canonical_normal_form :
    (∀ v w, v.Distinct → v.Reordered w → canonicalBytes v = canonicalBytes w) ∧
    (∀ v bytes, v.Ordered → canonicalBytes v = .ok bytes →
      ∃ text, bytes = utf8 text ∧ Json.parse text = some v) ∧
    (∀ v w bytes, v.Ordered → w.Ordered → canonicalBytes v = .ok bytes →
      canonicalBytes w = .ok bytes → v = w) ∧
    (∀ v bytes, v.Distinct → canonicalBytes v = .ok bytes →
      ∃ text document, bytes = utf8 text ∧ Json.read text = some document ∧
        Ascending document) := by
  refine ⟨?_, ?_, ?_, ?_⟩
  · intro v w hv h
    rw [canonicalBytes, canonicalBytes, canonicalText, canonicalText, write_reordered h hv]
  · intro v bytes hv h
    obtain ⟨text, htext, rfl⟩ := canonicalBytes_ok h
    exact ⟨text, rfl, parse_canonicalText hv htext⟩
  · intro v w bytes hv hw h h'
    obtain ⟨text, htext, rfl⟩ := canonicalBytes_ok h
    obtain ⟨text', htext', hsame⟩ := canonicalBytes_ok h'
    rw [utf8_injective hsame] at htext
    have hread := parse_canonicalText hv htext
    rw [parse_canonicalText hw htext'] at hread
    exact (Option.some.inj hread).symm
  · intro v bytes hv h
    obtain ⟨text, htext, rfl⟩ := canonicalBytes_ok h
    exact ⟨text, sorted v, rfl, read_canonicalText htext, sorted_ascending hv⟩

end

/-- Two names that code points and UTF-16 code units order differently. -/
abbrev halfwidthAndLinear : Json := .obj [("｡", .int (-1)), ("𐀀", .arr [.str "\t", .null])]

theorem canonical_normal_form_sample :
    letI : FloatText := ⟨fun _ => ""⟩
    letI : Json.FloatReader := ⟨fun _ => none⟩
    ∃ text, canonicalBytes halfwidthAndLinear = .ok (utf8 text) ∧
      text = "\x7b\"𐀀\":[\"\\t\",null],\"｡\":-1\x7d" ∧
      Json.parse text = some halfwidthAndLinear := by
  let _ : FloatText := ⟨fun _ => ""⟩
  let _ : Json.FloatReader := ⟨fun _ => none⟩
  have hbytes : canonicalBytes halfwidthAndLinear =
      .ok (utf8 "\x7b\"𐀀\":[\"\\t\",null],\"｡\":-1\x7d") := by decide +kernel
  have hordered : halfwidthAndLinear.Ordered := by
    refine ⟨?_, trivial, ⟨trivial, trivial, trivial⟩, trivial⟩
    decide +kernel
  obtain ⟨text, htext, hparse⟩ := canonical_normal_form.2.1 _ _ hordered hbytes
  exact ⟨_, hbytes, rfl, utf8_injective htext ▸ hparse⟩

end Canonical
end Munarium

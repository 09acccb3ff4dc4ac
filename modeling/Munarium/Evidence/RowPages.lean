import Munarium.Evidence.Rows

/-! The pages of a sealed table: windows over its lines, which are its rows while no cell holds a
line feed. -/
namespace Munarium

section Paging
variable {start limit : ℕ}

/-- The page is a window of the lines, and the count is of all of them. -/
theorem pageLines_eq (ls : List (List Char)) (total : ℕ) (page : List (List Char)) :
    pageLines start limit ls total page =
      (page ++ (ls.drop (start - total)).take (limit - page.length), total + ls.length) := by
  induction ls generalizing total page with
  | nil => simp [pageLines]
  | cons line ls ih =>
    rw [pageLines, ih, List.length_cons]
    refine Prod.ext_iff.mpr ⟨?_, by omega⟩
    by_cases hstart : start ≤ total
    · have hdrop : start - (total + 1) = 0 := by omega
      have hdrop' : start - total = 0 := by omega
      rw [hdrop, hdrop', List.drop_zero, List.drop_zero]
      by_cases hlimit : page.length < limit
      · rw [if_pos ⟨hstart, hlimit⟩, List.length_append, List.length_singleton]
        obtain ⟨n, hn⟩ : ∃ n, limit - page.length = n + 1 := ⟨limit - page.length - 1, by omega⟩
        rw [hn, show limit - (page.length + 1) = n by omega, List.take_succ_cons,
          List.append_assoc]
        rfl
      · rw [if_neg fun h => hlimit h.2, show limit - page.length = 0 by omega, List.take_zero,
          List.take_zero]
    · have hdrop : start - total = (start - (total + 1)) + 1 := by omega
      rw [if_neg fun h => hstart h.1, hdrop, List.drop_succ_cons]

/-- Consecutive windows are the list. -/
theorem flatMap_windows {α : Type*} (xs : List α) (n : ℕ) :
    ((List.range n).flatMap fun k => (xs.drop (k * limit)).take limit) = xs.take (n * limit) := by
  induction n with
  | zero => simp
  | succ n ih => rw [List.range_succ, List.flatMap_append, ih, Nat.succ_mul, List.take_add,
      List.flatMap_singleton]

end Paging

/-- A committed artifact of CSV bytes that the session may read: a header and rows as wide as the
schema. -/
structure SealedCsv (w : CsvWriter) (s : MemEvidenceStore) (blobs : Blobs) (access : AccessCtx)
    (evidenceId : String) (a : EvidenceArtifact) (first : List (List Char))
    (rows : List (List (List Char))) : Prop where
  readable : resolveReadable s access evidenceId = .ok a
  csv : a.manifest.mediaType = MEDIA_TYPE_CSV
  stored : ∃ key, a.keyFor access.tenantId = .ok key ∧
    blobs.get? key.blobName = some (utf8 (String.ofList (w.write (first :: rows))))
  wide : ∀ row ∈ rows, row.length = a.manifest.columns.length

def EvidenceArtifact.columnNames (a : EvidenceArtifact) : List String :=
  a.manifest.columns.map (·.name)

/-- Every cell of the row is in the object, under the name of its column. -/
def ReadsAs (columns : List String) (json : Json) (row : List (List Char)) : Prop :=
  ∀ (i : ℕ) name cell, columns[i]? = some name → row[i]? = some cell →
    json.get name = some (.str (String.ofList cell))

/-- The pages from 0, from the limit, from twice the limit and so on are answered, and together
they are the rows in order. -/
def PagesPartition (s : MemEvidenceStore) (blobs : Blobs) (access : AccessCtx)
    (evidenceId : String) (columns : List String) (rows : List (List (List Char)))
    (limit : ℕ) : Prop :=
  ∃ pages : ℕ → List Json,
    (∀ k ≤ rows.length / limit, ∃ r,
      opGetRows s blobs access evidenceId (k * limit) limit = .ok r ∧ r.rows = pages k) ∧
    List.Forall₂ (ReadsAs columns) ((List.range (rows.length / limit + 1)).flatMap pages) rows

section Sealed
variable {w : CsvWriter} {s : MemEvidenceStore} {blobs : Blobs} {access : AccessCtx}
  {evidenceId : String} {a : EvidenceArtifact} {first : List (List Char)}
  {rows : List (List (List Char))} {start limit : ℕ}

theorem clampLimit_le (limit : ℕ) : clampLimit limit ≤ MAX_ROW_LIMIT := min_le_right _ _

/-- What a window over a sealed table answers, whatever its cells hold. -/
theorem opGetRows_sealed (h : SealedCsv w s blobs access evidenceId a first rows)
    (hstart : start ≤ I64_MAX) :
    opGetRows s blobs access evidenceId start limit =
      .ok (rowsResponse a start (clampLimit limit) (w.write (first :: rows))) := by
  obtain ⟨key, hkey, hblob⟩ := h.stored
  have hlimit : clampLimit limit ≤ I64_MAX := by
    have := clampLimit_le limit
    unfold MAX_ROW_LIMIT at this
    unfold I64_MAX
    omega
  have htext : readText blobs key = .ok (String.ofList (w.write (first :: rows))) := by
    rw [readText, hblob]
    simp only [fromUtf8_utf8]
  unfold opGetRows
  simp only [refuseWhen, not_lt.mpr hstart, not_lt.mpr hlimit, decide_false, Bool.false_eq_true,
    if_false, Except.mapError, bind, Except.bind, h.readable, h.csv, ne_eq, not_true_eq_false,
    hkey, htext, String.toList_ofList]

theorem rowsResponse_rows (a : EvidenceArtifact) (start limit : ℕ) (text : List Char) :
    (rowsResponse a start limit text).rows =
      (((dataLines text).drop start).take limit).map (rowObject a.columnNames) := by
  simp only [rowsResponse, pageLines_eq, List.nil_append, List.length_nil, Nat.sub_zero]
  rfl

/-- The lines behind the header are the rows, none of them blank or broken. -/
theorem dataLines_write (hfirst : ∀ cell ∈ first, '\n' ∉ cell)
    (hfeeds : ∀ row ∈ rows, ∀ cell ∈ row, '\n' ∉ cell)
    (hblank : ∀ row ∈ rows, w.writeRow row ≠ []) :
    dataLines (w.write (first :: rows)) = rows.map w.writeRow := by
  have hlast : ∀ row ∈ rows.getLast?, w.writeRow row ≠ [] := fun row hrow =>
    hblank row (List.mem_of_getLast? hrow)
  rw [dataLines, CsvWriter.lines_write_tail hfirst hfeeds hlast]
  refine List.filter_eq_self.mpr fun line hline => ?_
  obtain ⟨row, hrow, rfl⟩ := List.mem_map.mp hline
  simpa using hblank row hrow

theorem mapIdx_fst (columns : List String) (value : ℕ → Json) :
    (columns.mapIdx fun i name => (name, value i)).map Prod.fst = columns := by
  apply List.ext_getElem?
  intro i
  rw [List.getElem?_map, List.getElem?_mapIdx]
  cases columns[i]? <;> rfl

theorem readsAs_rowObject {columns : List String} {row : List (List Char)}
    (hdistinct : columns.Nodup) (hwritten : w.writeRow row ≠ []) :
    ReadsAs columns (rowObject columns (w.writeRow row)) row := by
  intro i name cell hname hcell
  have hrow : row ≠ [] := by
    rintro rfl
    exact hwritten rfl
  rw [rowObject, splitCsvRow_writeRow hrow]
  apply Json.get_object_of_mem
  · rwa [mapIdx_fst]
  · rw [List.mem_iff_getElem?]
    exact ⟨i, by simp [hname, hcell]⟩

theorem forall₂_map_left_self {α β : Type*} {R : β → α → Prop} {f : α → β} {xs : List α}
    (h : ∀ x ∈ xs, R (f x) x) : List.Forall₂ R (xs.map f) xs := by
  induction xs with
  | nil => exact .nil
  | cons x xs ih =>
    exact .cons (h x List.mem_cons_self) (ih fun y hy => h y (List.mem_cons_of_mem _ hy))

/-- The pages of a table without line feeds in its cells, blank rows and repeated column names are
its rows, cell by cell. -/
theorem sealed_rows_partition (hsealed : SealedCsv w s blobs access evidenceId a first rows)
    (hfirst : ∀ cell ∈ first, '\n' ∉ cell) (hfeeds : ∀ row ∈ rows, ∀ cell ∈ row, '\n' ∉ cell)
    (hblank : ∀ row ∈ rows, w.writeRow row ≠ []) (hdistinct : a.columnNames.Nodup)
    (hlength : rows.length ≤ I64_MAX) (hpos : 1 ≤ limit) (hcap : limit ≤ MAX_ROW_LIMIT) :
    PagesPartition s blobs access evidenceId a.columnNames rows limit := by
  have hclamp : clampLimit limit = limit := by
    unfold clampLimit
    omega
  have hlines := dataLines_write hfirst hfeeds hblank
  refine ⟨fun k => ((rows.drop (k * limit)).take limit).map
    fun row => rowObject a.columnNames (w.writeRow row), ?_, ?_⟩
  · intro k hk
    have hstart : k * limit ≤ I64_MAX :=
      ((Nat.le_div_iff_mul_le hpos).mp hk).trans hlength
    refine ⟨_, opGetRows_sealed hsealed hstart, ?_⟩
    rw [rowsResponse_rows, hlines, hclamp, ← List.map_drop, ← List.map_take, List.map_map]
    rfl
  · have hall : rows.length ≤ (rows.length / limit + 1) * limit := by
      have := Nat.lt_div_mul_add (a := rows.length) hpos
      rw [Nat.add_mul, one_mul]
      omega
    have hpages : (List.range (rows.length / limit + 1)).flatMap (fun k =>
        ((rows.drop (k * limit)).take limit).map fun row =>
          rowObject a.columnNames (w.writeRow row)) =
        rows.map fun row => rowObject a.columnNames (w.writeRow row) := by
      rw [← List.map_flatMap, flatMap_windows, List.take_of_length_le hall]
    rw [hpages]
    exact forall₂_map_left_self fun row hrow => readsAs_rowObject hdistinct (hblank row hrow)

end Sealed

section Samples

def sampleRow (names : List String) : EvidenceArtifact where
  evidenceId := "ev-1"
  tenant := "demo"
  state := .committed
  manifest := { EvidenceManifest.sample none [] with
    columns := names.mapIdx fun i name => ⟨toString i, name, true⟩ }
  blobPath := "evidence/ev-1"
  createdAt := "2026-01-01T00:00:00.000Z"
  committedAt := some "2026-01-01T00:00:00.000Z"

def sampleRows (names : List String) : MemEvidenceStore :=
  MemEvidenceStore.empty.setArtifact "demo" "ev-1" (sampleRow names)

def sampleBlobs (rows : List (List (List Char))) : Blobs :=
  SortedMap.empty.insert "demo/evidence/ev-1" (utf8 (String.ofList (plainWriter.write rows)))

def sampleKey : SourceKey :=
  ⟨"demo", "evidence/ev-1", "bbbbbbbbbbbbbbbbbbbbbbbbbbbbbbbbbbbbbbbbbbbbbbbbbbbbbbbbbbbbbbbb"⟩

def rowAccess : AccessCtx := ⟨"demo", 0, [], false⟩

theorem sample_sealed (names : List String) (first : List (List Char))
    (rows : List (List (List Char))) (hwide : ∀ row ∈ rows, row.length = names.length) :
    SealedCsv plainWriter (sampleRows names) (sampleBlobs (first :: rows)) rowAccess "ev-1"
      (sampleRow names) first rows := by
  refine ⟨?_, rfl, ⟨sampleKey, ?_, ?_⟩, ?_⟩
  · have hget : (sampleRows names).get "demo" "ev-1" = some (sampleRow names) :=
      SortedMap.get?_insert_self _ _ _
    rw [resolveReadable, rowAccess, hget]
    rfl
  · show SourceKey.create "demo" "evidence/ev-1" (trimHash
      (EvidenceManifest.sample none []).artifactHash) = .ok sampleKey
    decide +kernel
  · exact SortedMap.get?_insert_self _ _ _
  · intro row hrow
    rw [hwide row hrow]
    simp [sampleRow]

theorem sealed_rows_two_pages :
    PagesPartition (sampleRows ["a", "b"])
      (sampleBlobs [["a".toList, "b".toList], ["1".toList, "x,\"y".toList], [[], "2".toList]])
      rowAccess "ev-1" (sampleRow ["a", "b"]).columnNames
      [["1".toList, "x,\"y".toList], [[], "2".toList]] 1 := by
  refine sealed_rows_partition (sample_sealed ["a", "b"] _ _ ?_) ?_ ?_ ?_ ?_ ?_ ?_ ?_
  all_goals decide +kernel

/-- How many rows the pages of a sample hold. -/
theorem pages_length {names : List String} {first : List (List Char)}
    {rows : List (List (List Char))} {limit : ℕ}
    (hwide : ∀ row ∈ rows, row.length = names.length) (hlength : rows.length ≤ I64_MAX)
    (h : PagesPartition (sampleRows names) (sampleBlobs (first :: rows)) rowAccess "ev-1"
      (sampleRow names).columnNames rows limit) :
    ((List.range (rows.length / limit + 1)).map fun k =>
      min (clampLimit limit)
        ((dataLines (plainWriter.write (first :: rows))).length - k * limit)).sum =
      rows.length := by
  obtain ⟨pages, hpages, hrows⟩ := h
  have hlen := hrows.length_eq
  rw [List.length_flatMap] at hlen
  refine Eq.trans (congrArg List.sum (List.map_congr_left fun k hk => ?_)) hlen
  have hk' : k ≤ rows.length / limit := Nat.lt_succ_iff.mp (List.mem_range.mp hk)
  have hstart : k * limit ≤ I64_MAX :=
    ((Nat.mul_le_mul_right limit hk').trans (Nat.div_mul_le_self _ _)).trans hlength
  obtain ⟨r, hr, hpage⟩ := hpages k hk'
  rw [opGetRows_sealed (sample_sealed names first rows hwide) hstart] at hr
  rw [← hpage, ← Except.ok.inj hr, rowsResponse_rows, List.length_map, List.length_take,
    List.length_drop]

theorem tall_wide (n : ℕ) : ∀ row ∈ List.replicate n ["1".toList], row.length = ["a"].length := by
  intro row hrow
  rw [List.eq_of_mem_replicate hrow]
  rfl

theorem tall_lines (n : ℕ) :
    dataLines (plainWriter.write (["a".toList] :: List.replicate n ["1".toList])) =
      List.replicate n ['1'] := by
  rw [dataLines_write (by decide), List.map_replicate]
  · rfl
  · intro row hrow
    rw [List.eq_of_mem_replicate hrow]
    decide
  · intro row hrow
    rw [List.eq_of_mem_replicate hrow]
    decide

/-- A line feed in a cell breaks the row, an empty cell by itself is no row, of two columns of one
name the last is read, and page sizes outside of the cap are not kept. -/
theorem sealed_rows_lost :
    (∀ names ∈ [["a"], ["a", "a"]], (sampleRow names).manifest.Accepted) ∧
      (SealedCsv plainWriter (sampleRows ["a"]) (sampleBlobs [["a".toList], ["x\ny".toList]])
          rowAccess "ev-1" (sampleRow ["a"]) ["a".toList] [["x\ny".toList]] ∧
        ¬ PagesPartition (sampleRows ["a"]) (sampleBlobs [["a".toList], ["x\ny".toList]])
          rowAccess "ev-1" (sampleRow ["a"]).columnNames [["x\ny".toList]] 1) ∧
      (SealedCsv plainWriter (sampleRows ["a"]) (sampleBlobs [["a".toList], [[]]])
          rowAccess "ev-1" (sampleRow ["a"]) ["a".toList] [[[]]] ∧
        ¬ PagesPartition (sampleRows ["a"]) (sampleBlobs [["a".toList], [[]]])
          rowAccess "ev-1" (sampleRow ["a"]).columnNames [[[]]] 1) ∧
      (SealedCsv plainWriter (sampleRows ["a", "a"])
          (sampleBlobs [["a".toList, "a".toList], ["1".toList, "2".toList]])
          rowAccess "ev-1" (sampleRow ["a", "a"]) ["a".toList, "a".toList]
          [["1".toList, "2".toList]] ∧
        ¬ PagesPartition (sampleRows ["a", "a"])
          (sampleBlobs [["a".toList, "a".toList], ["1".toList, "2".toList]])
          rowAccess "ev-1" (sampleRow ["a", "a"]).columnNames [["1".toList, "2".toList]] 1) ∧
      ∀ limit ∈ [0, 1001],
        SealedCsv plainWriter (sampleRows ["a"])
            (sampleBlobs (["a".toList] :: List.replicate 1002 ["1".toList]))
            rowAccess "ev-1" (sampleRow ["a"]) ["a".toList] (List.replicate 1002 ["1".toList]) ∧
          ¬ PagesPartition (sampleRows ["a"])
            (sampleBlobs (["a".toList] :: List.replicate 1002 ["1".toList]))
            rowAccess "ev-1" (sampleRow ["a"]).columnNames
            (List.replicate 1002 ["1".toList]) limit := by
  refine ⟨by decide +kernel, ⟨sample_sealed _ _ _ (by decide), fun h => ?_⟩,
    ⟨sample_sealed _ _ _ (by decide), fun h => ?_⟩, ⟨sample_sealed _ _ _ (by decide), fun h => ?_⟩,
    fun limit hlimit => ⟨sample_sealed _ _ _ ?_, fun h => ?_⟩⟩
  · have hlength := pages_length (by decide) (by decide) h
    revert hlength
    decide +kernel
  · have hlength := pages_length (by decide) (by decide) h
    revert hlength
    decide +kernel
  · obtain ⟨pages, hpages, hrows⟩ := h
    obtain ⟨r, hr, hpage⟩ := hpages 0 (Nat.zero_le _)
    rw [opGetRows_sealed (sample_sealed _ _ _ (by decide)) (by decide)] at hr
    have hlines : dataLines (plainWriter.write
        [["a".toList, "a".toList], ["1".toList, "2".toList]]) = ["1,2".toList] := by decide +kernel
    have hobject : pages 0 = [Json.object [("a", .str "1"), ("a", .str "2")]] := by
      rw [← hpage, ← Except.ok.inj hr, rowsResponse_rows, hlines]
      rfl
    have hflat : (List.range ([["1".toList, "2".toList]].length / 1 + 1)).flatMap pages =
        pages 0 ++ pages 1 := by simp [List.range_succ]
    rw [hflat, hobject] at hrows
    obtain ⟨hreads, -⟩ := List.forall₂_cons.mp hrows
    have hfirst := hreads 0 "a" "1".toList rfl rfl
    have hlast := Json.get_object_last [("a", .str "1")] "a" (.str "2")
    exact absurd (Option.some.inj (hfirst.symm.trans hlast)) (by decide)
  · exact tall_wide 1002
  · have hlength := pages_length (tall_wide 1002) (by rw [List.length_replicate]; decide) h
    rw [tall_lines, List.length_replicate, List.length_replicate] at hlength
    rcases List.mem_pair.mp hlimit with rfl | rfl
    · revert hlength
      decide +kernel
    · revert hlength
      decide +kernel

end Samples
end Munarium

import Munarium.Evidence.Seal
import Munarium.Std.Csv

/-! `op_get_rows`: a window of rows over the bytes of a sealed table. The access log is left out. -/
namespace Munarium

def MAX_ROW_LIMIT : ℕ := 1000

def I64_MAX : ℕ := 2 ^ 63 - 1

namespace CustomError

def evidenceExpired (evidenceId : String) : CustomError where
  slug := "evidence-expired"
  status := 410
  title := "evidence expired"
  detail := "evidence '" ++ evidenceId ++ "' was purged under its retention policy; " ++
    "its manifest is retained but its rows are gone"

end CustomError

/-- `split_csv_row` from a state of its loop. -/
def splitCsvRowFrom (out : List (List Char)) (cur : List Char) (inQuotes : Bool) :
    List Char → List (List Char)
  | [] => out ++ [cur]
  | '"' :: rest =>
      if inQuotes then
        match rest with
        | '"' :: rest => splitCsvRowFrom out (cur ++ ['"']) true rest
        | rest => splitCsvRowFrom out cur false rest
      else splitCsvRowFrom out cur true rest
  | c :: rest =>
      if c = ',' ∧ inQuotes = false then splitCsvRowFrom (out ++ [cur]) [] false rest
      else splitCsvRowFrom out (cur ++ [c]) inQuotes rest

def splitCsvRow (line : List Char) : List (List Char) := splitCsvRowFrom [] [] false line

example : splitCsvRow "a,\"b,still b\",\"say \"\"hi\"\"\",".toList =
    ["a".toList, "b,still b".toList, "say \"hi\"".toList, []] := by decide +kernel

structure EvidenceRowsResponse where
  evidenceId : String
  «from» : ℕ
  rows : List Json
  total : Option ℕ
  hasMore : Bool

def resolveReadable (s : MemEvidenceStore) (access : AccessCtx) (evidenceId : String) :
    ApiResult EvidenceArtifact :=
  match s.get access.tenantId evidenceId with
  | none => .error (.mesh (.notFound "evidence" evidenceId))
  | some a =>
      if a.manifest.authorizationClass.admits access = false then
        .error (.custom .evidenceForbidden)
      else if a.state = .purged then .error (.custom (.evidenceExpired evidenceId))
      else if a.state ≠ .committed then .error (.custom (.evidenceNotCommitted evidenceId))
      else .ok a

/-- The lines behind the header that are not empty. -/
def dataLines (text : List Char) : List (List Char) :=
  ((lines text).drop 1).filter fun l => !l.isEmpty

/-- A row as an object of the manifest's column names. -/
def rowObject (columns : List String) (line : List Char) : Json :=
  Json.object (columns.mapIdx fun i name =>
    (name, ((splitCsvRow line)[i]?.map fun c => Json.str (String.ofList c)).getD .null))

def clampLimit (limit : ℕ) : ℕ := min (max limit 1) MAX_ROW_LIMIT

/-- One pass over the lines: the count and the lines of the page. -/
def pageLines (start limit : ℕ) : List (List Char) → ℕ → List (List Char) → List (List Char) × ℕ
  | [], total, page => (page, total)
  | line :: rest, total, page =>
      pageLines start limit rest (total + 1)
        (if start ≤ total ∧ page.length < limit then page ++ [line] else page)

/-- The window over a text, and how many rows there are. -/
def rowsResponse (a : EvidenceArtifact) (start limit : ℕ) (text : List Char) :
    EvidenceRowsResponse :=
  let columns := a.manifest.columns.map (·.name)
  let (page, total) := pageLines start limit (dataLines text) 0 []
  { evidenceId := a.evidenceId
    «from» := start
    rows := page.map (rowObject columns)
    total := some total
    hasMore := decide (start + page.length < total) }

def readText (blobs : Blobs) (key : SourceKey) : ApiResult String :=
  match blobs.get? key.blobName with
  | none => .error (.mesh (.notFound "source blob" key.blobName))
  | some bytes =>
      match fromUtf8 bytes with
      | none => .error (.mesh (.storage "artifact is not UTF-8"))
      | some text => .ok text

def opGetRows (s : MemEvidenceStore) (blobs : Blobs) (access : AccessCtx) (evidenceId : String)
    (start limit : ℕ) : ApiResult EvidenceRowsResponse := do
  let limit := clampLimit limit
  (refuseWhen (I64_MAX < start) "row from exceeds signed-64 range").mapError .mesh
  (refuseWhen (I64_MAX < limit) "row limit exceeds signed-64 range").mapError .mesh
  let artifact ← resolveReadable s access evidenceId
  (refuseWhen (artifact.manifest.mediaType ≠ MEDIA_TYPE_CSV)
    ("rows are served for '" ++ MEDIA_TYPE_CSV ++ "' artifacts only; this artifact is '" ++
      artifact.manifest.mediaType ++ "'. Its bytes are sealed and replayable, but this server " ++
      "does not decode them")).mapError .mesh
  let key ← (artifact.keyFor access.tenantId).mapError .mesh
  let text ← readText blobs key
  .ok (rowsResponse artifact start limit text.toList)

section Reading
variable {w : CsvWriter} {out : List (List Char)} {cur cell rest : List Char} {inQuotes : Bool}

theorem splitCsvRowFrom_quote : splitCsvRowFrom out cur false ('"' :: rest) =
    splitCsvRowFrom out cur true rest := by
  cases rest with
  | nil => rfl
  | cons c rest =>
    by_cases hc : c = '"'
    · subst hc
      rfl
    · rw [splitCsvRowFrom, if_neg Bool.false_ne_true]
      exact fun _ heq => hc (List.cons.inj heq).1

theorem splitCsvRowFrom_escape : splitCsvRowFrom out cur true ('"' :: '"' :: rest) =
    splitCsvRowFrom out (cur ++ ['"']) true rest := rfl

theorem splitCsvRowFrom_close (h : rest.head? ≠ some '"') :
    splitCsvRowFrom out cur true ('"' :: rest) = splitCsvRowFrom out cur false rest := by
  rw [splitCsvRowFrom, if_pos rfl]
  rintro rest' rfl
  exact h rfl

theorem splitCsvRowFrom_plain {c : Char} (hquote : c ≠ '"') (hcomma : c ≠ ',' ∨ inQuotes = true) :
    splitCsvRowFrom out cur inQuotes (c :: rest) =
      splitCsvRowFrom out (cur ++ [c]) inQuotes rest := by
  have hpush : ¬ (c = ',' ∧ inQuotes = false) := by
    rintro ⟨hc, hin⟩
    rcases hcomma with hne | htrue
    · exact hne hc
    · rw [hin] at htrue
      cases htrue
  rw [splitCsvRowFrom, if_neg hpush]
  exact fun hc => hquote hc

theorem splitCsvRowFrom_comma : splitCsvRowFrom out cur false (',' :: rest) =
    splitCsvRowFrom (out ++ [cur]) [] false rest := by
  rw [splitCsvRowFrom, if_pos ⟨rfl, rfl⟩]
  exact fun hc => absurd hc (by decide)

theorem splitCsvRowFrom_bare (h : ∀ c ∈ cell, c ≠ '"' ∧ c ≠ ',') :
    splitCsvRowFrom out cur false (cell ++ rest) =
      splitCsvRowFrom out (cur ++ cell) false rest := by
  induction cell generalizing cur with
  | nil => simp
  | cons c cell ih =>
    obtain ⟨hquote, hcomma⟩ := h c List.mem_cons_self
    rw [List.cons_append, splitCsvRowFrom_plain hquote (.inl hcomma),
      ih fun d hd => h d (List.mem_cons_of_mem _ hd), List.append_assoc]
    rfl

theorem splitCsvRowFrom_quoted (h : rest.head? ≠ some '"') :
    splitCsvRowFrom out cur true (doubleQuotes cell ++ '"' :: rest) =
      splitCsvRowFrom out (cur ++ cell) false rest := by
  induction cell generalizing cur with
  | nil =>
    rw [List.append_nil]
    exact splitCsvRowFrom_close h
  | cons c cell ih =>
    by_cases hc : c = '"'
    · subst hc
      rw [show doubleQuotes ('"' :: cell) = '"' :: '"' :: doubleQuotes cell from rfl,
        List.cons_append, List.cons_append, splitCsvRowFrom_escape, ih, List.append_assoc]
      rfl
    · have hdouble : doubleQuotes (c :: cell) = c :: doubleQuotes cell := by
        simp [doubleQuotes, hc]
      rw [hdouble, List.cons_append, splitCsvRowFrom_plain hc (.inr rfl), ih, List.append_assoc]
      rfl

/-- A written cell is read back, whatever it holds. -/
theorem splitCsvRowFrom_writeCell (h : rest.head? ≠ some '"') :
    splitCsvRowFrom out [] false (w.writeCell cell ++ rest) =
      splitCsvRowFrom out cell false rest := by
  unfold CsvWriter.writeCell
  split_ifs with hquotes
  · rw [List.cons_append, List.cons_append, splitCsvRowFrom_quote, List.append_assoc,
      List.singleton_append, splitCsvRowFrom_quoted h, List.nil_append]
  · have hplain : ∀ c ∈ cell, c ≠ '"' ∧ c ≠ ',' := by
      intro c hc
      have hneeds : needsQuotes c ≠ true := fun hneeds =>
        hquotes (w.quotes_of_needs cell (List.any_eq_true.mpr ⟨c, hc, hneeds⟩))
      constructor
      · rintro rfl
        exact hneeds (by decide)
      · rintro rfl
        exact hneeds (by decide)
    rw [splitCsvRowFrom_bare hplain, List.nil_append]

theorem splitCsvRowFrom_writeRow {row : List (List Char)} (h : row ≠ []) :
    splitCsvRowFrom out [] false (w.writeRow row) = out ++ row := by
  fun_induction CsvWriter.writeRow w row generalizing out with
  | case1 => exact absurd rfl h
  | case2 cell =>
    have hread : splitCsvRowFrom out [] false (w.writeCell cell ++ []) =
        splitCsvRowFrom out cell false [] := splitCsvRowFrom_writeCell (by simp)
    rw [List.append_nil] at hread
    rw [hread]
    rfl
  | case3 cell cells hne ih =>
    rw [splitCsvRowFrom_writeCell (by simp), splitCsvRowFrom_comma, ih hne, List.append_assoc]
    rfl

/-- A written row is read back cell by cell. -/
theorem splitCsvRow_writeRow {row : List (List Char)} (h : row ≠ []) :
    splitCsvRow (w.writeRow row) = row := splitCsvRowFrom_writeRow h

end Reading

end Munarium

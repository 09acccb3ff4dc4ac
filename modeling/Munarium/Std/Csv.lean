import Munarium.Std.Lines

/-! Comma-separated text as a writer of the common form makes it: quotes where a cell needs
them, a doubled quote inside. Where else it quotes and how it ends a record is the writer's
choice. -/
namespace Munarium

def needsQuotes (c : Char) : Bool := c == ',' || c == '"' || c == '\r' || c == '\n'

structure CsvWriter where
  quotes : List Char → Bool
  crlf : Bool
  endsLast : Bool
  quotes_of_needs : ∀ cell, cell.any needsQuotes = true → quotes cell = true

/-- Quotes only where they are needed, and a line feed after every record. -/
def plainWriter : CsvWriter where
  quotes cell := cell.any needsQuotes
  crlf := false
  endsLast := true
  quotes_of_needs _ h := h

def doubleQuotes (cell : List Char) : List Char :=
  cell.flatMap fun c => if c = '"' then ['"', '"'] else [c]

namespace CsvWriter
variable (w : CsvWriter)

def writeCell (cell : List Char) : List Char :=
  if w.quotes cell then '"' :: doubleQuotes cell ++ ['"'] else cell

/-- One record without its ending. -/
def writeRow : List (List Char) → List Char
  | [] => []
  | [cell] => w.writeCell cell
  | cell :: cells => w.writeCell cell ++ ',' :: writeRow cells

def ending : List Char := if w.crlf then ['\r', '\n'] else ['\n']

def write : List (List (List Char)) → List Char
  | [] => []
  | [row] => w.writeRow row ++ if w.endsLast then w.ending else []
  | row :: rows => w.writeRow row ++ (w.ending ++ write rows)

section
variable {w} {cell : List Char} {row : List (List Char)}

theorem mem_doubleQuotes {c : Char} (h : c ∈ doubleQuotes cell) : c ∈ cell := by
  obtain ⟨d, hd, hc⟩ := List.mem_flatMap.mp h
  split_ifs at hc with hquote
  · obtain rfl : c = d := by simpa [hquote] using hc
    exact hd
  · rwa [List.mem_singleton.mp hc]

theorem feed_notMem_writeCell (h : '\n' ∉ cell) : '\n' ∉ w.writeCell cell := by
  unfold writeCell
  split_ifs
  · intro hmem
    rcases List.mem_append.mp hmem with hmem | hmem
    · rcases List.mem_cons.mp hmem with heq | hmem
      · exact absurd heq (by decide)
      · exact h (mem_doubleQuotes hmem)
    · exact absurd (List.mem_singleton.mp hmem) (by decide)
  · exact h

theorem feed_notMem_writeRow (h : ∀ cell ∈ row, '\n' ∉ cell) : '\n' ∉ w.writeRow row := by
  fun_induction writeRow w row with
  | case1 => exact List.not_mem_nil
  | case2 cell => exact feed_notMem_writeCell (h cell List.mem_cons_self)
  | case3 cell cells _ ih =>
    intro hmem
    rcases List.mem_append.mp hmem with hmem | hmem
    · exact feed_notMem_writeCell (h cell List.mem_cons_self) hmem
    · rcases List.mem_cons.mp hmem with heq | hmem
      · exact absurd heq (by decide)
      · exact ih (fun c hc => h c (List.mem_cons_of_mem _ hc)) hmem

theorem return_last_writeCell : (w.writeCell cell).getLast? ≠ some '\r' := by
  unfold writeCell
  split_ifs with hquotes
  · rw [List.getLast?_concat]
    decide
  · intro hlast
    have hmem := List.mem_of_getLast? hlast
    exact hquotes (w.quotes_of_needs cell (List.any_eq_true.mpr ⟨'\r', hmem, by decide⟩))

/-- A record never ends in a carriage return of its own. -/
theorem return_last_writeRow : (w.writeRow row).getLast? ≠ some '\r' := by
  fun_induction writeRow w row with
  | case1 => simp
  | case2 cell => exact return_last_writeCell
  | case3 cell cells _ ih =>
    rw [List.getLast?_append, List.getLast?_cons]
    cases hlast : (w.writeRow cells).getLast? with
    | none => simp
    | some c =>
      rw [hlast] at ih
      simpa using ih

theorem lines_ending {line rest : List Char} (h : '\n' ∉ line)
    (hreturn : line.getLast? ≠ some '\r') :
    lines (line ++ (w.ending ++ rest)) = line :: lines rest := by
  unfold ending
  split_ifs
  · exact lines_return_feed h
  · exact lines_feed h hreturn

/-- A text without line feeds in its cells has its records as its lines, but for an empty last
record without an ending. -/
theorem lines_write {rows : List (List (List Char))} (h : ∀ row ∈ rows, ∀ cell ∈ row, '\n' ∉ cell)
    (hlast : ∀ row ∈ rows.getLast?, w.writeRow row ≠ []) :
    lines (w.write rows) = rows.map w.writeRow := by
  fun_induction write w rows with
  | case1 => rfl
  | case2 row =>
    have hfeed : '\n' ∉ w.writeRow row := feed_notMem_writeRow (h row List.mem_cons_self)
    split_ifs
    · have hlines : lines (w.writeRow row ++ (w.ending ++ [])) = w.writeRow row :: lines [] :=
        lines_ending hfeed return_last_writeRow
      rw [List.append_nil] at hlines
      exact hlines
    · rw [List.append_nil]
      exact lines_last hfeed (hlast row rfl)
  | case3 row rows hne ih =>
    have hfeed : '\n' ∉ w.writeRow row := feed_notMem_writeRow (h row List.mem_cons_self)
    rw [lines_ending hfeed return_last_writeRow, List.map_cons]
    refine congrArg _ (ih (fun r hr => h r (List.mem_cons_of_mem _ hr)) fun r hr => hlast r ?_)
    rw [List.getLast?_cons, Option.mem_def.mp hr]
    rfl

/-- The lines behind the first record. -/
theorem lines_write_tail {first : List (List Char)} {rows : List (List (List Char))}
    (hfirst : ∀ cell ∈ first, '\n' ∉ cell) (h : ∀ row ∈ rows, ∀ cell ∈ row, '\n' ∉ cell)
    (hlast : ∀ row ∈ rows.getLast?, w.writeRow row ≠ []) :
    (lines (w.write (first :: rows))).drop 1 = rows.map w.writeRow := by
  have hfeed : '\n' ∉ w.writeRow first := feed_notMem_writeRow hfirst
  cases rows with
  | nil =>
    by_cases hends : w.endsLast = true
    · have hlines : lines (w.writeRow first ++ (w.ending ++ [])) = w.writeRow first :: lines [] :=
        lines_ending hfeed return_last_writeRow
      rw [List.append_nil] at hlines
      rw [write, if_pos hends, hlines]
      rfl
    · rw [write, if_neg hends, List.append_nil]
      by_cases hempty : w.writeRow first = []
      · rw [hempty]
        rfl
      · rw [lines_last hfeed hempty]
        rfl
  | cons row rows =>
    have hrest := lines_write h hlast
    rw [write, lines_ending hfeed return_last_writeRow, List.drop_one, List.tail_cons, hrest]
    exact List.cons_ne_nil _ _

end

end CsvWriter
end Munarium

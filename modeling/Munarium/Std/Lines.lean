import Mathlib.Data.List.Basic

/-! `str::lines`: the pieces up to each line feed, without it and without a carriage return
before it. -/
namespace Munarium

/-- `str::split_inclusive` on a line feed. -/
def splitInclusive : List Char → List (List Char)
  | [] => []
  | c :: rest =>
      if c = '\n' then [c] :: splitInclusive rest
      else match splitInclusive rest with
        | [] => [[c]]
        | piece :: pieces => (c :: piece) :: pieces

/-- `str::strip_suffix` on one character. -/
def stripLast (c : Char) (cs : List Char) : Option (List Char) :=
  if cs.getLast? = some c then some cs.dropLast else none

/-- One piece without its line ending. -/
def stripEnding (piece : List Char) : List Char :=
  match stripLast '\n' piece with
  | none => piece
  | some line => (stripLast '\r' line).getD line

/-- `str::lines`. -/
def lines (text : List Char) : List (List Char) := (splitInclusive text).map stripEnding

section
variable {line rest : List Char}

@[simp] theorem stripLast_append (c : Char) (cs : List Char) :
    stripLast c (cs ++ [c]) = some cs := by
  rw [stripLast, if_pos List.getLast?_concat, List.dropLast_concat]

theorem stripLast_none {c : Char} {cs : List Char} (h : cs.getLast? ≠ some c) :
    stripLast c cs = none := if_neg h

theorem splitInclusive_append (h : '\n' ∉ line) :
    splitInclusive (line ++ '\n' :: rest) = (line ++ ['\n']) :: splitInclusive rest := by
  induction line with
  | nil => rfl
  | cons c line ih =>
    have hc : c ≠ '\n' := fun heq => h (heq ▸ List.mem_cons_self)
    have hline : '\n' ∉ line := fun hmem => h (List.mem_cons_of_mem _ hmem)
    rw [List.cons_append, splitInclusive, if_neg hc, ih hline]
    rfl

theorem splitInclusive_single (h : '\n' ∉ line) (hne : line ≠ []) :
    splitInclusive line = [line] := by
  induction line with
  | nil => exact absurd rfl hne
  | cons c line ih =>
    have hc : c ≠ '\n' := fun heq => h (heq ▸ List.mem_cons_self)
    have hline : '\n' ∉ line := fun hmem => h (List.mem_cons_of_mem _ hmem)
    cases line with
    | nil =>
      rw [splitInclusive, if_neg hc]
      rfl
    | cons d line => rw [splitInclusive, if_neg hc, ih hline (List.cons_ne_nil _ _)]

theorem lines_feed (h : '\n' ∉ line) (hreturn : line.getLast? ≠ some '\r') :
    lines (line ++ '\n' :: rest) = line :: lines rest := by
  rw [lines, splitInclusive_append h, List.map_cons]
  simp [stripEnding, stripLast_none hreturn, lines]

theorem lines_return_feed (h : '\n' ∉ line) :
    lines (line ++ '\r' :: '\n' :: rest) = line :: lines rest := by
  have hreturn : '\n' ∉ line ++ ['\r'] := by simpa using h
  have hpiece : stripEnding ((line ++ ['\r']) ++ ['\n']) = line := by
    rw [stripEnding, stripLast_append]
    simp only [stripLast_append, Option.getD_some]
  rw [List.append_cons, lines, splitInclusive_append hreturn, List.map_cons, hpiece, lines]

theorem lines_last (h : '\n' ∉ line) (hne : line ≠ []) : lines line = [line] := by
  have hlast : line.getLast? ≠ some '\n' := fun hlast => h (List.mem_of_getLast? hlast)
  rw [lines, splitInclusive_single h hne, List.map_singleton, stripEnding, stripLast_none hlast]

end

example : lines "a\r\n\nb\r".toList = ["a".toList, [], "b\r".toList] := by decide

end Munarium

import Mathlib.Data.List.Infix
import Munarium.Std.Text

/-! `LIKE` patterns, with a backslash as their escape, and the escaped text that matches itself
alone. -/
namespace Munarium

/-- A pattern against a text: `%` stands for any text, `_` for any one character. -/
def likeMatch : List Char → List Char → Bool
  | [], s => s.isEmpty
  | ['\\'], _ => false
  | '\\' :: c :: p, s =>
      match s with
      | [] => false
      | d :: s => d == c && likeMatch p s
  | '%' :: p, s => s.tails.any (likeMatch p)
  | '_' :: p, s =>
      match s with
      | [] => false
      | _ :: s => likeMatch p s
  | c :: p, s =>
      match s with
      | [] => false
      | d :: s => d == c && likeMatch p s

/-- `replace`, which puts a backslash before every such character. -/
def escapeWith (c : Char) (s : List Char) : List Char :=
  s.flatMap fun d => if d = c then ['\\', d] else [d]

def escapeLike (pre : List Char) : List Char :=
  escapeWith '_' (escapeWith '%' (escapeWith '\\' pre))

theorem escapeLike_append (a b : List Char) :
    escapeLike (a ++ b) = escapeLike a ++ escapeLike b := by
  simp only [escapeLike, escapeWith, List.flatMap_append]

theorem escapeLike_singleton (c : Char) :
    escapeLike [c] = if c = '\\' ∨ c = '%' ∨ c = '_' then ['\\', c] else [c] := by
  by_cases h₁ : c = '\\'
  · subst h₁
    decide
  by_cases h₂ : c = '%'
  · subst h₂
    decide
  by_cases h₃ : c = '_'
  · subst h₃
    decide
  simp [escapeLike, escapeWith, h₁, h₂, h₃]

theorem likeMatch_escape (c : Char) (p s : List Char) :
    likeMatch ('\\' :: c :: p) s = (s.head? == some c && likeMatch p s.tail) := by
  cases s with
  | nil => rfl
  | cons d s => rfl

theorem likeMatch_plain {c : Char} (h : ¬(c = '\\' ∨ c = '%' ∨ c = '_')) (p s : List Char) :
    likeMatch (c :: p) s = (s.head? == some c && likeMatch p s.tail) := by
  simp only [not_or] at h
  cases s with
  | nil => rw [likeMatch] <;> simp [h]
  | cons d s => rw [likeMatch] <;> simp [h]

theorem isPrefixOf_cons_left (c : Char) (pre s : List Char) :
    (c :: pre).isPrefixOf s = (s.head? == some c && pre.isPrefixOf s.tail) := by
  cases s with
  | nil => rfl
  | cons d s =>
    show (c == d && pre.isPrefixOf s) = (some d == some c && pre.isPrefixOf s)
    rw [Option.some_beq_some, Bool.beq_comm]

/-- An escaped text followed by `%` matches the texts that it is a prefix of. -/
theorem likeMatch_escaped (pre s : List Char) :
    likeMatch (escapeLike pre ++ ['%']) s = pre.isPrefixOf s := by
  induction pre generalizing s with
  | nil =>
    show s.tails.any (likeMatch []) = true
    rw [List.any_eq_true]
    exact ⟨[], (List.mem_tails _ _).mpr List.nil_suffix, rfl⟩
  | cons c pre ih =>
    rw [isPrefixOf_cons_left, ← ih, ← List.singleton_append, escapeLike_append,
      escapeLike_singleton, List.append_assoc]
    split_ifs with hc
    · exact likeMatch_escape c _ s
    · exact likeMatch_plain hc _ s

end Munarium

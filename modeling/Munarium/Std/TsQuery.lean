import Munarium.Std.Text
import Mathlib.Data.Finset.Basic

/-! Full-text queries of the database and the text form in which they are written: quoted lexemes,
`&` before `|`, and parentheses. -/
namespace Munarium

inductive TsQuery where
  | lexeme (s : String)
  | and (a b : TsQuery)
  | or (a b : TsQuery)
  deriving DecidableEq

/-- A text with these lexemes meets the query. -/
def TsQuery.Matches (s : Finset String) : TsQuery → Prop
  | .lexeme l => l ∈ s
  | .and a b => a.Matches s ∧ b.Matches s
  | .or a b => a.Matches s ∨ b.Matches s

inductive TsToken where
  | lexeme (s : String)
  | and
  | or
  | opening
  | closing
  deriving DecidableEq

/-- The tokens of a text; `opened` is what a quoted lexeme holds so far. -/
def tsTokens : Option (List Char) → List Char → Option (List TsToken)
  | none, [] => some []
  | none, c :: cs =>
      if c = ' ' then tsTokens none cs
      else if c = '\u0027' then tsTokens (some []) cs
      else if c = '&' then (tsTokens none cs).map (.and :: ·)
      else if c = '|' then (tsTokens none cs).map (.or :: ·)
      else if c = '(' then (tsTokens none cs).map (.opening :: ·)
      else if c = ')' then (tsTokens none cs).map (.closing :: ·)
      else none
  | some _, [] => none
  | some opened, '\u0027' :: '\u0027' :: cs => tsTokens (some (opened ++ ['\u0027'])) cs
  | some opened, '\u0027' :: cs =>
      if opened = [] then none
      else (tsTokens none cs).map (.lexeme (String.ofList opened) :: ·)
  | some opened, '\\' :: c :: cs => tsTokens (some (opened ++ [c])) cs
  | some opened, c :: cs => tsTokens (some (opened ++ [c])) cs

/-- The alternatives that are complete, and the conjunction that is being read. -/
structure TsFrame where
  ors : Option TsQuery
  ands : Option TsQuery

namespace TsFrame

def start : TsFrame := ⟨none, none⟩

def push (f : TsFrame) (q : TsQuery) : TsFrame :=
  { f with ands := some (match f.ands with | none => q | some a => .and a q) }

def value (f : TsFrame) : Option TsQuery :=
  match f.ors, f.ands with
  | none, ands => ands
  | some o, some a => some (.or o a)
  | some _, none => none

end TsFrame

/-- Reads operands and operators by turns; `operand` holds after an operand. -/
def parseTs : TsFrame → List TsFrame → Bool → List TsToken → Option TsQuery
  | f, [], true, [] => f.value
  | f, stack, false, .lexeme s :: ts => parseTs (f.push (.lexeme s)) stack true ts
  | f, stack, false, .opening :: ts => parseTs .start (f :: stack) false ts
  | f, stack, true, .and :: ts => parseTs f stack false ts
  | f, stack, true, .or :: ts => parseTs ⟨f.value, none⟩ stack false ts
  | f, g :: stack, true, .closing :: ts =>
      match f.value with
      | some q => parseTs (g.push q) stack true ts
      | none => none
  | _, _, _, _ => none

/-- The query that a text is read as. -/
def readTsquery (text : String) : Option TsQuery :=
  (tsTokens none text.toList).bind (parseTs .start [] false)

def escapeLexeme (s : String) : List Char :=
  s.toList.flatMap fun c => if c = '\u0027' ∨ c = '\\' then [c, c] else [c]

/-- A lexeme as the database prints it. -/
def quoteLexeme (s : String) : String :=
  String.ofList ('\u0027' :: (escapeLexeme s ++ ['\u0027']))

example : readTsquery "('citi' & 'o''brien') | 'visit'" =
    some (.or (.and (.lexeme "citi") (.lexeme "o'brien")) (.lexeme "visit")) := by decide

/-- A text whose tokens are these, whatever follows it. -/
def Lexes (t : List Char) (ts : List TsToken) : Prop :=
  ∀ rest, rest.head? ≠ some '\u0027' →
    tsTokens none (t ++ rest) = (tsTokens none rest).map (ts ++ ·)

theorem lexes_append {t t' : List Char} {ts ts' : List TsToken} (h : Lexes t ts)
    (h' : Lexes t' ts') (hne : t' ≠ []) (hhead : t'.head? ≠ some '\u0027') :
    Lexes (t ++ t') (ts ++ ts') := by
  intro rest hrest
  rw [List.append_assoc, h _ (by rwa [List.head?_append_of_ne_nil _ hne]), h' rest hrest,
    Option.map_map]
  congr 1
  funext l
  simp

theorem tsTokens_close {opened rest : List Char} (hopened : opened ≠ [])
    (hrest : rest.head? ≠ some '\u0027') :
    tsTokens (some opened) ('\u0027' :: rest) =
      (tsTokens none rest).map (.lexeme (String.ofList opened) :: ·) := by
  cases rest with
  | nil => simp [tsTokens, hopened]
  | cons c rest =>
    have hc : c ≠ '\u0027' := fun h => hrest (by simp [h])
    generalize hr : tsTokens none (c :: rest) = r
    simp [tsTokens.eq_def (some opened), hc, hr, hopened]

theorem tsTokens_plain (opened : List Char) {c : Char} (hquote : c ≠ '\u0027') (hback : c ≠ '\\')
    (cs : List Char) :
    tsTokens (some opened) (c :: cs) = tsTokens (some (opened ++ [c])) cs := by
  conv_lhs => rw [tsTokens.eq_def]
  simp [hquote, hback]

theorem tsTokens_quoted (opened s : List Char) {rest : List Char} (hne : opened ++ s ≠ [])
    (hrest : rest.head? ≠ some '\u0027') :
    tsTokens (some opened) (s.flatMap (fun c => if c = '\u0027' ∨ c = '\\' then [c, c] else [c]) ++
      '\u0027' :: rest) =
        (tsTokens none rest).map (.lexeme (String.ofList (opened ++ s)) :: ·) := by
  induction s generalizing opened with
  | nil =>
    rw [List.append_nil] at hne ⊢
    exact tsTokens_close hne hrest
  | cons c s ih =>
    rw [List.flatMap_cons, List.append_assoc]
    have hih := ih (opened ++ [c]) (by simp)
    rw [List.append_assoc, List.singleton_append] at hih
    split_ifs with hc
    · rw [← hih]
      rcases hc with rfl | rfl
      · rfl
      · rfl
    · rw [not_or] at hc
      rw [← hih]
      exact tsTokens_plain opened hc.1 hc.2 _

theorem toList_quoteLexeme (s : String) :
    (quoteLexeme s).toList = '\u0027' :: (escapeLexeme s ++ ['\u0027']) := by
  simp [quoteLexeme]

theorem lexes_quoteLexeme {s : String} (hs : s ≠ "") :
    Lexes (quoteLexeme s).toList [.lexeme s] := by
  intro rest hrest
  have hquoted := tsTokens_quoted [] s.toList (by simpa using hs) hrest
  rw [List.nil_append, String.ofList_toList] at hquoted
  rw [toList_quoteLexeme, List.cons_append, List.append_assoc, List.singleton_append]
  rw [tsTokens, if_neg (by decide), if_pos rfl]
  exact hquoted

/-- Tokens that are read as one operand, wherever one is expected. -/
def Parses (ts : List TsToken) (q : TsQuery) : Prop :=
  ∀ f stack rest, parseTs f stack false (ts ++ rest) = parseTs (f.push q) stack true rest

/-- A text that is one operand of a query. -/
def Operand (t : String) (q : TsQuery) : Prop := ∃ ts, Lexes t.toList ts ∧ Parses ts q

theorem operand_quoteLexeme {s : String} (hs : s ≠ "") : Operand (quoteLexeme s) (.lexeme s) :=
  ⟨_, lexes_quoteLexeme hs, fun _ _ _ => by simp [parseTs]⟩

def anded (a b : String) : String := "(" ++ a ++ " & " ++ b ++ ")"

theorem operand_anded {a b : String} (ha : a ≠ "") (hb : b ≠ "") :
    Operand (anded (quoteLexeme a) (quoteLexeme b)) (.and (.lexeme a) (.lexeme b)) := by
  refine ⟨[.opening, .lexeme a, .and, .lexeme b, .closing], ?_, fun _ _ _ => by
    simp [parseTs, TsFrame.start, TsFrame.push, TsFrame.value]⟩
  intro rest hrest
  have htext : (anded (quoteLexeme a) (quoteLexeme b)).toList ++ rest =
      '(' :: ((quoteLexeme a).toList ++
        (' ' :: '&' :: ' ' :: ((quoteLexeme b).toList ++ (')' :: rest)))) := by
    simp [anded]
  rw [htext, tsTokens, if_neg (by decide), if_neg (by decide), if_neg (by decide),
    if_neg (by decide), if_pos rfl, lexes_quoteLexeme ha _ (by simp)]
  rw [tsTokens, if_pos rfl, tsTokens, if_neg (by decide), if_neg (by decide), if_pos rfl,
    tsTokens, if_pos rfl, lexes_quoteLexeme hb _ (by simp)]
  rw [tsTokens, if_neg (by decide), if_neg (by decide), if_neg (by decide), if_neg (by decide),
    if_neg (by decide), if_pos rfl]
  simp only [Option.map_map]
  rfl

/-- Operands joined by `|` are read as a query that one of them has to meet. -/
theorem joined_operands {ops : List (String × TsQuery)} (hne : ops ≠ [])
    (hops : ∀ op ∈ ops, Operand op.1 op.2) :
    ∃ ts, Lexes (join " | " (ops.map Prod.fst)).toList ts ∧
      ∀ ors : Option TsQuery, ∃ q, parseTs ⟨ors, none⟩ [] false ts = some q ∧
        ∀ s, q.Matches s ↔ (∃ o ∈ ors, o.Matches s) ∨ ∃ op ∈ ops, op.2.Matches s := by
  induction ops with
  | nil => exact absurd rfl hne
  | cons op rest ih =>
    obtain ⟨ts, hlexes, hparses⟩ := hops op List.mem_cons_self
    have hvalue (ors : Option TsQuery) : ∃ q, (TsFrame.push ⟨ors, none⟩ op.2).value = some q ∧
        ∀ s, q.Matches s ↔ (∃ o ∈ ors, o.Matches s) ∨ op.2.Matches s := by
      cases ors with
      | none => exact ⟨op.2, rfl, by simp⟩
      | some o => exact ⟨.or o op.2, rfl, by simp [TsQuery.Matches]⟩
    cases rest with
    | nil =>
      refine ⟨ts, by simpa [join] using hlexes, fun ors => ?_⟩
      obtain ⟨q, hq, hmatches⟩ := hvalue ors
      refine ⟨q, ?_, by simpa using hmatches⟩
      have hparse := hparses ⟨ors, none⟩ [] []
      rw [List.append_nil] at hparse
      rw [hparse, parseTs, hq]
    | cons op' rest =>
      obtain ⟨ts', hlexes', hparses'⟩ :=
        ih (List.cons_ne_nil _ _) fun o ho => hops o (List.mem_cons_of_mem _ ho)
      refine ⟨ts ++ .or :: ts', ?_, fun ors => ?_⟩
      · intro after hafter
        have htext : (join " | " ((op :: op' :: rest).map Prod.fst)).toList ++ after =
            op.1.toList ++ (' ' :: '|' :: ' ' ::
              ((join " | " ((op' :: rest).map Prod.fst)).toList ++ after)) := by
          simp [join]
        rw [htext, hlexes _ (by simp), tsTokens, if_pos rfl, tsTokens, if_neg (by decide),
          if_neg (by decide), if_neg (by decide), if_pos rfl, tsTokens, if_pos rfl,
          hlexes' _ hafter]
        simp only [Option.map_map]
        congr 1
        funext l
        simp
      · obtain ⟨q, hq, hmatches⟩ := hvalue ors
        obtain ⟨q', hparse', hmatches'⟩ := hparses' (some q)
        refine ⟨q', ?_, fun s => ?_⟩
        · rw [hparses ⟨ors, none⟩ [] (.or :: ts'), parseTs, hq]
          exact hparse'
        · rw [hmatches' s]
          simp [hmatches s, or_assoc]

theorem readTsquery_join {ops : List (String × TsQuery)} (hne : ops ≠ [])
    (hops : ∀ op ∈ ops, Operand op.1 op.2) :
    ∃ q, readTsquery (join " | " (ops.map Prod.fst)) = some q ∧
      ∀ s, q.Matches s ↔ ∃ op ∈ ops, op.2.Matches s := by
  obtain ⟨ts, hlexes, hparses⟩ := joined_operands hne hops
  obtain ⟨q, hparse, hmatches⟩ := hparses none
  refine ⟨q, ?_, by simpa using hmatches⟩
  have htokens := hlexes [] (by simp)
  rw [List.append_nil] at htokens
  unfold readTsquery
  rw [htokens]
  simpa [tsTokens, TsFrame.start] using hparse

end Munarium

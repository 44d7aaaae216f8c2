/-
# The chunk that is run

At Enter the line is appended to the chunk, byte by byte while the chunk buffer
has room, and a line that looks like `local x =` or `local x, y =` begins with
`global` there. Neither the end of the buffer nor what the lines before leave
open is looked at, so what runs is what was typed exactly if the chunk fits and
each rewritten line is a declaration at the top level (`typed_runs_iff`).
-/
import Rustrapper.Lua.Spelling

namespace Rustrapper.Repl

open Lua

def LINE_CAP : ℕ := 256

def CHUNK_CAP : ℕ := 512

/-! ### A line joins the chunk -/

/-- `b' '` or `b'\t'`. -/
def isSpace (b : UInt8) : Bool := b = 32 || b = 9

/-- `is_ident`: `is_ascii_alphanumeric` or `_`. -/
def isIdent (b : UInt8) : Bool := isNameByte b

/-- `is_local_var`. -/
def isLocalVar (line : List UInt8) : Bool :=
  let body := line.dropWhile isSpace
  7 ≤ line.length && (bytesOf "local ").isPrefixOf body &&
    match ((body.drop 6).dropWhile isIdent).dropWhile isSpace with
    | b :: _ => b = 61 || b = 44
    | [] => false

/-- Bytes are appended to `acc[..acc_len]` while it has room. -/
def pushAll (acc bs : List UInt8) : List UInt8 :=
  bs.foldl (fun acc b => if acc.length < CHUNK_CAP then acc ++ [b] else acc) acc

/-- The line is appended to the chunk at Enter. -/
def appendLine (acc line : List UInt8) : List UInt8 :=
  let trimmed := line.dropWhile isSpace
  let acc := pushAll acc (line.takeWhile isSpace)
  let acc := if isLocalVar line then pushAll acc (bytesOf "global ") else acc
  let acc := pushAll acc (if isLocalVar line then trimmed.drop 6 else trimmed)
  pushAll acc [10]

/-! ### The end of a chunk -/

/-- `trim`. -/
def trim (b : List UInt8) : List UInt8 := (b.dropWhile isSpace).rdropWhile isSpace

/-- `cd_cmd`: the chunk is a `cd` command. -/
def cdCmd (acc : List UInt8) : Bool :=
  let t := trim (acc.rdropWhile fun b => b = 10 || b = 13)
  t = bytesOf "cd" || (bytesOf "cd ").isPrefixOf t || (bytesOf "cd\t").isPrefixOf t

/-- The tokens of a text, one after the other up to its end; `none` at a token that is none. -/
def foldTokens {σ : Type} (f : σ → Tok → σ) : ℕ → List UInt8 → σ → Option σ
  | 0, _, _ => none
  | n + 1, src, s =>
    match nextToken src with
    | (.ok .eof, _) => some s
    | (.ok t, rest) => foldTokens f n rest (f s t)
    | (.error _, _) => none

/-- What `is_complete` counts. -/
structure Balance where
  depth : ℤ := 0
  delims : ℤ := 0
  last : Option Tok := none

/-- The body of the loop of `is_complete`. -/
def Balance.token (s : Balance) (t : Tok) : Balance :=
  match t with
  | .if_ | .while_ | .for_ | .function | .repeat_ => { s with depth := s.depth + 1, last := some t }
  | .end_ | .until_ => { s with depth := s.depth - 1, last := some t }
  | .lParen | .lBracket | .lBrace => { s with delims := s.delims + 1, last := some t }
  | .rParen | .rBracket | .rBrace => { s with delims := s.delims - 1, last := some t }
  | _ => { s with last := some t }

/-- The last tokens behind which `is_complete` waits for more. -/
def waitsBehind (t : Tok) : Bool :=
  t ∈ [.plus, .minus, .star, .slash, .percent, .equals, .comma, .dotDot, .semi, .and, .or, .not, .lt, .le, .gt, .ge,
    .eqEq, .neq]

/-- `is_complete`. -/
def isComplete (src : List UInt8) : Bool :=
  match foldTokens Balance.token (src.length + 1) src {} with
  | none => false
  | some s =>
    if s.depth > 0 ∨ s.delims > 0 then false
    else if s.depth < 0 ∨ s.delims < 0 then true
    else !(s.last.any waitsBehind)

/-- The chunk is run at this Enter. -/
def runs (acc : List UInt8) : Bool := cdCmd acc || isComplete acc

/-- The text that is run and recorded: the chunk without the newlines at its end. -/
def content (acc : List UInt8) : List UInt8 := acc.rdropWhile (· = 10)

/-! ### What is typed -/

/-- The line as it joins the chunk. -/
def rewriteLine (line : List UInt8) : List UInt8 :=
  if isLocalVar line then
    line.takeWhile isSpace ++ (bytesOf "global " ++ (line.dropWhile isSpace).drop 6)
  else line

/-- The chunk of the lines entered one after the other. -/
def chunk (lines : List (List UInt8)) : List UInt8 := lines.foldl appendLine []

/-- The text of the lines, with newlines between them. -/
def joined (lines : List (List UInt8)) : List UInt8 := [10].intercalate lines

/-- The lines make up a chunk that is run at the last of them, and at none before. -/
structure Entered (lines : List (List UInt8)) : Prop where
  short : ∀ l ∈ lines, l.length ≤ LINE_CAP
  first : lines.headD [] ≠ []
  waits : ∀ n < lines.length, n ≠ 0 → runs (chunk (lines.take n)) = false
  runs : runs (chunk lines) = true
  content : content (chunk lines) ≠ []

/-- What a text leaves open: blocks and brackets. -/
structure Nesting where
  blocks : ℤ := 0
  delims : ℤ := 0
deriving DecidableEq

def Nesting.token (s : Nesting) (t : Tok) : Nesting :=
  match t with
  | .if_ | .do_ | .function | .repeat_ => { s with blocks := s.blocks + 1 }
  | .end_ | .until_ => { s with blocks := s.blocks - 1 }
  | .lParen | .lBracket | .lBrace => { s with delims := s.delims + 1 }
  | .rParen | .rBracket | .rBrace => { s with delims := s.delims - 1 }
  | _ => s

/-- The lines leave no block and no bracket open. -/
def AtTopLevel (lines : List (List UInt8)) : Prop :=
  foldTokens Nesting.token ((joined lines).length + 1) (joined lines) {} = some {}

instance (lines : List (List UInt8)) : Decidable (AtTopLevel lines) := inferInstanceAs (Decidable (_ = _))

/-- The line is `local name = ...`. -/
def IsDeclaration (line : List UInt8) : Prop :=
  ∃ name rest, line.dropWhile isSpace = bytesOf "local " ++ name ++ rest ∧ IsName name ∧
    (rest.dropWhile isSpace).head? = some 61 ∧ (rest.dropWhile isSpace)[1]? ≠ some 61

/-- The text stands for the lines: line by line as typed, except that a
declaration at the top level may begin with `global`. -/
def Typed (lines : List (List UInt8)) (text : List UInt8) : Prop :=
  ∃ ls : List (List UInt8), text = joined ls ∧ ls.length = lines.length ∧
    ∀ i line, lines[i]? = some line → ls[i]? = some line ∨
      AtTopLevel (lines.take i) ∧ IsDeclaration line ∧ ls[i]? = some (rewriteLine line)

/-- The chunk has room for the lines, and only declarations at the top level are rewritten. -/
structure Kept (lines : List (List UInt8)) : Prop where
  fits : (joined (lines.map rewriteLine)).length ≤ CHUNK_CAP
  declarations : ∀ i line, lines[i]? = some line → isLocalVar line = true →
    AtTopLevel (lines.take i) ∧ IsDeclaration line
  ends : (joined (lines.map rewriteLine)).getLast? ≠ some 10

/-! ### The chunk is a beginning of the text -/

theorem pushAll_eq (acc bs : List UInt8) (h : acc.length ≤ CHUNK_CAP) :
    pushAll acc bs = (acc ++ bs).take CHUNK_CAP := by
  induction bs generalizing acc with
  | nil => rw [List.append_nil, List.take_of_length_le h]; rfl
  | cons b bs ih =>
    rw [pushAll, List.foldl_cons]
    by_cases hlt : acc.length < CHUNK_CAP
    · rw [if_pos hlt]
      have hnext := ih (acc ++ [b]) (by rw [List.length_append]; exact hlt)
      rw [pushAll] at hnext
      rw [hnext, List.append_assoc]
      rfl
    · rw [if_neg hlt]
      have heq : acc.length = CHUNK_CAP := Nat.le_antisymm h (Nat.not_lt.mp hlt)
      have hnext := ih acc h
      rw [pushAll] at hnext
      rw [hnext, List.take_append_of_le_length heq.ge, List.take_append_of_le_length heq.ge]

theorem take_take_append {α : Type} (n : ℕ) (as bs : List α) : (as.take n ++ bs).take n = (as ++ bs).take n := by
  rcases Nat.le_total as.length n with h | h
  · rw [List.take_of_length_le h]
  · rw [List.take_append_of_le_length h, List.take_append_of_le_length (by rw [List.length_take, Nat.min_eq_left h]),
      List.take_take, Nat.min_self]

theorem appendLine_eq (acc line : List UInt8) (h : acc.length ≤ CHUNK_CAP) :
    appendLine acc line = (acc ++ (rewriteLine line ++ [10])).take CHUNK_CAP := by
  rw [← pushAll_eq _ _ h]
  unfold appendLine rewriteLine
  cases isLocalVar line with
  | true => simp only [if_true, pushAll, List.foldl_append]
  | false =>
    simp only [Bool.false_eq_true, if_false, pushAll, ← List.foldl_append, List.takeWhile_append_dropWhile]

/-- **The chunk is as much of the rewritten lines as it has room for.** -/
theorem chunk_eq (lines : List (List UInt8)) :
    chunk lines = (lines.flatMap fun l => rewriteLine l ++ [10]).take CHUNK_CAP := by
  have hfrom : ∀ (ls : List (List UInt8)) (acc : List UInt8), acc.length ≤ CHUNK_CAP →
      ls.foldl appendLine acc = (acc ++ ls.flatMap fun l => rewriteLine l ++ [10]).take CHUNK_CAP := by
    intro ls
    induction ls with
    | nil =>
      intro acc h
      rw [List.flatMap_nil, List.append_nil, List.take_of_length_le h, List.foldl_nil]
    | cons l ls ih =>
      intro acc h
      rw [List.foldl_cons, appendLine_eq acc l h, ih _ (List.length_take_le _ _), take_take_append, List.flatMap_cons,
        List.append_assoc]
  exact hfrom lines [] (Nat.zero_le _)

theorem flatMap_newline {ls : List (List UInt8)} (h : ls ≠ []) :
    (ls.flatMap fun l => l ++ [10]) = joined ls ++ [10] := by
  induction ls with
  | nil => exact absurd rfl h
  | cons l ls ih =>
    rw [List.flatMap_cons]
    cases ls with
    | nil => simp [joined]
    | cons l' ls =>
      rw [ih (List.cons_ne_nil _ _), joined, joined, List.intercalate_cons_cons]
      simp

theorem newline_flatMap {ls : List (List UInt8)} (h : ls ≠ []) : (ls.flatMap fun l => 10 :: l) = 10 :: joined ls := by
  induction ls with
  | nil => exact absurd rfl h
  | cons l ls ih =>
    rw [List.flatMap_cons]
    cases ls with
    | nil => simp [joined]
    | cons l' ls =>
      rw [ih (List.cons_ne_nil _ _), joined, joined, List.intercalate_cons_cons]
      simp

/-! ### The text that is run -/

theorem content_isPrefix (acc : List UInt8) : content acc <+: acc := List.rdropWhile_prefix _ _

theorem content_getLast (acc : List UInt8) : (content acc).getLast? ≠ some 10 := by
  intro h
  have hne : content acc ≠ [] := by
    intro hnil
    rw [hnil] at h
    cases h
  rw [List.getLast?_eq_some_getLast hne] at h
  exact List.rdropWhile_last_not _ _ hne (decide_eq_true (Option.some.inj h))

/-- What is run is a beginning of the rewritten lines and a newline. -/
theorem content_chunk_isPrefix {lines : List (List UInt8)} (h : lines ≠ []) :
    content (chunk lines) <+: joined (lines.map rewriteLine) ++ [10] := by
  have hflat : (lines.flatMap fun l => rewriteLine l ++ [10]) = joined (lines.map rewriteLine) ++ [10] := by
    rw [← flatMap_newline (by simpa using h), List.flatMap_map]
  refine (content_isPrefix _).trans ?_
  rw [chunk_eq, hflat]
  exact List.take_prefix _ _

/-- All of a text that fits and does not end with a newline is run. -/
theorem content_take {text : List UInt8} (hfits : text.length ≤ CHUNK_CAP) (hends : text.getLast? ≠ some 10) :
    content ((text ++ [10]).take CHUNK_CAP) = text := by
  have hself : content text = text := by
    refine List.rdropWhile_eq_self_iff.mpr fun hne heq => hends ?_
    rw [List.getLast?_eq_some_getLast hne]
    exact congrArg some (of_decide_eq_true heq)
  rcases hfits.lt_or_eq with hlt | heq
  · rw [List.take_of_length_le (by rw [List.length_append]; exact hlt), content, List.rdropWhile_concat_pos _ _ _ rfl]
    exact hself
  · rw [List.take_append_of_le_length heq.ge, ← heq, List.take_length, hself]

/-- The parts of a line that is rewritten. -/
theorem isLocalVar_split {line : List UInt8} (h : isLocalVar line = true) :
    ∃ rest, line = line.takeWhile isSpace ++ (bytesOf "local " ++ rest) ∧
      rewriteLine line = line.takeWhile isSpace ++ (bytesOf "global " ++ rest) := by
  have hbody : bytesOf "local " <+: line.dropWhile isSpace := by
    unfold isLocalVar at h
    simp only [Bool.and_eq_true] at h
    exact List.isPrefixOf_iff_prefix.mp h.1.2
  obtain ⟨rest, hrest⟩ := hbody
  refine ⟨rest, ?_, ?_⟩
  · rw [hrest, List.takeWhile_append_dropWhile]
  · rw [rewriteLine, if_pos h, ← hrest]
    rfl

/-- A rewritten line and the line it was go different ways. -/
theorem rewriteLine_apart {line : List UInt8} (h : isLocalVar line = true) (more more' : List UInt8) :
    ¬ line ++ more <+: rewriteLine line ++ more' := by
  obtain ⟨rest, hline, hrewrite⟩ := isLocalVar_split h
  intro hpre
  rw [hrewrite] at hpre
  nth_rewrite 1 [hline] at hpre
  rw [List.append_assoc, List.append_assoc, List.append_assoc, List.prefix_append_right_inj] at hpre
  have hl : bytesOf "local " = [108, 111, 99, 97, 108, 32] := by decide
  have hg : bytesOf "global " = [103, 108, 111, 98, 97, 108, 32] := by decide
  simp [hl, hg] at hpre

theorem rewriteLine_of_not {line : List UInt8} (h : isLocalVar line = false) : rewriteLine line = line := by
  rw [rewriteLine, h]
  rfl

/-- Each line stands for a typed one: it is that line, or that line rewritten. -/
def Stands (lines ls : List (List UInt8)) : Prop :=
  List.Forall₂ (fun line l => l = line ∨ l = rewriteLine line) lines ls

/-- Lines that stand for the typed ones and begin as the rewritten ones do are the rewritten ones. -/
theorem Stands.eq {lines ls : List (List UInt8)} (h : Stands lines ls) {more : List UInt8}
    (hpre : (ls.flatMap fun l => 10 :: l) <+: ((lines.map rewriteLine).flatMap fun l => 10 :: l) ++ more) :
    ls = lines.map rewriteLine := by
  induction h with
  | nil => rfl
  | @cons line l lines ls hl hrest ih =>
    rw [List.map_cons, List.flatMap_cons, List.flatMap_cons] at hpre
    have heq : l = rewriteLine line := by
      rcases hl with rfl | hl
      · cases hvar : isLocalVar l with
        | false => rw [rewriteLine_of_not hvar]
        | true =>
          rw [List.append_assoc, List.cons_append, List.cons_append, List.cons_prefix_cons] at hpre
          exact absurd hpre.2 (rewriteLine_apart hvar _ _)
      · exact hl
    rw [heq, List.append_assoc, List.prefix_append_right_inj] at hpre
    rw [heq, ih hpre, List.map_cons]

theorem Typed.stands {lines ls : List (List UInt8)} (hlen : ls.length = lines.length)
    (h : ∀ i line, lines[i]? = some line → ls[i]? = some line ∨
      AtTopLevel (lines.take i) ∧ IsDeclaration line ∧ ls[i]? = some (rewriteLine line)) : Stands lines ls := by
  refine List.forall₂_iff_get.mpr ⟨hlen.symm, fun i h1 h2 => ?_⟩
  have hl : ls[i]? = some (ls.get ⟨i, h2⟩) := List.getElem?_eq_getElem h2
  rcases h i _ (List.getElem?_eq_getElem h1) with hsame | ⟨-, -, hnew⟩
  · exact .inl (Option.some.inj (hl.symm.trans hsame))
  · exact .inr (Option.some.inj (hl.symm.trans hnew))

/-- The text that is run stands for the typed lines only as the rewritten lines. -/
theorem Typed.kept {lines : List (List UInt8)} (h : Typed lines (content (chunk lines))) : Kept lines := by
  obtain ⟨ls, htext, hlen, hvar⟩ := h
  have heq : ls = lines.map rewriteLine := by
    by_cases hne : lines = []
    · subst hne
      exact List.length_eq_zero_iff.mp hlen
    · have hne' : ls ≠ [] := by
        rw [← List.length_pos_iff, hlen, List.length_pos_iff]
        exact hne
      have hpre : (ls.flatMap fun l => 10 :: l) <+: ((lines.map rewriteLine).flatMap fun l => 10 :: l) ++ [10] := by
        rw [newline_flatMap hne', newline_flatMap (by simpa using hne), List.cons_append, List.prefix_cons_inj,
          ← htext]
        exact content_chunk_isPrefix hne
      exact (Typed.stands hlen hvar).eq hpre
  rw [heq] at htext
  refine ⟨?_, fun i line hline hlocal => ?_, htext ▸ content_getLast _⟩
  · rw [← htext]
    refine (content_isPrefix _).length_le.trans ?_
    rw [chunk_eq]
    exact List.length_take_le _ _
  · rcases hvar i line hline with hsame | ⟨htop, hdecl, -⟩
    · rw [heq, List.getElem?_map, hline] at hsame
      have happart := rewriteLine_apart hlocal [] []
      rw [Option.some.inj hsame] at happart
      exact absurd List.prefix_rfl happart
    · exact ⟨htop, hdecl⟩

theorem Kept.typed {lines : List (List UInt8)} (h : Kept lines) : Typed lines (content (chunk lines)) := by
  refine ⟨lines.map rewriteLine, ?_, List.length_map _, fun i line hline => ?_⟩
  · rw [chunk_eq]
    by_cases hne : lines = []
    · subst hne
      rfl
    · rw [← List.flatMap_map rewriteLine fun l => l ++ [10], flatMap_newline (by simpa using hne),
        content_take h.fits h.ends]
  · rw [List.getElem?_map, hline]
    cases hlocal : isLocalVar line with
    | false => exact .inl (by rw [Option.map_some, rewriteLine_of_not hlocal])
    | true =>
      obtain ⟨htop, hdecl⟩ := h.declarations i line hline hlocal
      exact .inr ⟨htop, hdecl, rfl⟩

/-- **What is typed is what runs** exactly if the chunk has room for it and each
rewritten line is a declaration at the top level. -/
theorem typed_runs_iff (lines : List (List UInt8)) : Typed lines (content (chunk lines)) ↔ Kept lines :=
  ⟨Typed.kept, Kept.typed⟩

/-- A local of a function body. -/
def nestedLocal : List (List UInt8) :=
  [bytesOf "function f()", bytesOf "local x = 1", bytesOf "return x", bytesOf "end"]

/-- Two lines of 256 bytes, the last of which is a digit too much. -/
def overlong : List (List UInt8) :=
  [bytesOf "x = 1 +" ++ List.replicate 249 32, List.replicate 254 32 ++ bytesOf "12"]

/-- The local of a function body runs as a global, and a number at the end of a long chunk without its last digit. -/
theorem rewritten_and_cut : (Entered nestedLocal ∧ ¬ Typed nestedLocal (content (chunk nestedLocal))) ∧
    Entered overlong ∧ ¬ Typed overlong (content (chunk overlong)) := by
  refine ⟨⟨⟨by decide +kernel, by decide +kernel, ?_, by decide +kernel, by decide +kernel⟩, fun h => ?_⟩,
    ⟨by decide +kernel, by decide +kernel, ?_, ?_, ?_⟩, fun h => ?_⟩
  · decide +kernel
  · have hdecl := h.kept.declarations 1 (bytesOf "local x = 1") rfl (by decide +kernel)
    exact absurd hdecl.1 (by decide +kernel)
  · simp only [chunk_eq]
    decide +kernel
  · rw [chunk_eq]
    decide +kernel
  · rw [chunk_eq]
    decide +kernel
  · exact absurd h.kept.fits (by decide +kernel)

end Rustrapper.Repl

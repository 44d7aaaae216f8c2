/-
# Expressions, written and parsed

`Expr.toks` writes an expression down as tokens, with parentheses exactly where
the operators' levels ask for them: `or` < `and` < comparisons < `..` < `+ -` <
`* / %` < unary < suffixes, all binary operators left-associative but `..`.
`parse_expr` reads the tree back (`expr_round_trip`).

The proof is an induction over the tree. Two facts are carried along for every
level: the parser of the level yields the tree when a token follows that the
level stops at (`Yields`), and where the level is a loop, parsing the tree is
the loop going on from it (`Continues`), so that an operator may follow. The
parser is known by `PState.At`: the strings it may meet are interned, no local
is declared, so many nodes are allocated, and these are the next tokens.
-/
import Rustrapper.Effect.Ensures
import Rustrapper.Lua.Arena
import Rustrapper.Lua.Parse
import Rustrapper.Lua.Spelling

namespace Rustrapper
namespace Lua

open Effect

/-! ### Writing -/

/-- The level of a binary operator. -/
def Op.level : Op → ℕ
  | .or => 0
  | .and => 1
  | .eq | .ne | .lt | .le | .gt | .ge => 2
  | .concat => 3
  | .add | .sub => 4
  | .mul | .div | .mod => 5
  | .not | .neg => 6

/-- The level of the operand before an operator. -/
def Op.before : Op → ℕ
  | .concat => 4
  | op => op.level

/-- The level of the operand behind an operator. -/
def Op.behind : Op → ℕ
  | .concat => 3
  | op => op.level + 1

/-- The token of an operator. -/
def Op.tok : Op → Tok
  | .add => .plus
  | .sub => .minus
  | .mul => .star
  | .div => .slash
  | .mod => .percent
  | .eq => .eqEq
  | .ne => .neq
  | .lt => .lt
  | .le => .le
  | .gt => .gt
  | .ge => .ge
  | .concat => .dotDot
  | .and => .and
  | .or => .or
  | .not => .not
  | .neg => .minus

/-- The level of an expression: 7 is that of the suffixes. -/
def Expr.level : Expr → ℕ
  | .bin op _ _ => op.level
  | .un .. => 6
  | _ => 7

/-- Parentheses, if the level of `e` asks for them where level `l` is due. -/
def Expr.within (l : ℕ) (e : Expr) (ts : List Tok) : List Tok :=
  if e.level < l then .lParen :: (ts ++ [.rParen]) else ts

/-- The tokens of an index: `.name` for a string that is a name. -/
def Expr.keyToks (h : Heap) (ts : List Tok) : Expr → List Tok
  | .str r =>
    if IsName (h.strBytes r) then [.dot, .name (h.strBytes r)] else .lBracket :: (ts ++ [.rBracket])
  | _ => .lBracket :: (ts ++ [.rBracket])

mutual

/-- The tokens of an expression, with the names and strings of `h`. -/
def Expr.toks (h : Heap) : Expr → List Tok
  | .nil => [.nil]
  | .true => [.true_]
  | .false => [.false_]
  | .num n => [.num n]
  | .float f => [.float f]
  | .str r => [.str (h.strBytes r)]
  | .var r => [.name (h.strBytes r)]
  | .bin op l r => l.within op.before (l.toks h) ++ op.tok :: r.within op.behind (r.toks h)
  | .un op x => op.tok :: x.within 6 (x.toks h)
  | .index b k => b.within 7 (b.toks h) ++ k.keyToks h (k.toks h)
  | .call f args => f.within 7 (f.toks h) ++ .lParen :: (Expr.argToks h args ++ [.rParen])
  | .funcLit _ => []
  | .tableLit _ => []

/-- The tokens of an argument list. -/
def Expr.argToks (h : Heap) : List Expr → List Tok
  | [] => []
  | [a] => a.toks h
  | a :: as => a.toks h ++ .comma :: Expr.argToks h as

end

mutual

/-- The nodes the parser allocates for an expression. -/
def Expr.nodes : Expr → ℕ
  | .bin _ l r => l.nodes + r.nodes + 1
  | .un _ x => x.nodes + 1
  | .index b k => b.nodes + k.nodes + 1
  | .call f args => f.nodes + Expr.argNodes args + 1
  | _ => 1

/-- The nodes of an argument list. -/
def Expr.argNodes : List Expr → ℕ
  | [] => 0
  | a :: as => a.nodes + 1 + Expr.argNodes as

end

/-- The reference is that of its bytes in the heap's table of strings. -/
def Heap.Interned (h : Heap) (r : StrRef) : Prop := h.intern (h.strBytes r) = .ok (r, h)

/-- The expression can be written down: it is made of literals, names,
indexing, calls, the unary operators and the binary ones, and the lexer has a
text for its leaves. -/
inductive Expr.Writable (h : Heap) (spell : Float → FloatLit) : Expr → Prop where
  | nil : Writable h spell .nil
  | true : Writable h spell .true
  | false : Writable h spell .false
  | num {n : Int64} (hn : 0 ≤ n.toInt) : Writable h spell (.num n)
  | float {f : Float} (hok : (spell f).Ok) (hf : (spell f).value = f) : Writable h spell (.float f)
  | str {r : StrRef} (hr : h.Interned r) (hlen : (h.strBytes r).length ≤ 256) : Writable h spell (.str r)
  | var {r : StrRef} (hr : h.Interned r) (hname : IsName (h.strBytes r)) : Writable h spell (.var r)
  | bin {op : Op} {l r : Expr} (hop : op.level < 6) (hl : Writable h spell l)
    (hr : Writable h spell r) : Writable h spell (.bin op l r)
  | un {op : Op} {x : Expr} (hop : op.level = 6) (hx : Writable h spell x) :
    Writable h spell (.un op x)
  | index {b k : Expr} (hb : Writable h spell b) (hk : Writable h spell k) :
    Writable h spell (.index b k)
  | call {f : Expr} {args : List Expr} (hf : Writable h spell f)
    (hargs : ∀ a ∈ args, Writable h spell a) : Writable h spell (.call f args)

/-! ### The parser's state -/

/-- The parser works on the strings of `h`, no local is declared, `m` nodes are
allocated, and the tokens `ts` come next, the first of them the current one. -/
structure PState.At (h : Heap) (m : ℕ) (ts : List Tok) (s : PState) : Prop where
  heap : s.heap = h
  locals : s.locals = []
  nodes : s.chunks.nodeUsed = m
  cur : ts.head? = some s.cur
  rest : Upcoming s.rest ts.tail

section Steps
variable {h : Heap} {m : ℕ} {t : Tok} {ts : List Tok} {s : PState}

theorem run_cur (hs : s.At h m (t :: ts)) {α : Type} (f : Tok → ParseM α) : (cur >>= f) s = f t s := by
  have ht : t = s.cur := Option.some.inj hs.cur
  rw [ht]
  rfl

theorem run_advance (hs : s.At h m (t :: ts)) (hne : ts ≠ []) :
    ∃ s', advance s = .ok () s' ∧ s'.At h m ts := by
  obtain ⟨t', ts', rfl⟩ := List.exists_cons_of_ne_nil hne
  obtain ⟨rest, htok, hrest⟩ := hs.rest
  refine ⟨{ s with cur := t', rest := rest }, ?_, ⟨hs.heap, hs.locals, hs.nodes, rfl, hrest⟩⟩
  unfold advance
  refine (run_get _).trans ?_
  rw [htok]
  rfl

theorem run_expect (hs : s.At h m (t :: ts)) (hne : ts ≠ []) (msg : String) :
    ∃ s', expect t msg s = .ok () s' ∧ s'.At h m ts := by
  obtain ⟨s', hadv, hs'⟩ := run_advance hs hne
  refine ⟨s', ?_, hs'⟩
  rw [expect, run_cur hs, if_pos rfl, hadv]

theorem run_alloc (hs : s.At h m ts) (hm : m + 1 ≤ MAX_NODES) :
    ∃ s', alloc s = .ok m s' ∧ s'.At h (m + 1) ts := by
  have hroom : ¬s.chunks.nodeUsed ≥ MAX_NODES := by rw [hs.nodes]; omega
  refine ⟨{ s with chunks := { s.chunks with nodeUsed := s.chunks.nodeUsed + 1 } }, ?_, ?_⟩
  · change (if s.chunks.nodeUsed ≥ MAX_NODES then perr "script too complex"
      else do
        set { s with chunks := { s.chunks with nodeUsed := s.chunks.nodeUsed + 1 } }
        pure s.chunks.nodeUsed : ParseM ℕ) s = _
    rw [if_neg hroom, ← hs.nodes]
    rfl
  · exact ⟨hs.heap, hs.locals, by rw [hs.nodes], hs.cur, hs.rest⟩

theorem run_allocE (hs : s.At h m ts) (hm : m + 1 ≤ MAX_NODES) (e : Expr) :
    ∃ s', allocE e s = .ok e s' ∧ s'.At h (m + 1) ts := by
  obtain ⟨s', hal, hs'⟩ := run_alloc hs hm
  exact ⟨s', (run_bind hal _).trans rfl, hs'⟩

theorem run_internP (hs : s.At h m ts) {r : StrRef} (hr : h.Interned r) :
    internP (h.strBytes r) s = .ok r s := by
  unfold internP
  refine (run_get _).trans ?_
  rw [hs.heap, hr, ← hs.heap]
  rfl

theorem run_resolveName (hs : s.At h m ts) (r : StrRef) : resolveName r s = .ok () s := by
  unfold resolveName
  refine (run_get _).trans ?_
  rw [hs.locals]
  rfl

end Steps

/-! ### The levels of the parser -/

/-- How tightly a token binds as an operator or a suffix: the parser of level
`l` stops at a token of `tight` at most `l`. -/
def Tok.tight : Tok → ℕ
  | .or => 1
  | .and => 2
  | .eqEq | .neq | .lt | .le | .gt | .ge => 3
  | .dotDot => 4
  | .plus | .minus => 5
  | .star | .slash | .percent => 6
  | .dot | .colon | .lBracket | .lParen => 8
  | _ => 0

/-- The parser of a level. -/
def levelParser (R : PRec) : ℕ → ParseM Expr
  | 0 => parseOr R
  | 1 => parseAnd R
  | 2 => parseCmp R
  | 3 => parseConcat R
  | 4 => parseAddsub R
  | 5 => parseMuldiv R
  | 6 => R.unary
  | _ => parsePrimary R

/-- The operators of a level that is a loop. -/
def levelOp : ℕ → Tok → Option Op
  | 0 => orOp
  | 1 => andOp
  | 2 => cmpOp
  | 4 => addsubOp
  | 5 => muldivOp
  | _ => fun _ => none

/-- The levels of the left-associative operators. -/
def IsLoop (l : ℕ) : Prop := l = 0 ∨ l = 1 ∨ l = 2 ∨ l = 4 ∨ l = 5

theorem levelParser_loop {l : ℕ} (hl : IsLoop l) (R : PRec) : levelParser R l =
    levelParser R (l + 1) >>= leftAssoc (levelOp l) (levelParser R (l + 1)) R.fuel := by
  rcases hl with rfl | rfl | rfl | rfl | rfl <;> rfl

theorem tight_tok {op : Op} (h : op.level < 6) : op.tok.tight = op.level + 1 := by
  cases op <;> first | rfl | simp [Op.level] at h

theorem levelOp_tok {op : Op} (h : IsLoop op.level) : levelOp op.level op.tok = some op := by
  cases op <;> first | rfl | simp [IsLoop, Op.level] at h

theorem levelOp_none {l : ℕ} {t : Tok} (h : t.tight ≤ l) : levelOp l t = none := by
  unfold levelOp
  split <;> cases t <;> first | rfl | simp [Tok.tight] at h

variable {h : Heap} {l : ℕ} {e : Expr} {ts : List Tok}

/-- With enough fuel the parser of level `l` yields `e` from the tokens `ts`,
when it stops at the token behind them. -/
def Parses (h : Heap) (l : ℕ) (e : Expr) (ts : List Tok) : Prop :=
  ∃ N, ∀ n, N ≤ n → ∀ (s : PState) (m : ℕ) (t : Tok) (more : List Tok),
    s.At h m (ts ++ t :: more) → m + e.nodes ≤ MAX_NODES → t.tight ≤ l →
    ∃ s', levelParser (parserAt n) l s = .ok e s' ∧ s'.At h (m + e.nodes) (t :: more)

/-- With enough fuel the parser of level `l` goes on with its loop from `e`
behind the tokens `ts`; an operator of the level may follow them. -/
def Continues (h : Heap) (l : ℕ) (e : Expr) (ts : List Tok) : Prop :=
  ∃ N c, ∀ n, N ≤ n → ∀ (s : PState) (m : ℕ) (t : Tok) (more : List Tok),
    s.At h m (ts ++ t :: more) → m + e.nodes ≤ MAX_NODES → t.tight ≤ l + 1 →
    ∃ s', levelParser (parserAt n) l s =
        leftAssoc (levelOp l) (levelParser (parserAt n) (l + 1)) (n - c) e s' ∧
      s'.At h (m + e.nodes) (t :: more)

/-- With enough fuel `parse_primary` goes on with the suffixes of `e` behind
the tokens `ts`. -/
def Suffixes (h : Heap) (e : Expr) (ts : List Tok) : Prop :=
  ∃ N c, ∀ n, N ≤ n → ∀ (s : PState) (m : ℕ) (t : Tok) (more : List Tok),
    s.At h m (ts ++ t :: more) → m + e.nodes ≤ MAX_NODES →
    ∃ s', parsePrimary (parserAt n) s = suffixLoop (parserAt n) (n - c) e s' ∧
      s'.At h (m + e.nodes) (t :: more)

theorem leftAssoc_stop {s : PState} {m k : ℕ} {t : Tok} {more : List Tok} (hs : s.At h m (t :: more))
    {opOf : Tok → Option Op} (ht : opOf t = none) (sub : ParseM Expr) (e : Expr) :
    leftAssoc opOf sub (k + 1) e s = .ok e s := by
  rw [leftAssoc, run_cur hs, ht]
  rfl

/-- A loop that may go on stops at a token of a lower level. -/
theorem Continues.parses (hc : Continues h l e ts) : Parses h l e ts := by
  obtain ⟨N, c, hN⟩ := hc
  refine ⟨max N (c + 1), fun n hn s m t more hs hm ht => ?_⟩
  obtain ⟨s', hrun, hs'⟩ := hN n (by omega) s m t more hs hm (by omega)
  obtain ⟨k, hk⟩ : ∃ k, n - c = k + 1 := ⟨n - c - 1, by omega⟩
  refine ⟨s', ?_, hs'⟩
  rw [hrun, hk]
  exact leftAssoc_stop hs' (levelOp_none ht) _ _

/-- The first operand of a loop. -/
theorem Parses.continues (hl : IsLoop l) (hp : Parses h (l + 1) e ts) : Continues h l e ts := by
  obtain ⟨N, hN⟩ := hp
  refine ⟨N, 0, fun n hn s m t more hs hm ht => ?_⟩
  obtain ⟨s', hrun, hs'⟩ := hN n hn s m t more hs hm ht
  refine ⟨s', ?_, hs'⟩
  rw [levelParser_loop hl, run_bind hrun, parserAt_fuel]
  rfl

theorem Suffixes.parses (hc : Suffixes h e ts) : Parses h 7 e ts := by
  obtain ⟨N, c, hN⟩ := hc
  refine ⟨max N (c + 1), fun n hn s m t more hs hm ht => ?_⟩
  obtain ⟨s', hrun, hs'⟩ := hN n (by omega) s m t more hs hm
  obtain ⟨k, hk⟩ : ∃ k, n - c = k + 1 := ⟨n - c - 1, by omega⟩
  refine ⟨s', ?_, hs'⟩
  change parsePrimary (parserAt n) s = _
  rw [hrun, hk, suffixLoop, run_cur hs']
  cases t <;> first | rfl | simp [Tok.tight] at ht

/-- An operand without a unary operator. -/
theorem Parses.unary {t₀ : Tok} {ts₀ : List Tok} (hts : ts = t₀ :: ts₀) (hnot : t₀ ≠ .not)
    (hminus : t₀ ≠ .minus) (hp : Parses h 7 e ts) : Parses h 6 e ts := by
  obtain ⟨N, hN⟩ := hp
  refine ⟨N + 1, fun n hn s m t more hs hm ht => ?_⟩
  obtain ⟨k, rfl⟩ : ∃ k, n = k + 1 := ⟨n - 1, by omega⟩
  obtain ⟨s', hrun, hs'⟩ := hN k (by omega) s m t more hs hm (by omega)
  refine ⟨s', ?_, hs'⟩
  change parseUnary (parserAt k) s = _
  have hs₀ : s.At h m (t₀ :: (ts₀ ++ t :: more)) := by rw [hts] at hs; exact hs
  rw [parseUnary, run_cur hs₀]
  split
  · exact absurd rfl hnot
  · exact absurd rfl hminus
  · exact hrun

/-- An operand without a `..` behind it. -/
theorem Parses.concat (hp : Parses h 4 e ts) : Parses h 3 e ts := by
  obtain ⟨N, hN⟩ := hp
  refine ⟨N, fun n hn s m t more hs hm ht => ?_⟩
  obtain ⟨s', hrun, hs'⟩ := hN n hn s m t more hs hm (by omega)
  refine ⟨s', ?_, hs'⟩
  have hne : t ≠ .dotDot := by
    rintro rfl
    simp [Tok.tight] at ht
  have hleft : parseAddsub (parserAt n) s = .ok e s' := hrun
  change parseConcat (parserAt n) s = _
  rw [parseConcat, run_bind hleft, run_cur hs', if_neg hne]
  rfl

/-- What a level parses the lower ones parse. -/
theorem Parses.down : ∀ {k : ℕ}, k ≤ 6 → Parses h k e ts → ∀ l ≤ k, Parses h l e ts
  | 0, _, hp, l, hl => by rwa [Nat.le_zero.mp hl]
  | k + 1, hk, hp, l, hl => by
    rcases Nat.lt_or_ge k l with hlt | hle
    · rwa [show l = k + 1 by omega]
    by_cases h3 : k = 3
    · subst h3
      exact hp.concat.down (by omega) l hle
    · have hloop : IsLoop k := by unfold IsLoop; omega
      exact (hp.continues hloop).parses.down (by omega) l hle

/-! ### First tokens -/

theorem level_le (e : Expr) : e.level ≤ 7 := by
  unfold Expr.level
  split
  · rename_i op _ _
    cases op <;> decide
  · decide
  · exact le_rfl

/-- No expression starts with a `)`, and none of the last level with a unary
operator. -/
def Starts (l : ℕ) (ts : List Tok) : Prop :=
  ∃ t ts', ts = t :: ts' ∧ t ≠ .rParen ∧ (l = 7 → t ≠ .not ∧ t ≠ .minus)

theorem Starts.append {us : List Tok} (hs : Starts l ts) : Starts l (ts ++ us) := by
  obtain ⟨t, ts', rfl, ht⟩ := hs
  exact ⟨t, ts' ++ us, rfl, ht⟩

theorem starts_token {t : Tok} (h : (t ≠ .rParen ∧ t ≠ .not ∧ t ≠ .minus)) : Starts l (t :: ts) :=
  ⟨t, ts, rfl, h.1, fun _ => h.2⟩

theorem Starts.within (hs : Starts e.level ts) (l : ℕ) : Starts l (e.within l ts) := by
  unfold Expr.within
  split_ifs with hl
  · exact starts_token ⟨by simp, by simp, by simp⟩
  · obtain ⟨t, ts', rfl, ht, hun⟩ := hs
    have hle := level_le e
    exact ⟨t, ts', rfl, ht, fun h7 => hun (by omega)⟩

theorem starts_toks {spell : Float → FloatLit} (hw : e.Writable h spell) : Starts e.level (e.toks h) := by
  induction hw with
  | nil => exact starts_token (by simp)
  | true => exact starts_token (by simp)
  | false => exact starts_token (by simp)
  | num => exact starts_token (by simp)
  | float => exact starts_token (by simp)
  | str => exact starts_token (by simp)
  | var => exact starts_token (by simp)
  | @bin op l r hop hl hr ihl ihr =>
    obtain ⟨t, ts', hts, ht, -⟩ := ihl.within op.before
    refine ⟨t, ts' ++ op.tok :: r.within op.behind (r.toks h), ?_, ht, fun h7 => ?_⟩
    · rw [Expr.toks, hts]
      rfl
    · have h7' : op.level = 7 := h7
      omega
  | @un op x hop hx ihx =>
    refine ⟨op.tok, x.within 6 (x.toks h), by rw [Expr.toks], ?_, fun h7 => ?_⟩
    · cases op <;> simp [Op.tok]
    · have h7' : 6 = 7 := h7
      cases h7'
  | index hb hk ihb ihk =>
    rw [Expr.toks]
    exact (ihb.within 7).append
  | call hf hargs ihf ihargs =>
    rw [Expr.toks]
    exact (ihf.within 7).append

/-! ### Putting the levels together -/

/-- With enough fuel the parser reads the tree back at every level. -/
structure Readable (h : Heap) (e : Expr) : Prop where
  parses : ∀ l ≤ 7, Parses h l e (e.within l (e.toks h))
  continues : ∀ l, IsLoop l → Continues h l e (e.within l (e.toks h))
  suffixes : Suffixes h e (e.within 7 (e.toks h))

/-- An atom and the loop of its suffixes. -/
theorem suffixes_of_atom {N : ℕ} (hN : ∀ n, N ≤ n → ∀ (s : PState) (m : ℕ) (t : Tok) (more : List Tok),
    s.At h m (ts ++ t :: more) → m + e.nodes ≤ MAX_NODES →
    ∃ s', parseAtom (parserAt n) s = .ok e s' ∧ s'.At h (m + e.nodes) (t :: more)) :
    Suffixes h e ts := by
  refine ⟨N, 0, fun n hn s m t more hs hm => ?_⟩
  obtain ⟨s', hrun, hs'⟩ := hN n hn s m t more hs hm
  refine ⟨s', ?_, hs'⟩
  rw [parsePrimary, run_bind hrun, parserAt_fuel]
  rfl

/-- Parentheses. -/
theorem Parses.parens (hp : Parses h 0 e ts) : Suffixes h e (.lParen :: (ts ++ [.rParen])) := by
  obtain ⟨N, hN⟩ := hp
  refine suffixes_of_atom (N := N + 1) fun n hn s m t more hs hm => ?_
  obtain ⟨k, rfl⟩ : ∃ k, n = k + 1 := ⟨n - 1, by omega⟩
  rw [List.cons_append, List.append_assoc] at hs
  obtain ⟨s1, hadv, hs1⟩ := run_advance hs (by simp)
  obtain ⟨s2, hexpr, hs2⟩ := hN k (by omega) s1 m .rParen (t :: more) hs1 hm (Nat.zero_le _)
  obtain ⟨s3, hclose, hs3⟩ := run_expect hs2 (by simp) "expected ')'"
  refine ⟨s3, ?_, hs3⟩
  have hexpr' : (parserAt (k + 1)).expr s1 = .ok e s2 := hexpr
  rw [parseAtom, run_cur hs]
  change (do advance; let e ← (parserAt (k + 1)).expr; expect .rParen "expected ')'"; pure e) s = _
  rw [run_bind hadv, run_bind hexpr', run_bind hclose]
  rfl

/-- What is parsed at its own level is parsed at every level. -/
theorem readable_of (hstart : Starts e.level (e.toks h))
    (hloop : IsLoop e.level → Continues h e.level e (e.toks h))
    (hsuffix : e.level = 7 → Suffixes h e (e.toks h))
    (hself : e.level = 3 ∨ e.level = 6 → Parses h e.level e (e.toks h)) : Readable h e := by
  have hle := level_le e
  have hlow : ∀ l ≤ e.level, Parses h l e (e.toks h) := by
    rcases Nat.lt_or_ge e.level 7 with hlt | hge
    · refine Parses.down (by omega) ?_
      by_cases hl : IsLoop e.level
      · exact (hloop hl).parses
      · exact hself (by unfold IsLoop at hl; omega)
    · have h7 : e.level = 7 := by omega
      obtain ⟨t, ts', hts, -, hun⟩ := hstart
      have hprim := (hsuffix h7).parses
      have hunary := hprim.unary hts (hun h7).1 (hun h7).2
      intro l hl
      rcases Nat.lt_or_ge 6 l with hlt | hle'
      · rwa [show l = 7 by omega]
      · exact hunary.down le_rfl l hle'
  have hparens := (hlow 0 (Nat.zero_le _)).parens
  have hhigh : ∀ l ≤ 7, Parses h l e (.lParen :: (e.toks h ++ [.rParen])) := by
    have hunary := hparens.parses.unary rfl (by simp) (by simp)
    intro l hl
    rcases Nat.lt_or_ge 6 l with hlt | hle'
    · rw [show l = 7 by omega]
      exact hparens.parses
    · exact hunary.down le_rfl l hle'
  have hparses : ∀ l ≤ 7, Parses h l e (e.within l (e.toks h)) := by
    intro l hl
    unfold Expr.within
    split_ifs with hlt
    · exact hhigh l hl
    · exact hlow l (by omega)
  refine ⟨hparses, fun l hl => ?_, ?_⟩
  · by_cases heq : l = e.level
    · subst heq
      rw [Expr.within, if_neg (lt_irrefl _)]
      exact hloop hl
    · have hsame : e.within l (e.toks h) = e.within (l + 1) (e.toks h) := by
        unfold Expr.within
        by_cases hlt : e.level < l
        · rw [if_pos hlt, if_pos (by omega)]
        · rw [if_neg hlt, if_neg (by omega)]
      rw [hsame]
      have hl6 : l + 1 ≤ 7 := by unfold IsLoop at hl; omega
      exact (hparses (l + 1) hl6).continues hl
  · unfold Expr.within
    split_ifs with hlt
    · exact hparens
    · exact hsuffix (by omega)

/-! ### One constructor at a time -/

/-- A literal. -/
theorem suffixes_literal {t₀ : Tok} (hnodes : e.nodes = 1)
    (hatom : ∀ R (s : PState) m ts, s.At h m (t₀ :: ts) →
      parseAtom R s = (do advance; allocE e : ParseM Expr) s) : Suffixes h e [t₀] := by
  refine suffixes_of_atom (N := 0) fun n _ s m t more hs hm => ?_
  rw [hnodes] at hm ⊢
  obtain ⟨s1, hadv, hs1⟩ := run_advance hs (by simp)
  obtain ⟨s2, hal, hs2⟩ := run_allocE hs1 hm e
  refine ⟨s2, ?_, hs2⟩
  rw [hatom _ s m _ hs, run_bind hadv, hal]

theorem suffixes_str {r : StrRef} (hr : h.Interned r) : Suffixes h (.str r) [.str (h.strBytes r)] := by
  refine suffixes_literal rfl fun R s m ts hs => ?_
  rw [parseAtom, run_cur hs]
  exact run_bind (run_internP hs hr) _

theorem suffixes_var {r : StrRef} (hr : h.Interned r) : Suffixes h (.var r) [.name (h.strBytes r)] := by
  refine suffixes_of_atom (N := 0) fun n _ s m t more hs hm => ?_
  obtain ⟨s1, hadv, hs1⟩ := run_advance hs (by simp)
  obtain ⟨s2, hal, hs2⟩ := run_allocE hs1 hm (.var r)
  refine ⟨s2, ?_, hs2⟩
  rw [parseAtom, run_cur hs]
  refine (run_bind (run_internP hs hr) _).trans ?_
  rw [run_bind hadv, run_bind (run_resolveName hs1 r), hal]

/-- One more operand of a loop. -/
theorem continues_bin {op : Op} {l r : Expr} (hop : IsLoop op.level) {ls rs : List Tok}
    (hl : Continues h op.level l ls) (hr : Parses h (op.level + 1) r rs) :
    Continues h op.level (.bin op l r) (ls ++ op.tok :: rs) := by
  obtain ⟨Nl, c, hNl⟩ := hl
  obtain ⟨Nr, hNr⟩ := hr
  have htight : op.tok.tight = op.level + 1 := tight_tok (by unfold IsLoop at hop; omega)
  refine ⟨max (max Nl Nr) (c + 1), c + 1, fun n hn s m t more hs hm ht => ?_⟩
  rw [Expr.nodes] at hm ⊢
  rw [List.append_assoc, List.cons_append] at hs
  obtain ⟨s1, hleft, hs1⟩ := hNl n (by omega) s m op.tok (rs ++ t :: more) hs (by omega) htight.le
  obtain ⟨s2, hadv, hs2⟩ := run_advance hs1 (by simp)
  obtain ⟨s3, hright, hs3⟩ := hNr n (by omega) s2 _ t more hs2 (by omega) ht
  obtain ⟨s4, hal, hs4⟩ := run_allocE hs3 (by omega) (.bin op l r)
  refine ⟨s4, ?_, by rwa [← Nat.add_assoc, ← Nat.add_assoc]⟩
  have hstep : n - c = n - (c + 1) + 1 := by omega
  rw [hleft, hstep, leftAssoc, run_cur hs1, levelOp_tok hop]
  refine (run_bind hadv _).trans ?_
  rw [run_bind hright, run_bind hal]

/-- The right operand of `..` is parsed by the level itself. -/
theorem parses_concat {l r : Expr} {ls rs : List Tok} (hl : Parses h 4 l ls) (hr : Parses h 3 r rs) :
    Parses h 3 (.bin .concat l r) (ls ++ .dotDot :: rs) := by
  obtain ⟨Nl, hNl⟩ := hl
  obtain ⟨Nr, hNr⟩ := hr
  refine ⟨max Nl (Nr + 1), fun n hn s m t more hs hm ht => ?_⟩
  obtain ⟨k, rfl⟩ : ∃ k, n = k + 1 := ⟨n - 1, by omega⟩
  rw [Expr.nodes] at hm ⊢
  rw [List.append_assoc, List.cons_append] at hs
  obtain ⟨s1, hleft, hs1⟩ :=
    hNl (k + 1) (by omega) s m .dotDot (rs ++ t :: more) hs (by omega) (by decide)
  obtain ⟨s2, hadv, hs2⟩ := run_advance hs1 (by simp)
  obtain ⟨s3, hright, hs3⟩ := hNr k (by omega) s2 _ t more hs2 (by omega) ht
  obtain ⟨s4, hal, hs4⟩ := run_allocE hs3 (by omega) (.bin .concat l r)
  refine ⟨s4, ?_, by rwa [← Nat.add_assoc, ← Nat.add_assoc]⟩
  have hleft' : parseAddsub (parserAt (k + 1)) s = .ok l s1 := hleft
  have hright' : (parserAt (k + 1)).concat s2 = .ok r s3 := hright
  change parseConcat (parserAt (k + 1)) s = _
  rw [parseConcat, run_bind hleft', run_cur hs1, if_pos rfl, run_bind hadv, run_bind hright', hal]

theorem parses_un {op : Op} {x : Expr} (hop : op.level = 6) {xs : List Tok} (hx : Parses h 6 x xs) :
    Parses h 6 (.un op x) (op.tok :: xs) := by
  obtain ⟨N, hN⟩ := hx
  refine ⟨N + 1, fun n hn s m t more hs hm ht => ?_⟩
  obtain ⟨k, rfl⟩ : ∃ k, n = k + 1 := ⟨n - 1, by omega⟩
  rw [Expr.nodes] at hm ⊢
  rw [List.cons_append] at hs
  obtain ⟨s1, hadv, hs1⟩ := run_advance hs (by simp)
  obtain ⟨s2, hsub, hs2⟩ := hN k (by omega) s1 m t more hs1 (by omega) ht
  obtain ⟨s3, hal, hs3⟩ := run_allocE hs2 (by omega) (.un op x)
  refine ⟨s3, ?_, by rwa [← Nat.add_assoc]⟩
  have hsub' : (parserAt k).unary s1 = .ok x s2 := hsub
  change parseUnary (parserAt k) s = _
  rw [parseUnary, run_cur hs]
  have hbody : (do advance; let x ← (parserAt k).unary; allocE (.un op x) : ParseM Expr) s =
      .ok (.un op x) s3 := by
    rw [run_bind hadv, run_bind hsub', hal]
  cases op <;> first | exact hbody | simp [Op.level] at hop

/-- A suffix behind the expression it belongs to. -/
theorem suffixes_step {b : Expr} {bs us : List Tok} (hb : Suffixes h b bs) {N : ℕ} (hne : us ≠ [])
    (hstep : ∀ n, N ≤ n → ∀ (k m : ℕ) (s : PState) (t : Tok) (more : List Tok),
      s.At h m (us ++ t :: more) → m + (e.nodes - b.nodes) ≤ MAX_NODES →
      ∃ s', suffixLoop (parserAt n) (k + 1) b s = suffixLoop (parserAt n) k e s' ∧
        s'.At h (m + (e.nodes - b.nodes)) (t :: more))
    (hnodes : b.nodes ≤ e.nodes) : Suffixes h e (bs ++ us) := by
  obtain ⟨Nb, c, hNb⟩ := hb
  obtain ⟨u, us', rfl⟩ := List.exists_cons_of_ne_nil hne
  refine ⟨max (max Nb N) (c + 1), c + 1, fun n hn s m t more hs hm => ?_⟩
  rw [List.append_assoc] at hs
  obtain ⟨s1, hbase, hs1⟩ := hNb n (by omega) s m u (us' ++ t :: more) hs (by omega)
  obtain ⟨s2, hsuf, hs2⟩ := hstep n (by omega) (n - (c + 1)) _ s1 t more hs1 (by omega)
  refine ⟨s2, ?_, ?_⟩
  · rw [hbase, show n - c = n - (c + 1) + 1 by omega, hsuf]
  · rwa [show m + e.nodes = m + b.nodes + (e.nodes - b.nodes) by omega]

theorem suffixes_bracket {b k : Expr} {bs ks : List Tok} (hb : Suffixes h b bs)
    (hk : Parses h 0 k ks) : Suffixes h (.index b k) (bs ++ .lBracket :: (ks ++ [.rBracket])) := by
  obtain ⟨N, hN⟩ := hk
  have hnodes : (Expr.index b k).nodes = b.nodes + k.nodes + 1 := by rw [Expr.nodes]
  refine suffixes_step hb (N := N + 1) (by simp) (fun n hn fuel m s t more hs hm => ?_) (by omega)
  obtain ⟨j, rfl⟩ : ∃ j, n = j + 1 := ⟨n - 1, by omega⟩
  rw [List.cons_append, List.append_assoc] at hs
  obtain ⟨s1, hadv, hs1⟩ := run_advance hs (by simp)
  obtain ⟨s2, hkey, hs2⟩ := hN j (by omega) s1 m .rBracket (t :: more) hs1 (by omega) (Nat.zero_le _)
  obtain ⟨s3, hclose, hs3⟩ := run_expect hs2 (by simp) "expected ']'"
  obtain ⟨s4, hal, hs4⟩ := run_allocE hs3 (by omega) (.index b k)
  refine ⟨s4, ?_, ?_⟩
  · have hkey' : (parserAt (j + 1)).expr s1 = .ok k s2 := hkey
    rw [suffixLoop, run_cur hs]
    refine (run_bind hadv _).trans ?_
    rw [run_bind hkey', run_bind hclose, run_bind hal]
  · rwa [show m + ((Expr.index b k).nodes - b.nodes) = m + k.nodes + 1 by omega]

theorem suffixes_name {b : Expr} {r : StrRef} {bs : List Tok} (hb : Suffixes h b bs)
    (hr : h.Interned r) : Suffixes h (.index b (.str r)) (bs ++ [.dot, .name (h.strBytes r)]) := by
  have hnodes : (Expr.index b (.str r)).nodes = b.nodes + 1 + 1 := by simp only [Expr.nodes]
  refine suffixes_step hb (N := 0) (by simp) (fun n hn fuel m s t more hs hm => ?_) (by omega)
  obtain ⟨s1, hadv, hs1⟩ := run_advance hs (by simp)
  obtain ⟨s2, hadv', hs2⟩ := run_advance hs1 (by simp)
  obtain ⟨s3, hkey, hs3⟩ := run_allocE hs2 (by omega) (.str r)
  obtain ⟨s4, hal, hs4⟩ := run_allocE hs3 (by omega) (.index b (.str r))
  refine ⟨s4, ?_, ?_⟩
  · have hname : nameOr "expected name after '.'" s1 = .ok r s2 := by
      rw [nameOr, run_cur hs1]
      refine (run_bind (run_internP hs1 hr) _).trans ?_
      rw [run_bind hadv']
      rfl
    rw [suffixLoop, run_cur hs]
    refine (run_bind hadv _).trans ?_
    rw [run_bind hname, run_bind hkey, run_bind hal]
  · rwa [show m + ((Expr.index b (.str r)).nodes - b.nodes) = m + 1 + 1 by omega]

/-- The arguments of a call, one behind the other. -/
theorem parses_args : ∀ {a : Expr} {as : List Expr}, (∀ x ∈ a :: as, Parses h 0 x (x.toks h)) →
    ∃ N, ∀ n, N ≤ n → ∀ (k m : ℕ) (s : PState) (more : List Tok), as.length < k →
      s.At h m (Expr.argToks h (a :: as) ++ .rParen :: more) →
      m + Expr.argNodes (a :: as) ≤ MAX_NODES →
      ∃ s', argLoop (parserAt n) k s = .ok (a :: as) s' ∧
        s'.At h (m + Expr.argNodes (a :: as)) (.rParen :: more)
  | a, [], ha => by
    obtain ⟨N, hN⟩ := ha a List.mem_cons_self
    refine ⟨N + 1, fun n hn k m s more hk hs hm => ?_⟩
    obtain ⟨j, rfl⟩ : ∃ j, n = j + 1 := ⟨n - 1, by omega⟩
    obtain ⟨k, rfl⟩ : ∃ k', k = k' + 1 := ⟨k - 1, by omega⟩
    rw [Expr.argToks] at hs
    simp only [Expr.argNodes] at hm ⊢
    obtain ⟨s1, harg, hs1⟩ := hN j (by omega) s m .rParen more hs (by omega) (Nat.zero_le _)
    obtain ⟨s2, hal, hs2⟩ := run_alloc hs1 (by omega)
    refine ⟨s2, ?_, hs2⟩
    have harg' : (parserAt (j + 1)).expr s = .ok a s1 := harg
    rw [argLoop, run_bind harg', run_bind hal, run_cur hs2]
    rfl
  | a, b :: as, ha => by
    obtain ⟨N, hN⟩ := ha a List.mem_cons_self
    obtain ⟨N', hN'⟩ := @parses_args b as fun x hx => ha x (List.mem_cons_of_mem a hx)
    refine ⟨max (N + 1) N', fun n hn k m s more hk hs hm => ?_⟩
    obtain ⟨j, rfl⟩ : ∃ j, n = j + 1 := ⟨n - 1, by omega⟩
    obtain ⟨k, rfl⟩ : ∃ k', k = k' + 1 := ⟨k - 1, by omega⟩
    rw [List.length_cons] at hk
    rw [Expr.argToks, List.append_assoc, List.cons_append] at hs
    rw [Expr.argNodes] at hm ⊢
    · obtain ⟨s1, harg, hs1⟩ := hN j (by omega) s m .comma _ hs (by omega) (Nat.zero_le _)
      obtain ⟨s2, hal, hs2⟩ := run_alloc hs1 (by omega)
      obtain ⟨s3, hadv, hs3⟩ := run_advance hs2 (by simp)
      obtain ⟨s4, hrest, hs4⟩ := hN' (j + 1) (by omega) k _ s3 more (by omega) hs3 (by omega)
      refine ⟨s4, ?_, by rwa [← Nat.add_assoc, ← Nat.add_assoc]⟩
      have harg' : (parserAt (j + 1)).expr s = .ok a s1 := harg
      rw [argLoop, run_bind harg', run_bind hal, run_cur hs2, if_pos rfl, run_bind hadv]
      exact run_bind hrest _
    · exact List.cons_ne_nil _ _

theorem suffixes_call {f : Expr} {args : List Expr} {fs : List Tok} (hf : Suffixes h f fs)
    (hargs : ∀ a ∈ args, Parses h 0 a (a.toks h)) (hstart : ∀ a ∈ args, Starts a.level (a.toks h)) :
    Suffixes h (.call f args) (fs ++ .lParen :: (Expr.argToks h args ++ [.rParen])) := by
  have hnodes : (Expr.call f args).nodes = f.nodes + Expr.argNodes args + 1 := by rw [Expr.nodes]
  cases args with
  | nil =>
    simp only [Expr.argNodes] at hnodes
    refine suffixes_step hf (N := 0) (by simp) (fun n hn fuel m s t more hs hm => ?_) (by omega)
    rw [Expr.argToks] at hs
    obtain ⟨s1, hadv, hs1⟩ := run_advance hs (by simp)
    obtain ⟨s2, hclose, hs2⟩ := run_advance hs1 (by simp)
    obtain ⟨s3, hal, hs3⟩ := run_allocE hs2 (by omega) (.call f [])
    refine ⟨s3, ?_, ?_⟩
    · have hlist : parseArgList (parserAt n) s1 = .ok [] s2 := by
        rw [parseArgList, run_cur hs1, if_pos rfl, run_bind hclose]
        rfl
      rw [suffixLoop, run_cur hs]
      refine (run_bind hadv _).trans ?_
      rw [run_bind hlist, run_bind hal]
    · rwa [show m + ((Expr.call f []).nodes - f.nodes) = m + 1 by omega]
  | cons a as =>
    obtain ⟨N, hN⟩ := parses_args hargs
    refine suffixes_step hf (N := max N (as.length + 1)) (by simp)
      (fun n hn fuel m s t more hs hm => ?_) (by omega)
    rw [List.cons_append, List.append_assoc] at hs
    obtain ⟨s1, hadv, hs1⟩ := run_advance hs (by simp)
    obtain ⟨s2, hloop, hs2⟩ := hN n (by omega) n m s1 (t :: more) (by omega) hs1 (by omega)
    obtain ⟨s3, hclose, hs3⟩ := run_expect hs2 (by simp) "expected ')'"
    obtain ⟨s4, hal, hs4⟩ := run_allocE hs3 (by omega) (.call f (a :: as))
    refine ⟨s4, ?_, ?_⟩
    · obtain ⟨t₀, ts', hts, hne, -⟩ : Starts a.level (Expr.argToks h (a :: as)) := by
        cases as with
        | nil => exact hstart a List.mem_cons_self
        | cons b as => exact (hstart a List.mem_cons_self).append
      have hlist : parseArgList (parserAt n) s1 = .ok (a :: as) s3 := by
        rw [hts] at hs1
        rw [parseArgList, run_cur hs1, if_neg hne, parserAt_fuel, run_bind hloop, run_bind hclose]
        rfl
      rw [suffixLoop, run_cur hs]
      refine (run_bind hadv _).trans ?_
      rw [run_bind hlist, run_bind hal]
    · rwa [show m + ((Expr.call f (a :: as)).nodes - f.nodes) =
        m + Expr.argNodes (a :: as) + 1 by omega]

/-! ### Trees -/

theorem Readable.toks (hr : Readable h e) : Parses h 0 e (e.toks h) := by
  have h0 := hr.parses 0 (Nat.zero_le _)
  rwa [Expr.within, if_neg (Nat.not_lt_zero _)] at h0

/-- An expression of the last level. -/
theorem readable_suffixes (hstart : Starts e.level (e.toks h)) (h7 : e.level = 7)
    (hs : Suffixes h e (e.toks h)) : Readable h e := by
  refine readable_of hstart (fun hl => ?_) (fun _ => hs) fun hl => ?_
  · unfold IsLoop at hl
    omega
  · omega

/-- The operands of a left-associative operator. -/
theorem loop_operands {op : Op} (hl : IsLoop op.level) :
    op.before = op.level ∧ op.behind = op.level + 1 := by
  cases op <;> first | exact ⟨rfl, rfl⟩ | simp [IsLoop, Op.level] at hl

theorem suffixes_index {b k : Expr} (hb : Readable h b) (hk : Readable h k)
    (hr : ∀ r, k = .str r → h.Interned r) : Suffixes h (.index b k) (Expr.toks h (.index b k)) := by
  rw [Expr.toks]
  unfold Expr.keyToks
  split
  · rename_i r
    split_ifs with hname
    · exact suffixes_name hb.suffixes (hr r rfl)
    · exact suffixes_bracket hb.suffixes hk.toks
  · exact suffixes_bracket hb.suffixes hk.toks

/-- **Every tree that can be written down is read back at every level.** -/
theorem readable {spell : Float → FloatLit} (hw : e.Writable h spell) : Readable h e := by
  induction hw with
  | nil =>
    exact readable_suffixes (starts_token (by simp)) rfl
      (suffixes_literal rfl fun _ _ _ _ hs => run_cur hs _)
  | true =>
    exact readable_suffixes (starts_token (by simp)) rfl
      (suffixes_literal rfl fun _ _ _ _ hs => run_cur hs _)
  | false =>
    exact readable_suffixes (starts_token (by simp)) rfl
      (suffixes_literal rfl fun _ _ _ _ hs => run_cur hs _)
  | num hn =>
    exact readable_suffixes (starts_token (by simp)) rfl
      (suffixes_literal rfl fun _ _ _ _ hs => run_cur hs _)
  | float hok hf =>
    exact readable_suffixes (starts_token (by simp)) rfl
      (suffixes_literal rfl fun _ _ _ _ hs => run_cur hs _)
  | str hr hlen => exact readable_suffixes (starts_token (by simp)) rfl (suffixes_str hr)
  | var hr hname => exact readable_suffixes (starts_token (by simp)) rfl (suffixes_var hr)
  | @bin op l r hop hl hr ihl ihr =>
    refine readable_of (starts_toks (.bin hop hl hr)) (fun hloop => ?_) (fun h7 => ?_) fun hself => ?_
    · obtain ⟨hbefore, hbehind⟩ := loop_operands hloop
      rw [Expr.toks, hbefore, hbehind]
      exact continues_bin hloop (ihl.continues _ hloop) (ihr.parses _ (by omega))
    · have h7' : op.level = 7 := h7
      omega
    · have h3 : op.level = 3 := by
        have hself' : op.level = 3 ∨ op.level = 6 := hself
        omega
      have hop' : op = .concat := by cases op <;> first | rfl | simp [Op.level] at h3
      subst hop'
      rw [Expr.toks]
      exact parses_concat (ihl.parses 4 (by decide)) (ihr.parses 3 (by decide))
  | @un op x hop hx ihx =>
    refine readable_of (starts_toks (.un hop hx)) (fun hloop => ?_) (fun h7 => ?_) fun _ => ?_
    · have hloop' : IsLoop 6 := hloop
      unfold IsLoop at hloop'
      omega
    · have h7' : 6 = 7 := h7
      omega
    · rw [Expr.toks]
      exact parses_un hop (ihx.parses 6 (by decide))
  | @index b k hb hk ihb ihk =>
    refine readable_suffixes (starts_toks (.index hb hk)) rfl (suffixes_index ihb ihk fun r hr => ?_)
    subst hr
    cases hk with
    | str hr _ => exact hr
  | @call f args hf hargs ihf ihargs =>
    refine readable_suffixes (starts_toks (.call hf hargs)) rfl ?_
    rw [Expr.toks]
    exact suffixes_call ihf.suffixes (fun a ha => (ihargs a ha).toks) fun a ha => starts_toks (hargs a ha)

/-- A registered string of the arena is interned. -/
theorem interned_registered {a : Arena} {p : Store.Pool UInt8} (hs : h.Shows a) (hp : a.Holds p)
    {reg : StrReg} (hr : reg ∈ a.strregs) : h.Interned (strref32 reg.off reg.len).toNat := by
  have hbytes : h.strBytes (strref32 reg.off reg.len).toNat = reg.span.read p.log := by
    have hb := hs.strBytes hp hr
    rw [hp.strBytes (hp.mem hr)] at hb
    exact (Option.some.inj hb).symm
  have hspan : ∀ reg', a.find (reg.span.read p.log) = some reg' → reg'.span = reg.span := by
    intro reg' hreg'
    have hfind := hp.find (reg.span.read p.log)
    rw [hreg', Option.map_some] at hfind
    obtain ⟨hmem, hread⟩ := Store.Pool.find_some hfind.symm
    exact (p.read_inj hmem (hp.mem hr)).mp hread
  have hlen : (reg.span.read p.log).length = reg.len.toNat := by
    rw [Store.Span.length_read (p.within _ (hp.mem hr))]
    rfl
  unfold Heap.Interned
  rw [hbytes, Heap.intern, hs.find hp, hp.log]
  cases hf : a.find (reg.span.read p.log) with
  | none =>
    rw [hp.find_eq] at hf
    exact absurd (decide_eq_true rfl) (List.find?_eq_none.mp hf reg hr)
  | some reg' =>
    have hoff : reg'.off.toNat = reg.off.toNat := congrArg Store.Span.off (hspan reg' hf)
    simp only [Option.map_some, hspan reg' hf, hlen, hoff, strref32_eq]

/-! ### Texts -/

theorem spelled_append {spell : Float → FloatLit} {us : List Tok} (hts : ∀ t ∈ ts, t.Spelled spell)
    (hus : ∀ t ∈ us, t.Spelled spell) : ∀ t ∈ ts ++ us, t.Spelled spell := by
  intro t ht
  exact (List.mem_append.mp ht).elim (hts t) (hus t)

theorem spelled_cons {spell : Float → FloatLit} {t : Tok} (ht : t.Spelled spell)
    (hts : ∀ t ∈ ts, t.Spelled spell) : ∀ t' ∈ t :: ts, t'.Spelled spell :=
  List.forall_mem_cons.mpr ⟨ht, hts⟩

theorem spelled_nil {spell : Float → FloatLit} : ∀ t ∈ ([] : List Tok), t.Spelled spell :=
  fun _ ht => absurd ht List.not_mem_nil

theorem spelled_within {spell : Float → FloatLit} (l : ℕ) (hts : ∀ t ∈ ts, t.Spelled spell) :
    ∀ t ∈ e.within l ts, t.Spelled spell := by
  unfold Expr.within
  split_ifs
  · exact spelled_cons trivial (spelled_append hts (spelled_cons trivial spelled_nil))
  · exact hts

theorem spelled_args {spell : Float → FloatLit} : ∀ {as : List Expr},
    (∀ a ∈ as, ∀ t ∈ a.toks h, t.Spelled spell) → ∀ t ∈ Expr.argToks h as, t.Spelled spell
  | [], _ => spelled_nil
  | [a], ha => ha a List.mem_cons_self
  | a :: _ :: _, ha =>
    spelled_append (ha a List.mem_cons_self)
      (spelled_cons trivial (spelled_args fun x hx => ha x (List.mem_cons_of_mem a hx)))

/-- The tokens of a writable tree all have a text. -/
theorem spelled_toks {spell : Float → FloatLit} (hw : e.Writable h spell) :
    ∀ t ∈ e.toks h, t.Spelled spell := by
  induction hw with
  | nil => exact spelled_cons trivial spelled_nil
  | true => exact spelled_cons trivial spelled_nil
  | false => exact spelled_cons trivial spelled_nil
  | num hn => exact spelled_cons hn spelled_nil
  | float hok hf => exact spelled_cons ⟨hok, hf⟩ spelled_nil
  | str hr hlen => exact spelled_cons hlen spelled_nil
  | var hr hname => exact spelled_cons hname spelled_nil
  | @bin op l r hop hl hr ihl ihr =>
    rw [Expr.toks]
    refine spelled_append (spelled_within _ ihl) (spelled_cons ?_ (spelled_within _ ihr))
    cases op <;> trivial
  | @un op x hop hx ihx =>
    rw [Expr.toks]
    refine spelled_cons ?_ (spelled_within _ ihx)
    cases op <;> trivial
  | @index b k hb hk ihb ihk =>
    rw [Expr.toks]
    refine spelled_append (spelled_within _ ihb) ?_
    unfold Expr.keyToks
    split
    · split_ifs with hname
      · exact spelled_cons trivial (spelled_cons hname spelled_nil)
      · exact spelled_cons trivial (spelled_append ihk (spelled_cons trivial spelled_nil))
    · exact spelled_cons trivial (spelled_append ihk (spelled_cons trivial spelled_nil))
  | @call f args hf hargs ihf ihargs =>
    rw [Expr.toks]
    refine spelled_append (spelled_within _ ihf) (spelled_cons trivial ?_)
    exact spelled_append (spelled_args ihargs) (spelled_cons trivial spelled_nil)

/-- The text of an expression. -/
def Expr.render (h : Heap) (spell : Float → FloatLit) (e : Expr) : List UInt8 :=
  textOf spell (e.toks h)

/-- **Parsing inverts writing.** `parse_expr` on the text of a tree yields the
tree, and has read the text to its end. -/
theorem expr_round_trip {h : Heap} {spell : Float → FloatLit} {e : Expr} {chunks : Chunks}
    (hw : e.Writable h spell) (hroom : chunks.nodeUsed + e.nodes ≤ MAX_NODES) :
    ∃ N, ∀ n, N ≤ n → ∃ p, parseExpr (parserAt n) (PState.new (e.render h spell) h chunks) = .ok e p ∧
      p.cur = .eof := by
  obtain ⟨N, hN⟩ := (readable hw).toks
  obtain ⟨t, ts, hts, -⟩ := starts_toks hw
  have hup := upcoming_textOf (spelled_toks hw)
  rw [hts] at hup
  obtain ⟨rest, htok, hrest⟩ := hup
  have hat : (PState.new (e.render h spell) h chunks).At h chunks.nodeUsed (e.toks h ++ .eof :: []) := by
    unfold PState.new Expr.render
    rw [hts, htok]
    exact ⟨rfl, rfl, rfl, rfl, hrest⟩
  refine ⟨N, fun n hn => ?_⟩
  obtain ⟨p, hrun, hp⟩ := hN n hn _ _ _ _ hat hroom (Nat.zero_le _)
  exact ⟨p, hrun, (Option.some.inj hp.cur).symm⟩

/-- The text of `x + 1`. -/
theorem sum_round_trip :
    let h : Heap := { strregs := [(0, [120])], strNext := 1 }
    let e := Expr.bin .add (.var 1) (.num 1)
    ∃ N, ∀ n, N ≤ n → ∃ p, parseExpr (parserAt n) (PState.new (e.render h fun _ => default) h {}) =
      .ok e p ∧ p.cur = .eof :=
  expr_round_trip (.bin (by decide) (.var rfl (by decide +kernel)) (.num (by decide))) (by decide)

end Lua
end Rustrapper

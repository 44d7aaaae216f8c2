/-
# What the parser has read

The parser sees the text one token ahead. `Lexes src ts rest` says that `src`
starts with the tokens `ts`, and a text is `Tokenizable` when its tokens go on
to its end. Every function of the parser keeps `Reads src`: the tokens so far,
the current one last, are a beginning of `src`, with no error in between. The
one exception is `opt_semi`, which drops an error of the lexer; then the `;`
stays the current token, and no statement starts with one (`fails_stat`).

So a script the parser accepts is tokenizable (`accepted_tokenizable`) when its
first token is one: `Parser::new` takes a malformed first token for the end of
the text, and accepts the text as an empty script (`malformed_accepted`).
-/
import Rustrapper.Effect.Ensures
import Rustrapper.Lua.Parse

namespace Rustrapper
namespace Lua

open Effect

/-! ### Token streams -/

/-- The lexer finds the tokens `ts` in `src` one after the other, and leaves
`rest`. -/
inductive Lexes (src : List UInt8) : List Tok → List UInt8 → Prop where
  | start : Lexes src [] src
  | next {ts : List Tok} {t : Tok} {mid rest : List UInt8} (h : Lexes src ts mid)
    (ht : nextToken mid = (.ok t, rest)) : Lexes src (ts ++ [t]) rest

/-- The lexer produces no error on `src` from beginning to end. -/
def Tokenizable (src : List UInt8) : Prop := ∃ ts, Lexes src (ts ++ [.eof]) []

theorem Lexes.eq_of_nil {src rest : List UInt8} {ts : List Tok} (h : Lexes src ts rest)
    (hts : ts = []) : rest = src := by
  cases h with
  | start => rfl
  | next _ _ => simp at hts

/-- The first token of a stream is the first token of the text. -/
theorem Lexes.first {src rest : List UInt8} {ts : List Tok} (h : Lexes src ts rest) (hne : ts ≠ []) :
    ∃ t, (nextToken src).1 = .ok t := by
  induction h with
  | start => exact absurd rfl hne
  | @next ts t mid rest h ht ih =>
    by_cases hts : ts = []
    · rw [h.eq_of_nil hts] at ht
      exact ⟨t, by rw [ht]⟩
    · exact ih hts

/-- The last token of a stream. -/
theorem Lexes.last {src rest : List UInt8} {l ts : List Tok} {t : Tok} (h : Lexes src l rest)
    (hl : l = ts ++ [t]) : ∃ mid, Lexes src ts mid ∧ nextToken mid = (.ok t, rest) := by
  cases h with
  | start => simp at hl
  | next h ht =>
    obtain ⟨rfl, hs⟩ := List.append_inj' hl rfl
    cases hs
    exact ⟨_, h, ht⟩

theorem lexNumberTail_ne_eof (b : Bool) (ip fp cs : List UInt8) :
    (lexNumberTail b ip fp cs).1 ≠ .ok .eof := by
  unfold lexNumberTail
  split
  · simp
  · split_ifs <;> simp

theorem lexNumber_ne_eof (cs : List UInt8) : (lexNumber cs).1 ≠ .ok .eof := by
  unfold lexNumber
  split
  · exact lexNumberTail_ne_eof _ _ _ _
  · simp only
    split <;> exact lexNumberTail_ne_eof _ _ _ _

theorem lexStringBody_ne_eof (q : UInt8) :
    ∀ cs acc : List UInt8, (lexStringBody q cs acc).1 ≠ .ok .eof
  | [], _ => by simp [lexStringBody]
  | [c], acc => by
    unfold lexStringBody
    split_ifs <;> simp [lexStringBody]
  | c :: d :: cs, acc => by
    have hescape := lexStringBody_ne_eof q cs
    have hplain := lexStringBody_ne_eof q (d :: cs)
    rw [lexStringBody]
    by_cases hend : c = 0 ∨ c = 10
    · simp [if_pos hend]
    by_cases hquote : c = q
    · simp [if_neg hend, if_pos hquote]
    by_cases hslash : c = 92
    · rw [if_neg hend, if_neg hquote, if_pos hslash]
      cases hu : unescape d with
      | none => simp
      | some x =>
        simp only
        split_ifs
        · simp
        · exact hescape _
    · rw [if_neg hend, if_neg hquote, if_neg hslash]
      split_ifs
      · simp
      · exact hplain _

theorem lexName_ne_eof (cs : List UInt8) : (lexName cs).1 ≠ .ok .eof := by
  have hk : ∀ kw ∈ keywords, kw.2 ≠ .eof := by decide
  unfold lexName
  simp only [ne_eq, Except.ok.injEq]
  cases hl : keywords.lookup (cs.takeWhile isNameByte) with
  | none => simp
  | some t =>
    rw [Option.getD_some]
    obtain ⟨l₁, l₂, hmem, -⟩ := List.lookup_eq_some_iff.mp hl
    exact hk (cs.takeWhile isNameByte, t) (by rw [hmem]; simp)

theorem lexSymbol_ne_eof (cs : List UInt8) : (lexSymbol cs).1 ≠ .ok .eof := by
  unfold lexSymbol
  split <;> simp

/-- The lexer says `Eof` at the end of the text only. -/
theorem nextToken_eof {src rest : List UInt8} (h : nextToken src = (.ok .eof, rest)) : rest = [] := by
  have h1 : (nextToken src).1 = .ok .eof := by rw [h]
  cases hs : skipBlank false src with
  | nil =>
    rw [nextToken, hs] at h
    exact (Prod.ext_iff.mp h).2.symm
  | cons c cs =>
    rw [nextToken, hs] at h1
    simp only at h1
    split_ifs at h1
    · exact absurd h1 (lexNumber_ne_eof _)
    · exact absurd h1 (lexStringBody_ne_eof _ _ _)
    · exact absurd h1 (lexName_ne_eof _)
    · exact absurd h1 (lexNumber_ne_eof _)
    · exact absurd h1 (lexSymbol_ne_eof _)

/-! ### Rules for the parser -/

/-- The parser has read a beginning of `src`, up to its current token. -/
def Reads (src : List UInt8) (p : PState) : Prop := ∃ ts, Lexes src (ts ++ [p.cur]) p.rest

/-- As `Reads`, or the parser is stuck at a `;`. -/
def ReadsOrStuck (src : List UInt8) (p : PState) : Prop := Reads src p ∨ p.cur = .semi

/-- From `s`, the computation leaves the lexer alone. -/
def QuietAt {α : Type} (s : PState) (x : ParseM α) : Prop :=
  Ensures (· = s) x fun _ p => p.cur = s.cur ∧ p.rest = s.rest

/-- The computation leaves the lexer alone. -/
def Quiet {α : Type} (x : ParseM α) : Prop := ∀ s, QuietAt s x

section Rules
variable {src : List UInt8} {α β : Type} {x : ParseM α} {f : α → ParseM β} {s : PState}

theorem QuietAt.bind (hx : QuietAt s x) (hf : ∀ a, Quiet (f a)) : QuietAt s (x >>= f) := by
  refine Ensures.bind hx fun a t b t' ht h => ?_
  obtain ⟨hc, hr⟩ := hf a t t b t' rfl h
  exact ⟨hc.trans ht.1, hr.trans ht.2⟩

theorem QuietAt.ite {c : Prop} [Decidable c] {y : ParseM α} (hx : QuietAt s x) (hy : QuietAt s y) :
    QuietAt s (if c then x else y) := Ensures.ite hx hy

theorem QuietAt.perr {m : String} : QuietAt s (perr m : ParseM α) := .throw

/-- Write a state with another part changed. -/
theorem QuietAt.set {t : PState} (hc : t.cur = s.cur) (hr : t.rest = s.rest) :
    QuietAt s (set t : ParseM PUnit) := Ensures.set fun _ _ => ⟨hc, hr⟩

theorem Quiet.pure (a : α) : Quiet (Pure.pure a : ParseM α) :=
  fun _ => Ensures.ret fun _ h => by rw [h]; exact ⟨rfl, rfl⟩

theorem Quiet.bind (hx : Quiet x) (hf : ∀ a, Quiet (f a)) : Quiet (x >>= f) :=
  fun s => (hx s).bind hf

theorem Quiet.ite {c : Prop} [Decidable c] {y : ParseM α} (hx : Quiet x) (hy : Quiet y) :
    Quiet (if c then x else y) := fun s => (hx s).ite (hy s)

theorem Quiet.perr {m : String} : Quiet (perr m : ParseM α) := fun _ => .perr

theorem Quiet.fuel : Quiet (throw .fuel : ParseM α) := fun _ => Ensures.throw

theorem Quiet.get {g : PState → ParseM β} (h : ∀ s, QuietAt s (g s)) : Quiet (get >>= g) :=
  fun _ => Ensures.get fun t ht => ht ▸ h t

theorem Quiet.modify {g : PState → PState} (h : ∀ p, (g p).cur = p.cur ∧ (g p).rest = p.rest) :
    Quiet (modify g : ParseM PUnit) :=
  fun _ => Ensures.modify fun p hp => hp ▸ h p

/-- A quiet computation keeps what only speaks of the lexer. -/
theorem Quiet.reads (hx : Quiet x) : Maintains (Reads src) x := by
  intro s a s' ⟨ts, hs⟩ h
  obtain ⟨hc, hr⟩ := hx s s a s' rfl h
  exact ⟨ts, by rw [hc, hr]; exact hs⟩

theorem Quiet.stuck (hx : Quiet x) : Maintains (fun p => p.cur = .semi) x := by
  intro s a s' hs h
  rw [(hx s s a s' rfl h).1]
  exact hs

theorem Quiet.readsOrStuck (hx : Quiet x) : Maintains (ReadsOrStuck src) x :=
  fun s a s' hs h => hs.imp (hx.reads s a s' · h) (hx.stuck s a s' · h)

/-- Read the state. -/
theorem get_reads {g : PState → ParseM β} {Q : β → PState → Prop}
    (h : ∀ s, Ensures (Reads src) (g s) Q) : Ensures (Reads src) (get >>= g) Q :=
  Ensures.get fun s hs => (h s).mono (fun _ ht => ht ▸ hs) fun _ _ => id

end Rules

/-! ### The quiet part of the parser -/

theorem quiet_declareLocalRec (name : StrRef) : Quiet (declareLocalRec name) :=
  .get fun _ => .ite .perr (.set rfl rfl)

theorem quiet_declareAll : ∀ ns : List StrRef, Quiet (declareAll ns)
  | [] => .pure _
  | n :: ns => (quiet_declareLocalRec n).bind fun _ => quiet_declareAll ns

theorem quiet_dropLocals (mark : ℕ) : Quiet (dropLocals mark) := .modify fun _ => ⟨rfl, rfl⟩

theorem quiet_resolveName (name : StrRef) : Quiet (resolveName name) := by
  refine .get fun s => ?_
  split
  · exact Quiet.pure _ s
  · refine .ite (Quiet.pure _ s) ?_
    split
    · exact .perr
    · exact .set rfl rfl

theorem quiet_internP (b : List UInt8) : Quiet (internP b) := by
  refine .get fun s => ?_
  split
  · exact QuietAt.bind (.set rfl rfl) fun _ => .pure _
  · exact .perr

theorem quiet_alloc : Quiet alloc :=
  .get fun _ => .ite .perr (QuietAt.bind (.set rfl rfl) fun _ => .pure _)

theorem quiet_allocE (e : Expr) : Quiet (allocE e) := quiet_alloc.bind fun _ => .pure _

theorem quiet_allocS (t : Stmt) : Quiet (allocS t) := quiet_alloc.bind fun _ => .pure _

theorem quiet_allocFunc (params : List StrRef) (body : Block) (ups : List StrRef) :
    Quiet (allocFunc params body ups) :=
  .get fun _ => .ite .perr (.ite .perr (QuietAt.bind (.set rfl rfl) fun _ => .pure _))

theorem quiet_recordLabel (name : StrRef) (node : ℕ) : Quiet (recordLabel name node) :=
  .get fun _ => .ite .perr (.set rfl rfl)

theorem quiet_addGoto (i node : ℕ) (name : StrRef) : Quiet (addGoto i node name) :=
  .get fun _ => .ite .perr (.set rfl rfl)

theorem quiet_recordGoto (node : ℕ) (name : StrRef) : Quiet (recordGoto node name) :=
  .get fun s => quiet_addGoto _ node name s

theorem quiet_patchGoto (node target : ℕ) : Quiet (patchGoto node target) :=
  .modify fun _ => ⟨rfl, rfl⟩

theorem quiet_resolveGotos (i : ℕ) : ∀ gs, Quiet (resolveGotos i gs)
  | [] => .pure _
  | (node, name) :: gs => by
    refine Quiet.get fun s => ?_
    split
    · exact (quiet_patchGoto _ _ s).bind fun _ => quiet_resolveGotos i gs
    · refine QuietAt.ite ?_ ?_
      · exact QuietAt.perr.bind fun _ => quiet_resolveGotos i gs
      · exact (quiet_addGoto _ _ _ s).bind fun _ => quiet_resolveGotos i gs

theorem quiet_resolveScope : Quiet resolveScope :=
  .get fun s => (quiet_resolveGotos _ _ s).bind fun _ => .modify fun _ => ⟨rfl, rfl⟩

theorem quiet_cur : Quiet cur := .get fun s => Quiet.pure _ s

/-! ### The lexer's part -/

section Lexer
variable {src : List UInt8}

theorem reads_advance : Maintains (Reads src) advance := by
  refine Ensures.get fun s ⟨ts, hs⟩ => ?_
  split
  · rename_i t rest ht
    exact .set fun p _ => ⟨ts ++ [s.cur], hs.next ht⟩
  · exact Ensures.bind (Q := fun _ _ => True) (.set fun _ _ => trivial) fun _ => .throw

theorem reads_expect' {t : Tok} (m : String) : Maintains (Reads src) (expect t m) :=
  Ensures.bind quiet_cur.reads fun _ => .ite reads_advance .throw

/-- The error `opt_semi` drops leaves the `;` the current token. -/
theorem reads_optSemi : Ensures (Reads src) optSemi fun _ => ReadsOrStuck src := by
  refine Ensures.get fun s ⟨ts, hs⟩ => .cond (fun hsemi => ?_) fun _ => ?_
  · split
    · rename_i t rest ht
      exact .set fun p _ => .inl ⟨ts ++ [s.cur], hs.next ht⟩
    · exact .set fun p _ => .inr hsemi
  · exact .ret fun p hp => .inl ⟨ts, hp ▸ hs⟩

theorem reads_nameOr (m : String) : Maintains (Reads src) (nameOr m) := by
  refine Ensures.bind quiet_cur.reads fun t => ?_
  split
  · exact (quiet_internP _).reads.bind fun _ => reads_advance.bind fun _ => .pure _
  · exact .throw

theorem reads_expectName : Maintains (Reads src) expectName := reads_nameOr _

end Lexer

/-! ### Expressions -/

/-- The parsers a definition calls again read on, and have no result where the
parser is stuck. -/
structure PRec.Reads (src : List UInt8) (R : PRec) : Prop where
  expr : Maintains (Lua.Reads src) R.expr
  concat : Maintains (Lua.Reads src) R.concat
  unary : Maintains (Lua.Reads src) R.unary
  block : Maintains (Lua.Reads src) R.block
  ifTail : Maintains (Lua.Reads src) R.ifTail
  stuckExpr : Fails (fun p => p.cur = .semi) R.expr
  stuckUnary : Fails (fun p => p.cur = .semi) R.unary

section Expressions
variable {src : List UInt8} {R : PRec}

theorem reads_leftAssoc (opOf : Tok → Option Op) {sub : ParseM Expr}
    (hsub : Maintains (Reads src) sub) : ∀ n l, Maintains (Reads src) (leftAssoc opOf sub n l)
  | 0, _ => .throw
  | n + 1, l => by
    refine Ensures.bind quiet_cur.reads fun t => ?_
    split
    · exact .pure _
    · refine reads_advance.bind fun _ => hsub.bind fun r => (quiet_allocE _).reads.bind fun e => ?_
      exact reads_leftAssoc opOf hsub n e

theorem reads_muldiv (h : R.Reads src) : Maintains (Reads src) (parseMuldiv R) :=
  h.unary.bind fun l => reads_leftAssoc muldivOp h.unary _ l

theorem reads_addsub (h : R.Reads src) : Maintains (Reads src) (parseAddsub R) :=
  (reads_muldiv h).bind fun l => reads_leftAssoc addsubOp (reads_muldiv h) _ l

theorem reads_concat (h : R.Reads src) : Maintains (Reads src) (parseConcat R) := by
  refine (reads_addsub h).bind fun l => Ensures.bind quiet_cur.reads fun t => .ite ?_ (.pure _)
  exact reads_advance.bind fun _ => h.concat.bind fun r => (quiet_allocE _).reads

theorem reads_cmp (h : R.Reads src) : Maintains (Reads src) (parseCmp R) :=
  (reads_concat h).bind fun l => reads_leftAssoc cmpOp (reads_concat h) _ l

theorem reads_and (h : R.Reads src) : Maintains (Reads src) (parseAnd R) :=
  (reads_cmp h).bind fun l => reads_leftAssoc andOp (reads_cmp h) _ l

theorem reads_or (h : R.Reads src) : Maintains (Reads src) (parseOr R) :=
  (reads_and h).bind fun l => reads_leftAssoc orOp (reads_and h) _ l

theorem reads_argLoop (h : R.Reads src) : ∀ n, Maintains (Reads src) (argLoop R n)
  | 0 => .throw
  | n + 1 => by
    refine h.expr.bind fun a => quiet_alloc.reads.bind fun _ => Ensures.bind quiet_cur.reads fun t => ?_
    refine .ite ?_ (.pure _)
    exact reads_advance.bind fun _ => (reads_argLoop h n).bind fun _ => .pure _

theorem reads_argList (h : R.Reads src) : Maintains (Reads src) (parseArgList R) := by
  refine Ensures.bind quiet_cur.reads fun t => .ite ?_ ?_
  · exact reads_advance.bind fun _ => .pure _
  · exact (reads_argLoop h _).bind fun _ => (reads_expect' _).bind fun _ => .pure _

theorem reads_fieldLoop (h : R.Reads src) : ∀ n ord, Maintains (Reads src) (fieldLoop R n ord)
  | 0, _ => .throw
  | n + 1, ord => by
    have hrest : ∀ field ord, Maintains (Reads src) (do
        let _ ← alloc
        if (← cur) = .comma then do
          advance
          pure (field :: (← fieldLoop R n ord))
        else pure [field]) := by
      intro field ord
      refine quiet_alloc.reads.bind fun _ => Ensures.bind quiet_cur.reads fun t => .ite ?_ (.pure _)
      exact reads_advance.bind fun _ => (reads_fieldLoop h n ord).bind fun _ => .pure _
    refine Ensures.bind quiet_cur.reads fun t => ?_
    split
    · refine reads_advance.bind fun _ => h.expr.bind fun k => (reads_expect' _).bind fun _ => ?_
      exact (reads_expect' _).bind fun _ => h.expr.bind fun v => hrest _ _
    · refine (quiet_internP _).reads.bind fun r => reads_advance.bind fun _ => ?_
      refine Ensures.bind quiet_cur.reads fun t => .ite ?_ ?_
      · refine reads_advance.bind fun _ => (quiet_allocE _).reads.bind fun k => ?_
        exact h.expr.bind fun v => hrest _ _
      · exact (quiet_allocE _).reads.bind fun k => (quiet_allocE _).reads.bind fun v => hrest _ _
    · exact (quiet_allocE _).reads.bind fun k => h.expr.bind fun v => hrest _ _

theorem reads_tableLit (h : R.Reads src) : Maintains (Reads src) (parseTableLit R) := by
  have hrest : ∀ fields, Maintains (Reads src) (do
      expect .rBrace "expected '\x7d' in table literal"
      allocE (.tableLit fields)) :=
    fun _ => (reads_expect' _).bind fun _ => (quiet_allocE _).reads
  refine reads_advance.bind fun _ => Ensures.bind quiet_cur.reads fun t => .ite ?_ ?_
  · exact hrest []
  · exact (reads_fieldLoop h _ _).bind hrest

theorem reads_paramLoop : ∀ n, Maintains (Reads src) (paramLoop n)
  | 0 => .throw
  | n + 1 => by
    refine reads_expectName.bind fun _ => quiet_alloc.reads.bind fun _ => ?_
    refine Ensures.bind quiet_cur.reads fun t => .ite ?_ (.pure _)
    exact reads_advance.bind fun _ => (reads_paramLoop n).bind fun _ => .pure _

theorem reads_params (R : PRec) : Maintains (Reads src) (parseParams R) := by
  refine Ensures.bind quiet_cur.reads fun t => .ite ?_ ?_
  · exact reads_advance.bind fun _ => .pure _
  · exact (reads_paramLoop _).bind fun _ => (reads_expect' _).bind fun _ => .pure _

/-- Write the state that was read with something else changed, and go on. -/
theorem reads_set {s t : PState} {α : Type} {f : PUnit → ParseM α} (hc : t.cur = s.cur)
    (hr : t.rest = s.rest) (hf : Maintains (Reads src) (f ⟨⟩)) (hs : Reads src s) :
    Ensures (· = s) (set t >>= f) fun _ => Reads src := by
  refine Ensures.bind (Q := fun _ => Reads src) (.set fun _ _ => ?_) fun _ => hf
  obtain ⟨ts, hs⟩ := hs
  exact ⟨ts, by rw [hc, hr]; exact hs⟩

theorem reads_funcBody (h : R.Reads src) : Maintains (Reads src) (parseFuncBody R) := by
  refine (reads_expect' _).bind fun _ => Ensures.get fun s hs => ?_
  refine .cond (fun _ => Ensures.throw_bind) fun _ => ?_
  refine reads_set rfl rfl ?_ hs
  refine (reads_params R).bind fun params => (quiet_declareAll params).reads.bind fun _ => ?_
  refine Ensures.get fun s1 hs1 => reads_set rfl rfl ?_ hs1
  have hback : Quiet (modify fun t : PState =>
      { t with nScopes := s1.nScopes, loopDepth := s1.loopDepth }) := .modify fun _ => ⟨rfl, rfl⟩
  refine h.block.bind fun body => hback.reads.bind fun _ => (reads_expect' _).bind fun _ => ?_
  refine Ensures.get fun t ht => reads_set rfl rfl ?_ ht
  exact (quiet_dropLocals _).reads.bind fun _ => (quiet_allocFunc _ _ _).reads

theorem reads_suffixLoop (h : R.Reads src) : ∀ n e, Maintains (Reads src) (suffixLoop R n e)
  | 0, _ => .throw
  | n + 1, e => by
    refine Ensures.bind quiet_cur.reads fun t => ?_
    split
    · refine reads_advance.bind fun _ => (reads_nameOr _).bind fun name => ?_
      refine (quiet_allocE _).reads.bind fun key => (quiet_allocE _).reads.bind fun e' => ?_
      exact reads_suffixLoop h n e'
    · refine reads_advance.bind fun _ => (reads_nameOr _).bind fun name => ?_
      refine (quiet_allocE _).reads.bind fun key => (quiet_allocE _).reads.bind fun method => ?_
      refine (reads_expect' _).bind fun _ => (reads_argList h).bind fun args => ?_
      refine quiet_alloc.reads.bind fun _ => (quiet_allocE _).reads.bind fun e' => ?_
      exact reads_suffixLoop h n e'
    · refine reads_advance.bind fun _ => h.expr.bind fun key => (reads_expect' _).bind fun _ => ?_
      exact (quiet_allocE _).reads.bind fun e' => reads_suffixLoop h n e'
    · refine reads_advance.bind fun _ => (reads_argList h).bind fun args => ?_
      exact (quiet_allocE _).reads.bind fun e' => reads_suffixLoop h n e'
    · exact .pure _

theorem reads_atom (h : R.Reads src) : Maintains (Reads src) (parseAtom R) := by
  have hlit : ∀ e, Maintains (Reads src) (do advance; allocE e) :=
    fun e => reads_advance.bind fun _ => (quiet_allocE e).reads
  refine Ensures.bind quiet_cur.reads fun t => ?_
  cases t with
  | num v => exact hlit _
  | float v => exact hlit _
  | str b => exact (quiet_internP _).reads.bind fun _ => hlit _
  | true_ => exact hlit _
  | false_ => exact hlit _
  | nil => exact hlit _
  | name b =>
    refine (quiet_internP _).reads.bind fun _ => reads_advance.bind fun _ => ?_
    exact (quiet_resolveName _).reads.bind fun _ => (quiet_allocE _).reads
  | lParen =>
    exact reads_advance.bind fun _ => h.expr.bind fun e => (reads_expect' _).bind fun _ => .pure _
  | lBrace => exact reads_tableLit h
  | function =>
    exact reads_advance.bind fun _ => (reads_funcBody h).bind fun _ => (quiet_allocE _).reads
  | _ => exact Ensures.throw

theorem reads_primary (h : R.Reads src) : Maintains (Reads src) (parsePrimary R) :=
  (reads_atom h).bind fun e => reads_suffixLoop h _ e

theorem reads_unary (h : R.Reads src) : Maintains (Reads src) (parseUnary R) := by
  refine Ensures.bind quiet_cur.reads fun t => ?_
  split
  · exact reads_advance.bind fun _ => h.unary.bind fun _ => (quiet_allocE _).reads
  · exact reads_advance.bind fun _ => h.unary.bind fun _ => (quiet_allocE _).reads
  · exact reads_primary h

/-- What a definition does with the token the parser is stuck at. -/
theorem fails_cur {α : Type} {f : Tok → ParseM α} (h : Fails (fun p : PState => p.cur = .semi) (f .semi)) :
    Fails (fun p : PState => p.cur = .semi) (cur >>= f) := by
  intro s a s' hs hok
  change f s.cur s = _ at hok
  rw [hs] at hok
  exact h s a s' hs hok

theorem fails_atom : Fails (fun p : PState => p.cur = .semi) (parseAtom R) :=
  fails_cur Ensures.throw

/-- No expression starts with a `;`. -/
theorem fails_expr (h : R.Reads src) : Fails (fun p : PState => p.cur = .semi) (parseExpr R) :=
  h.stuckUnary.bind.bind.bind.bind.bind.bind

theorem fails_unary : Fails (fun p : PState => p.cur = .semi) (parseUnary R) :=
  fails_cur fails_atom.bind

end Expressions

/-! ### Statements -/

section Statements
variable {src : List UInt8} {R : PRec}

theorem loosen {α : Type} {x : ParseM α} (h : Maintains (Reads src) x) :
    Ensures (Reads src) x fun _ => ReadsOrStuck src := h.mono (fun _ => id) fun _ _ => .inl

/-- The end of a statement. -/
theorem reads_end (st : Stmt) :
    Ensures (Reads src) (do optSemi; allocS st) fun _ => ReadsOrStuck src :=
  reads_optSemi.bind fun _ => (quiet_allocS st).readsOrStuck

theorem reads_targetLoop (h : R.Reads src) : ∀ n, Maintains (Reads src) (targetLoop R n)
  | 0 => .throw
  | n + 1 => by
    refine Ensures.bind quiet_cur.reads fun t => .ite ?_ (.pure _)
    refine reads_advance.bind fun _ => h.expr.bind fun t => .ite ?_ .throw
    exact (reads_targetLoop h n).bind fun _ => .pure _

theorem reads_assignmentFrom (h : R.Reads src) (first : Expr) :
    Ensures (Reads src) (parseAssignmentFrom R first) fun _ => ReadsOrStuck src := by
  have hrest : Ensures (Reads src) (do
      let ts ← targetLoop R R.fuel
      expect .equals "expected '=' in assignment"
      let v ← R.expr
      optSemi
      allocS (.assignStmt (first :: ts) v)) fun _ => ReadsOrStuck src :=
    (reads_targetLoop h _).bind fun _ => (reads_expect' _).bind fun _ => h.expr.bind fun _ => reads_end _
  exact .ite Ensures.throw_bind hrest

theorem reads_exprStat (h : R.Reads src) :
    Ensures (Reads src) (parseExprStat R) fun _ => ReadsOrStuck src := by
  refine h.expr.bind fun e => Ensures.bind quiet_cur.reads fun t => .cond (fun _ => ?_) fun _ => ?_
  · exact reads_assignmentFrom h e
  · exact reads_end _

theorem reads_nameLoop : ∀ n count, Maintains (Reads src) (nameLoop n count)
  | 0, _ => .throw
  | n + 1, count => by
    have hrest : ∀ name, Maintains (Reads src) (do pure (name :: (← nameLoop n (count + 1)))) :=
      fun _ => (reads_nameLoop n _).bind fun _ => .pure _
    refine Ensures.bind quiet_cur.reads fun t => .ite ?_ (.pure _)
    refine reads_advance.bind fun _ => reads_expectName.bind fun name => quiet_alloc.reads.bind fun _ => ?_
    exact .ite Ensures.throw_bind (hrest name)

theorem reads_local (h : R.Reads src) :
    Ensures (Reads src) (parseLocal R) fun _ => ReadsOrStuck src := by
  refine Ensures.bind quiet_cur.reads fun t => .cond (fun _ => loosen ?_) fun _ => ?_
  · refine reads_advance.bind fun _ => reads_expectName.bind fun name => ?_
    refine (quiet_declareLocalRec name).reads.bind fun _ => (reads_funcBody h).bind fun fi => ?_
    exact quiet_alloc.reads.bind fun _ => (quiet_allocS _).reads
  · refine reads_expectName.bind fun name => quiet_alloc.reads.bind fun _ => ?_
    refine (reads_nameLoop _ _).bind fun names => (reads_expect' _).bind fun _ => h.expr.bind fun v => ?_
    refine reads_optSemi.bind fun _ => (quiet_allocS _).readsOrStuck.bind fun node => ?_
    exact (quiet_declareAll _).readsOrStuck.bind fun _ => .pure _

theorem reads_global (h : R.Reads src) :
    Ensures (Reads src) (parseGlobal R) fun _ => ReadsOrStuck src := by
  have hrest : ∀ name v, Ensures (Reads src) (do
      optSemi
      let _ ← alloc
      allocS (.globalDecl name v)) fun _ => ReadsOrStuck src :=
    fun _ _ => reads_optSemi.bind fun _ => quiet_alloc.readsOrStuck.bind fun _ =>
      (quiet_allocS _).readsOrStuck
  refine reads_expectName.bind fun name => Ensures.bind quiet_cur.reads fun t => ?_
  refine .cond (fun _ => ?_) fun _ => hrest _ _
  exact reads_advance.bind fun _ => h.expr.bind fun v => hrest _ _

theorem reads_loopBody (h : R.Reads src) : Maintains (Reads src) (parseLoopBody R) := by
  have hin : Quiet (modify fun s : PState => { s with loopDepth := s.loopDepth + 1 }) :=
    .modify fun _ => ⟨rfl, rfl⟩
  have hout : Quiet (modify fun s : PState => { s with loopDepth := s.loopDepth - 1 }) :=
    .modify fun _ => ⟨rfl, rfl⟩
  exact hin.reads.bind fun _ => h.block.bind fun body => hout.reads.bind fun _ => .pure _

theorem reads_ifTail (h : R.Reads src) : Maintains (Reads src) (parseIfTail R) := by
  refine Ensures.bind quiet_cur.reads fun t => ?_
  split
  · exact reads_advance.bind fun _ => .pure _
  · exact reads_advance.bind fun _ => h.block.bind fun b => (reads_expect' _).bind fun _ => .pure _
  · refine reads_advance.bind fun _ => h.expr.bind fun c => (reads_expect' _).bind fun _ => ?_
    refine h.block.bind fun t => h.ifTail.bind fun tail => ?_
    exact (quiet_allocS _).reads.bind fun _ => .pure _
  · exact .throw

theorem reads_for (h : R.Reads src) : Maintains (Reads src) (parseFor R) := by
  refine reads_expectName.bind fun name => quiet_alloc.reads.bind fun _ => ?_
  refine Ensures.bind quiet_cur.reads fun t => .ite ?_ ?_
  · have hrest : ∀ start limit step, Maintains (Reads src) (do
        expect .do_ "expected 'do'"
        let mark := (← get).locals.length
        declareLocalRec name
        let body ← parseLoopBody R
        expect .end_ "expected 'end' to close for"
        let node ← allocS (.forStmt ((← get).capturedAt mark) name start limit step body)
        dropLocals mark
        pure node) := by
      intro start limit step
      refine (reads_expect' _).bind fun _ => get_reads fun s => ?_
      refine (quiet_declareLocalRec name).reads.bind fun _ => (reads_loopBody h).bind fun body => ?_
      refine (reads_expect' _).bind fun _ => get_reads fun s' => ?_
      exact (quiet_allocS _).reads.bind fun _ => (quiet_dropLocals _).reads.bind fun _ => .pure _
    refine reads_advance.bind fun _ => h.expr.bind fun start => (reads_expect' _).bind fun _ => ?_
    refine h.expr.bind fun limit => Ensures.bind quiet_cur.reads fun t => .ite ?_ (hrest _ _ _)
    exact reads_advance.bind fun _ => h.expr.bind fun step => hrest _ _ _
  · have hrest : ∀ (vvar : Option StrRef) (declare : ParseM Unit), Maintains (Reads src) declare →
        Maintains (Reads src) (do
          expect .in_ "expected 'in' in for statement"
          let table ← R.expr
          expect .do_ "expected 'do'"
          let mark := (← get).locals.length
          declareLocalRec name
          declare
          let body ← parseLoopBody R
          expect .end_ "expected 'end' to close for"
          let s ← get
          let captured := s.capturedAt mark || (vvar.isSome && s.capturedAt (mark + 1))
          let node ← allocS (.forInStmt captured name vvar table body)
          dropLocals mark
          pure node) := by
      intro vvar declare hdecl
      refine (reads_expect' _).bind fun _ => h.expr.bind fun table => (reads_expect' _).bind fun _ => ?_
      refine get_reads fun s => (quiet_declareLocalRec name).reads.bind fun _ => hdecl.bind fun _ => ?_
      refine (reads_loopBody h).bind fun body => (reads_expect' _).bind fun _ => get_reads fun s' => ?_
      exact (quiet_allocS _).reads.bind fun _ => (quiet_dropLocals _).reads.bind fun _ => .pure _
    refine Ensures.bind quiet_cur.reads fun t => .ite ?_ (hrest none (pure ()) (.pure _))
    refine reads_advance.bind fun _ => reads_expectName.bind fun vname => quiet_alloc.reads.bind fun _ => ?_
    exact hrest (some vname) (declareLocalRec vname) (quiet_declareLocalRec vname).reads

theorem reads_stat (h : R.Reads src) :
    Ensures (Reads src) (parseStat R) fun _ => ReadsOrStuck src := by
  refine Ensures.bind quiet_cur.reads fun t => ?_
  cases t with
  | local_ => exact reads_advance.bind fun _ => reads_local h
  | global => exact reads_advance.bind fun _ => reads_global h
  | function =>
    refine reads_advance.bind fun _ => reads_expectName.bind fun name => (reads_funcBody h).bind fun fi => ?_
    refine quiet_alloc.reads.bind fun _ => (quiet_allocE _).reads.bind fun _ => ?_
    exact loosen (quiet_allocS _).reads
  | if_ =>
    refine reads_advance.bind fun _ => h.expr.bind fun cond => (reads_expect' _).bind fun _ => ?_
    exact h.block.bind fun b => h.ifTail.bind fun els => loosen (quiet_allocS _).reads
  | while_ =>
    refine reads_advance.bind fun _ => h.expr.bind fun cond => (reads_expect' _).bind fun _ => ?_
    refine (reads_loopBody h).bind fun body => (reads_expect' _).bind fun _ => ?_
    exact loosen (quiet_allocS _).reads
  | for_ => exact reads_advance.bind fun _ => loosen (reads_for h)
  | repeat_ =>
    refine reads_advance.bind fun _ => (reads_loopBody h).bind fun body => (reads_expect' _).bind fun _ => ?_
    exact h.expr.bind fun cond => loosen (quiet_allocS _).reads
  | colonColon =>
    refine reads_advance.bind fun _ => reads_expectName.bind fun name => (reads_expect' _).bind fun _ => ?_
    refine quiet_alloc.reads.bind fun node => (quiet_recordLabel _ _).reads.bind fun _ => ?_
    exact loosen (.pure _)
  | goto =>
    refine reads_advance.bind fun _ => reads_expectName.bind fun name => quiet_alloc.reads.bind fun node => ?_
    exact (quiet_recordGoto _ _).reads.bind fun _ => loosen (.pure _)
  | break_ =>
    refine reads_advance.bind fun _ => get_reads fun s => .ite ?_ (reads_end _)
    exact Ensures.throw_bind
  | return_ =>
    have hrest : ∀ v, Ensures (Reads src) (do
        optSemi
        allocS (.returnStmt v)) fun _ => ReadsOrStuck src := fun _ => reads_end _
    refine reads_advance.bind fun _ => Ensures.bind quiet_cur.reads fun t => .ite (hrest none) ?_
    exact h.expr.bind fun v => hrest (some v)
  | _ => exact reads_exprStat h

/-- No statement starts with a `;`. -/
theorem fails_stat (h : R.Reads src) : Fails (fun p : PState => p.cur = .semi) (parseStat R) :=
  fails_cur h.stuckExpr.bind

/-- Where the statements of a block end the parser is not stuck. -/
theorem reads_statLoop (h : R.Reads src) :
    ∀ n, Ensures (ReadsOrStuck src) (statLoop R n) fun _ => Reads src
  | 0 => .throw
  | n + 1 => by
    have hgo : Ensures (ReadsOrStuck src) (do
        let st ← parseStat R
        pure (st :: (← statLoop R n))) fun _ => Reads src := by
      refine Ensures.bind (Q := fun _ => ReadsOrStuck src) ?_ fun st => ?_
      · rintro s a s' (hs | hs) hok
        · exact reads_stat h s a s' hs hok
        · exact (fails_stat h s a s' hs hok).elim
      · exact (reads_statLoop h n).bind fun _ => .pure _
    refine Ensures.get fun s hs => .cond (fun hstop => ?_) fun _ => ?_
    · refine .ret fun p hp => hp ▸ hs.resolve_right fun hsemi => ?_
      rw [hsemi] at hstop
      cases hstop
    · exact hgo.mono (fun p hp => hp ▸ hs) fun _ _ => id

theorem reads_block (h : R.Reads src) : Maintains (Reads src) (parseBlock R) := by
  have hgo : ∀ mark, Maintains (Reads src) (do
      let b ← statLoop R R.fuel
      dropLocals mark
      resolveScope
      pure b) := by
    intro mark
    refine ((reads_statLoop h _).mono (fun _ => .inl) fun _ _ => id).bind fun b => ?_
    exact (quiet_dropLocals _).reads.bind fun _ => quiet_resolveScope.reads.bind fun _ => .pure _
  refine Ensures.get fun s hs => .ite ?_ (reads_set rfl rfl (hgo _) hs)
  exact Ensures.throw_bind

end Statements

/-! ### Whole texts -/

/-- **Every level of the parser reads on.** -/
theorem parserAt_reads (src : List UInt8) : ∀ n, (parserAt n).Reads src
  | 0 => ⟨.throw, .throw, .throw, .throw, .throw, .throw, .throw⟩
  | n + 1 =>
    have h := parserAt_reads src n
    ⟨reads_or h, reads_concat h, reads_unary h, reads_block h, reads_ifTail h, fails_expr h, fails_unary⟩

/-- **An accepted text whose first token is well formed is tokenizable, and
read to its end.** -/
theorem accepted_tokenizable {src : List UInt8} {heap : Heap} {chunks : Chunks} {t : Tok}
    (ht : (nextToken src).1 = .ok t) {n : ℕ} {b : Block} {p : PState}
    (hok : parseScriptWith (parserAt n) (PState.new src heap chunks) = .ok b p) :
    Tokenizable src ∧ p.rest = [] := by
  have hstart : Reads src (PState.new src heap chunks) := by
    refine ⟨[], ?_⟩
    have htok : nextToken src = (.ok t, (nextToken src).2) := Prod.ext ht rfl
    unfold PState.new
    rw [htok]
    exact Lexes.start.next htok
  have hend : Ensures (Reads src) (parseScriptWith (parserAt n)) fun _ q =>
      q.cur = .eof ∧ Reads src q := by
    refine (parserAt_reads src n).block.bind fun b => Ensures.get fun s hs => .cond (fun _ => ?_) fun hc => ?_
    · exact Ensures.throw_bind
    · exact .ret fun q hq => hq ▸ ⟨not_not.mp hc, hs⟩
  obtain ⟨hcur, ts, hts⟩ := hend _ b p hstart hok
  rw [hcur] at hts
  obtain ⟨mid, hmid, heof⟩ := hts.last rfl
  have hrest := nextToken_eof heof
  rw [hrest] at hts
  exact ⟨⟨ts, hts⟩, hrest⟩

/-- **A text whose first token is malformed is accepted as an empty script.** -/
theorem malformed_accepted {src : List UInt8} {m : String} (hm : (nextToken src).1 = .error m)
    (heap : Heap) (chunks : Chunks) (n : ℕ) :
    ∃ p, parseScriptWith (parserAt (n + 2)) (PState.new src heap chunks) = .ok [] p := by
  have hnew : PState.new src heap chunks =
      { rest := (nextToken src).2, cur := .eof, heap := heap, chunks := chunks } := by
    have htok : nextToken src = (.error m, (nextToken src).2) := Prod.ext hm rfl
    unfold PState.new
    rw [htok]
  rw [hnew]
  exact ⟨_, rfl⟩

/-- A text that is no token at all: `@`. -/
theorem at_sign_accepted :
    (∃ p, parseScriptWith (parserAt 3) (PState.new [64] {} {}) = .ok [] p) ∧ ¬Tokenizable [64] := by
  have hm : (nextToken [64]).1 = .error "unexpected character" := by decide +kernel
  refine ⟨malformed_accepted hm {} {} 1, ?_⟩
  rintro ⟨ts, hts⟩
  obtain ⟨t, ht⟩ := hts.first (by simp)
  rw [hm] at ht
  cases ht

/-- **The parser accepts only tokenizable text exactly when the first token of
the text is well formed.** -/
theorem accepts_tokenizable_iff (src : List UInt8) (heap : Heap) (chunks : Chunks) (n : ℕ) :
    (∀ b p, parseScriptWith (parserAt (n + 2)) (PState.new src heap chunks) = .ok b p →
      Tokenizable src ∧ p.rest = []) ↔ ∃ t, (nextToken src).1 = .ok t := by
  constructor
  · intro h
    cases hm : (nextToken src).1 with
    | ok t => exact ⟨t, rfl⟩
    | error m =>
      obtain ⟨p, hp⟩ := malformed_accepted hm heap chunks n
      obtain ⟨ts, hts⟩ := (h [] p hp).1
      obtain ⟨t, ht⟩ := hts.first (by simp)
      rw [hm] at ht
      cases ht
  · rintro ⟨t, ht⟩ b p hok
    exact accepted_tokenizable ht hok

end Lua
end Rustrapper

/-
# Table constructors

`parse_table_lit` tells a field `name = e` from a positional one by the token
behind a name, and takes a positional name for a variable without looking at
what follows it. A list of fields that `parse_expr` reads one after the other
(`ReadsTable`) is read by `parse_table_lit`, as the same trees, exactly when no
positional field starts with a name and goes on behind it (`parseTableLit_iff`).

A bare name is not resolved as `parse_expr` would: the fields behind it are
parsed with fewer captures, which is why the states are related by `Like`.
-/
import Rustrapper.Lua.Capture
import Rustrapper.Lua.Tokens

namespace Rustrapper
namespace Lua

open Effect

/-! ### The lexer moves on -/

theorem dropWhile_length_le (p : UInt8 → Bool) (cs : List UInt8) :
    (cs.dropWhile p).length ≤ cs.length := (List.dropWhile_sublist p).length_le

theorem dropWhile_length_lt {p : UInt8 → Bool} {c : UInt8} (hc : p c = true) (cs : List UInt8) :
    ((c :: cs).dropWhile p).length < (c :: cs).length := by
  rw [List.dropWhile_cons_of_pos hc]
  exact Nat.lt_succ_of_le (dropWhile_length_le p cs)

theorem skipBlank_length (cs : List UInt8) : ∀ b, (skipBlank b cs).length ≤ cs.length := by
  induction h : cs.length using Nat.strong_induction_on generalizing cs with
  | _ n ih =>
    intro b
    subst h
    cases cs with
    | nil => simp [skipBlank]
    | cons c cs =>
      have hrest : ∀ b, (skipBlank b cs).length ≤ (c :: cs).length :=
        fun b => (ih cs.length (Nat.lt_succ_self _) cs rfl b).trans (Nat.le_succ _)
      cases b with
      | true =>
        rw [skipBlank]
        split_ifs
        · exact hrest false
        · exact hrest true
      | false =>
        rw [skipBlank.eq_def]
        dsimp only
        split_ifs
        · exact hrest false
        · split
          · rename_i cs' _
            have hlt : cs'.length < (45 :: 45 :: cs').length := by
              rw [List.length_cons, List.length_cons]
              omega
            exact (ih cs'.length hlt cs' rfl true).trans hlt.le
          · exact le_rfl

theorem lexExponent_length {cs rest : List UInt8} {ep : Bool × List UInt8}
    (h : lexExponent cs = some (ep, rest)) : rest.length ≤ cs.length := by
  unfold lexExponent at h
  split at h
  · rename_i c cs'
    split_ifs at h
    split at h
    split at h
    · split_ifs at h
      cases h
      rename_i hsign _
      refine (dropWhile_length_le _ _).trans ?_
      split at hsign
      all_goals
        simp only [Prod.mk.injEq] at hsign
        obtain ⟨-, rfl⟩ := hsign
        simp
    · cases h
  · cases h

theorem lexNumberTail_length (b : Bool) (ip fp cs : List UInt8) :
    (lexNumberTail b ip fp cs).2.length ≤ cs.length := by
  unfold lexNumberTail
  split
  · rename_i he
    exact lexExponent_length he
  · split_ifs <;> exact le_rfl

theorem lexNumber_length {c : UInt8} (cs : List UInt8) (hc : isDigit c = true ∨ c = 46) :
    (lexNumber (c :: cs)).2.length < (c :: cs).length := by
  unfold lexNumber
  split
  · rename_i cs' h
    cases h
    refine (lexNumberTail_length _ _ _ _).trans_lt ?_
    exact Nat.lt_succ_of_le (dropWhile_length_le _ _)
  · rename_i hne
    have hd : isDigit c = true := hc.resolve_right fun h => hne cs (h ▸ rfl)
    have hlt := dropWhile_length_lt hd cs
    dsimp only
    split
    · rename_i t h
      rw [h] at hlt
      exact (lexNumberTail_length _ _ _ _).trans_lt hlt
    · rename_i t _ h
      rw [h] at hlt
      refine (lexNumberTail_length _ _ _ _).trans_lt ?_
      have := dropWhile_length_le isDigit t
      simp only [List.length_cons] at hlt ⊢
      omega
    · exact (lexNumberTail_length _ _ _ _).trans_lt hlt

theorem lexStringBody_length (q : UInt8) (cs : List UInt8) :
    ∀ acc, (lexStringBody q cs acc).2.length ≤ cs.length := by
  induction h : cs.length using Nat.strong_induction_on generalizing cs with
  | _ n ih =>
    intro acc
    subst h
    cases cs with
    | nil => simp [lexStringBody]
    | cons c cs =>
      have hrest : ∀ acc, (lexStringBody q cs acc).2.length ≤ (c :: cs).length :=
        fun acc => (ih cs.length (Nat.lt_succ_self _) cs rfl acc).trans (Nat.le_succ _)
      rw [lexStringBody.eq_def]
      dsimp only
      split_ifs
      · exact Nat.le_succ _
      · exact Nat.le_succ _
      · split
        · simp
        · rename_i d cs'
          have hlt : cs'.length < (c :: d :: cs').length := by
            rw [List.length_cons, List.length_cons]
            omega
          split
          · exact hlt.le
          · exact hlt.le
      · split
        · simp
        · rename_i d cs'
          have hlt : cs'.length < (c :: d :: cs').length := by
            rw [List.length_cons, List.length_cons]
            omega
          split
          · exact hlt.le
          · exact (ih cs'.length hlt cs' rfl _).trans hlt.le
      · exact Nat.le_succ _
      · exact hrest _

theorem lexName_length {c : UInt8} (cs : List UInt8) (hc : isAlpha c = true) :
    (lexName (c :: cs)).2.length < (c :: cs).length := by
  have hn : isNameByte c = true := by
    unfold isNameByte
    rw [hc]
    rfl
  exact dropWhile_length_lt hn cs

theorem lexSymbol_length {cs rest : List UInt8} {t : Tok} (h : lexSymbol cs = (.ok t, rest)) :
    rest.length < cs.length := by
  unfold lexSymbol at h
  split at h <;> cases h <;> simp

/-- **A token takes bytes**, unless it is the end. -/
theorem nextToken_length {src rest : List UInt8} {t : Tok} (h : nextToken src = (.ok t, rest)) :
    t = .eof ∨ rest.length < src.length := by
  have hblank := skipBlank_length src false
  unfold nextToken at h
  split at h
  · cases h
    exact .inl rfl
  · rename_i c cs hs
    rw [hs] at hblank
    right
    refine lt_of_lt_of_le ?_ hblank
    have hrest : rest = (Prod.mk (Except.ok t : Except String Tok) rest).2 := rfl
    rw [hrest, ← h]
    split_ifs with hd hq ha hf
    · exact lexNumber_length cs (.inl hd)
    · exact Nat.lt_succ_of_le (lexStringBody_length c cs [])
    · exact lexName_length cs ha
    · exact lexNumber_length cs (.inr hf.1)
    · rw [if_neg hd, if_neg hq, if_neg ha, if_neg hf] at h
      rw [h]
      exact lexSymbol_length h

/-- The first token of a stream, and the rest. -/
theorem Lexes.uncons {src rest : List UInt8} {l : List Tok} (h : Lexes src l rest) {t : Tok}
    {ts : List Tok} (hl : l = t :: ts) : ∃ mid, nextToken src = (.ok t, mid) ∧ Lexes mid ts rest := by
  induction h generalizing ts with
  | start => cases hl
  | @next us u mid rest h ht ih =>
    cases us with
    | nil =>
      cases hl
      rw [h.eq_of_nil rfl] at ht
      exact ⟨rest, ht, .start⟩
    | cons u' us =>
      obtain ⟨rfl, rfl⟩ := List.cons.inj hl
      obtain ⟨mid', hu, hus⟩ := ih rfl
      exact ⟨mid', hu, .next hus ht⟩

/-- No stream of tokens with one in it that is not the end comes back to where it started. -/
theorem Lexes.length {src rest : List UInt8} {ts : List Tok} (h : Lexes src ts rest) :
    rest.length ≤ src.length ∧ ((∃ t ∈ ts, t ≠ .eof) → rest.length < src.length) := by
  induction h with
  | start => exact ⟨le_rfl, fun ⟨t, ht, _⟩ => absurd ht List.not_mem_nil⟩
  | @next ts t mid rest h ht ih =>
    obtain ⟨hle, hlt⟩ := ih
    have hmid : rest.length ≤ mid.length := by
      rcases nextToken_length ht with rfl | h'
      · rw [nextToken_eof ht]
        exact Nat.zero_le _
      · exact h'.le
    refine ⟨hmid.trans hle, ?_⟩
    rintro ⟨t', hmem, hne⟩
    rcases List.mem_append.mp hmem with hmem | hmem
    · exact hmid.trans_lt (hlt ⟨t', hmem, hne⟩)
    · rw [List.mem_singleton.mp hmem] at hne
      exact ((nextToken_length ht).resolve_left hne).trans_le hle

/-! ### Fields, read by `parse_expr` -/

/-- The text of a field, as tokens: an expression, a name and an expression, or
a key in brackets and an expression. -/
inductive FieldText where
  | positional (ts : List Tok)
  | named (b : List UInt8) (ts : List Tok)
  | keyed (ks ts : List Tok)

/-- How many positional fields it is. -/
def FieldText.count : FieldText → ℕ
  | .positional _ => 1
  | _ => 0

/-- A positional field that starts with a name is that name alone. -/
def FieldText.Plain : FieldText → Prop
  | .positional (.name _ :: ts) => ts = []
  | _ => True

/-- From `s` on, the tokens `ts` are an expression: `parse_expr` reads them, and
no further ones, as `e`. -/
structure ReadsExpr (R : PRec) (ts : List Tok) (e : Expr) (s s' : PState) : Prop where
  first : ts.head? = some s.cur
  tokens : Lexes s.rest (ts.tail ++ [s'.cur]) s'.rest
  run : R.expr s = .ok e s'

/-- The key of the `n`-th positional field. -/
def ordinalKey (n : ℕ) : Expr := .num (Int64.ofNat n)

/-- From `s` on, the field is its key and what `parse_expr` reads; `ord`
positional ones came before. -/
inductive ReadsField (R : PRec) (ord : ℕ) : FieldText → Expr × Expr → PState → PState → Prop where
  | positional {ts : List Tok} {v : Expr} {s s1 s2 : PState}
    (key : allocE (ordinalKey (ord + 1)) s = .ok (ordinalKey (ord + 1)) s1)
    (value : ReadsExpr R ts v s1 s2) : ReadsField R ord (.positional ts) (ordinalKey (ord + 1), v) s s2
  | named {b : List UInt8} {r : StrRef} {ts : List Tok} {v : Expr} {s s1 s2 s3 s4 s5 : PState}
    (cur : s.cur = .name b) (string : internP b s = .ok r s1) (name : advance s1 = .ok () s2)
    (equals : expect .equals "expected '='" s2 = .ok () s3)
    (key : allocE (.str r) s3 = .ok (.str r) s4) (value : ReadsExpr R ts v s4 s5) :
    ReadsField R ord (.named b ts) (.str r, v) s s5
  | keyed {ks ts : List Tok} {k v : Expr} {s s1 s2 s3 s4 s5 : PState}
    (cur : s.cur = .lBracket) (bracket : advance s = .ok () s1) (key : ReadsExpr R ks k s1 s2)
    (close : expect .rBracket "expected ']'" s2 = .ok () s3)
    (equals : expect .equals "expected '=' after '[expr]' key" s3 = .ok () s4)
    (value : ReadsExpr R ts v s4 s5) : ReadsField R ord (.keyed ks ts) (k, v) s s5

/-- From `s` on, the fields stand one after the other, with commas between them
and a brace behind the last. -/
inductive ReadsFields (R : PRec) :
    ℕ → List FieldText → List (Expr × Expr) → PState → PState → Prop where
  | last {ord : ℕ} {f : FieldText} {e : Expr × Expr} {s s1 s2 : PState} {m : ℕ}
    (field : ReadsField R ord f e s s1) (node : alloc s1 = .ok m s2) (cur : s2.cur = .rBrace) :
    ReadsFields R ord [f] [e] s s2
  | cons {ord : ℕ} {f : FieldText} {fs : List FieldText} {e : Expr × Expr} {es : List (Expr × Expr)}
    {s s1 s2 s3 s4 : PState} {m : ℕ}
    (field : ReadsField R ord f e s s1) (node : alloc s1 = .ok m s2) (cur : s2.cur = .comma)
    (comma : advance s2 = .ok () s3) (rest : ReadsFields R (ord + f.count) fs es s3 s4) :
    ReadsFields R ord (f :: fs) (e :: es) s s4

/-- From `s` on, the tokens are a table constructor with these fields. -/
inductive ReadsTable (R : PRec) : List FieldText → Expr → PState → PState → Prop where
  | empty {s s1 s2 s3 : PState} (open' : advance s = .ok () s1) (cur : s1.cur = .rBrace)
    (close : advance s1 = .ok () s2) (node : allocE (.tableLit []) s2 = .ok (.tableLit []) s3) :
    ReadsTable R [] (.tableLit []) s s3
  | fields {fs : List FieldText} {es : List (Expr × Expr)} {s s1 s2 s3 s4 : PState}
    (open' : advance s = .ok () s1) (fields : ReadsFields R 0 fs es s1 s2)
    (close : advance s2 = .ok () s3) (node : allocE (.tableLit es) s3 = .ok (.tableLit es) s4) :
    ReadsTable R fs (.tableLit es) s s4

/-! ### A name as an expression -/

/-- Go back from the result of a sequence to those of its parts. -/
theorem bind_inv {α β : Type} {x : ParseM α} {f : α → ParseM β} {s s' : PState} {b : β}
    (h : (x >>= f) s = .ok b s') : ∃ a s1, x s = .ok a s1 ∧ f a s1 = .ok b s' := by
  change EStateM.bind x f s = _ at h
  unfold EStateM.bind at h
  cases hx : x s with
  | error e s1 =>
    rw [hx] at h
    cases h
  | ok a s1 =>
    rw [hx] at h
    exact ⟨a, s1, rfl, h⟩

/-- What ends an expression in a table. -/
def Tok.ends (t : Tok) : Prop := t = .comma ∨ t = .rBrace ∨ t = .equals

/-- What `x` yields starts with what `parse_atom` does, and is that if the token
behind it ends the expression. -/
def FromAtom (x : ParseM Expr) : Prop :=
  ∀ s e s', s.cur ≠ .not → s.cur ≠ .minus → x s = .ok e s' →
    ∃ R a s1, parseAtom R s = .ok a s1 ∧ (s1.cur.ends → e = a ∧ s' = s1)

theorem leftAssoc_ends {opOf : Tok → Option Op} (hop : ∀ t : Tok, t.ends → opOf t = none)
    {sub : ParseM Expr} {n : ℕ} {l e : Expr} {s s' : PState} (ht : s.cur.ends)
    (h : leftAssoc opOf sub n l s = .ok e s') : e = l ∧ s' = s := by
  cases n with
  | zero => cases h
  | succ n =>
    rw [leftAssoc] at h
    obtain ⟨t, s1, hc, h⟩ := bind_inv h
    cases hc
    rw [hop _ ht] at h
    cases h
    exact ⟨rfl, rfl⟩

theorem FromAtom.leftAssoc {x : ParseM Expr} (hx : FromAtom x) {opOf : Tok → Option Op}
    (hop : ∀ t : Tok, t.ends → opOf t = none) (sub : ParseM Expr) (n : ℕ) :
    FromAtom (x >>= leftAssoc opOf sub n) := by
  intro s e s' hnot hminus h
  obtain ⟨l, s2, hl, h⟩ := bind_inv h
  obtain ⟨R, a, s1, hatom, hends⟩ := hx s l s2 hnot hminus hl
  refine ⟨R, a, s1, hatom, fun ht => ?_⟩
  obtain ⟨rfl, rfl⟩ := hends ht
  exact leftAssoc_ends hop ht h

theorem suffixLoop_ends {R : PRec} {n : ℕ} {l e : Expr} {s s' : PState} (ht : s.cur.ends)
    (h : suffixLoop R n l s = .ok e s') : e = l ∧ s' = s := by
  cases n with
  | zero => cases h
  | succ n =>
    rw [suffixLoop] at h
    obtain ⟨t, s1, hc, h⟩ := bind_inv h
    cases hc
    rcases ht with ht | ht | ht <;> rw [ht] at h <;> cases h <;> exact ⟨rfl, rfl⟩

theorem fromAtom_unary (R : PRec) : FromAtom (parseUnary R) := by
  intro s e s' hnot hminus h
  rw [parseUnary] at h
  obtain ⟨t, s1, hc, h⟩ := bind_inv h
  cases hc
  have hprim : parsePrimary R s = .ok e s' := by
    cases ht : s.cur with
    | not => exact absurd ht hnot
    | minus => exact absurd ht hminus
    | _ =>
      rw [ht] at h
      exact h
  obtain ⟨a, s1, hatom, h⟩ := bind_inv hprim
  exact ⟨R, a, s1, hatom, fun ht => suffixLoop_ends ht h⟩

theorem FromAtom.throw (x : Exc) : FromAtom (throw x) := by
  intro s e s' _ _ h
  cases h

theorem fromAtom_recUnary (n : ℕ) : FromAtom (parserAt n).unary := by
  cases n with
  | zero => exact .throw _
  | succ n => exact fromAtom_unary _

theorem fromAtom_addsub (n : ℕ) : FromAtom (parseAddsub (parserAt n)) := by
  refine FromAtom.leftAssoc (FromAtom.leftAssoc (fromAtom_recUnary n) ?_ _ _) ?_ _ _
  · rintro t (rfl | rfl | rfl) <;> rfl
  · rintro t (rfl | rfl | rfl) <;> rfl

theorem fromAtom_concat (n : ℕ) : FromAtom (parseConcat (parserAt n)) := by
  intro s e s' hnot hminus h
  rw [parseConcat] at h
  obtain ⟨l, s2, hl, h⟩ := bind_inv h
  obtain ⟨R, a, s1, hatom, hends⟩ := fromAtom_addsub n s l s2 hnot hminus hl
  refine ⟨R, a, s1, hatom, fun ht => ?_⟩
  obtain ⟨rfl, rfl⟩ := hends ht
  obtain ⟨t, s3, hc, h⟩ := bind_inv h
  cases hc
  have hne : s2.cur ≠ .dotDot := by
    rcases ht with ht | ht | ht <;> rw [ht] <;> simp
  rw [if_neg hne] at h
  cases h
  exact ⟨rfl, rfl⟩

theorem fromAtom_expr (n : ℕ) : FromAtom (parserAt n).expr := by
  cases n with
  | zero => exact .throw _
  | succ n =>
    refine FromAtom.leftAssoc (FromAtom.leftAssoc (FromAtom.leftAssoc (fromAtom_concat n) ?_ _ _) ?_ _ _) ?_ _ _
    · rintro t (rfl | rfl | rfl) <;> rfl
    · rintro t (rfl | rfl | rfl) <;> rfl
    · rintro t (rfl | rfl | rfl) <;> rfl

/-- No expression starts with a bracket or a closing brace. -/
theorem expr_starts {n : ℕ} {s s' : PState} {e : Expr} (h : (parserAt n).expr s = .ok e s') :
    s.cur ≠ .lBracket ∧ s.cur ≠ .rBrace := by
  constructor <;> intro hc <;>
    obtain ⟨R, a, s1, hatom, -⟩ := fromAtom_expr n s e s' (by rw [hc]; simp) (by rw [hc]; simp) h <;>
    rw [parseAtom] at hatom <;> obtain ⟨t, s2, hcur, hatom⟩ := bind_inv hatom <;> cases hcur <;>
    rw [hc] at hatom <;> cases hatom

theorem advance_inv {s s' : PState} (h : advance s = .ok () s') :
    nextToken s.rest = (.ok s'.cur, s'.rest) ∧ s' = { s with cur := s'.cur, rest := s'.rest } := by
  unfold advance at h
  have h := (run_get _).symm.trans h
  rcases hn : nextToken s.rest with ⟨r, rest⟩
  rw [hn] at h
  cases r with
  | error m => cases h
  | ok t =>
    cases h
    exact ⟨rfl, rfl⟩

theorem internP_inv {b : List UInt8} {s s' : PState} {r : StrRef} (h : internP b s = .ok r s') :
    s' = { s with heap := s'.heap } := by
  unfold internP at h
  have h := (run_get _).symm.trans h
  cases hi : s.heap.intern b with
  | error m =>
    rw [hi] at h
    cases h
  | ok p =>
    rw [hi] at h
    cases h
    rfl

theorem resolveName_inv {r : StrRef} {s s' : PState} (h : resolveName r s = .ok () s') :
    s' = { s with locals := s'.locals, funcs := s'.funcs } := by
  unfold resolveName at h
  have h := (run_get _).symm.trans h
  cases hs : s.locals.find? fun l => l.name = r with
  | none =>
    rw [hs] at h
    cases h
    rfl
  | some l =>
    rw [hs] at h
    dsimp only at h
    split_ifs at h
    · cases h
      rfl
    · cases hu : addUps r (s.funcs.length - (l.func + 1)) s.funcs with
      | none =>
        rw [hu] at h
        cases h
      | some fs =>
        rw [hu] at h
        cases h
        rfl

theorem alloc_inv {s s' : PState} {m : ℕ} (h : alloc s = .ok m s') :
    s' = { s with chunks := { s.chunks with nodeUsed := s.chunks.nodeUsed + 1 } } := by
  unfold alloc at h
  have h := (run_get _).symm.trans h
  split_ifs at h
  · cases h
  · cases h
    rfl

theorem allocE_inv {s s' : PState} {e e' : Expr} (h : allocE e s = .ok e' s') :
    e' = e ∧ ∃ m, alloc s = .ok m s' := by
  obtain ⟨m, s1, ha, h⟩ := bind_inv h
  cases h
  exact ⟨rfl, m, ha⟩

/-- An expression that starts with a name: the name is resolved, and is all
there is if the token behind it ends the expression. -/
theorem expr_name {n : ℕ} {s s' : PState} {e : Expr} {b : List UInt8} (hc : s.cur = .name b)
    (h : (parserAt n).expr s = .ok e s') : ∃ r s1 s2 s3 s4, internP b s = .ok r s1 ∧
      advance s1 = .ok () s2 ∧ resolveName r s2 = .ok () s3 ∧ allocE (.var r) s3 = .ok (.var r) s4 ∧
        (s2.cur.ends → e = .var r ∧ s' = s4) := by
  obtain ⟨R, a, s4, hatom, hends⟩ := fromAtom_expr n s e s' (by rw [hc]; simp) (by rw [hc]; simp) h
  rw [parseAtom] at hatom
  obtain ⟨t, s0, hcur, hatom⟩ := bind_inv hatom
  cases hcur
  rw [hc] at hatom
  obtain ⟨r, s1, hi, hatom⟩ := bind_inv hatom
  obtain ⟨u, s2, hadv, hatom⟩ := bind_inv hatom
  obtain ⟨u', s3, hres, hatom⟩ := bind_inv hatom
  obtain ⟨rfl, m, hal⟩ := allocE_inv hatom
  have hcur : s4.cur = s2.cur := by
    rw [alloc_inv hal, resolveName_inv hres]
  exact ⟨r, s1, s2, s3, s4, hi, hadv, hres, hatom, fun ht => hends (hcur ▸ ht)⟩

/-! ### The fields of a table literal -/

/-- `t` is `s` with fewer captures. -/
def Near (s t : PState) : Prop := ∃ L, Like L 0 s t

theorem Near.refl (s : PState) : Near s s := ⟨_, Like.refl s⟩

theorem Near.cur {s t : PState} (h : Near s t) : t.cur = s.cur := h.elim fun _ h => h.cur

theorem near_keep {α : Type} {x : ParseM α} (hx : ∀ L, Keeps (Like L 0) x) : Keeps Near x := by
  rintro s t a s' ⟨L, h⟩ hrun
  obtain ⟨t', ht, h'⟩ := hx L s t a s' h hrun
  exact ⟨t', ht, L, h'⟩

theorem Near.resolve_left {s s' t : PState} (h : Near s t) {r : StrRef} (hr : resolveName r s = .ok () s') :
    Near s' t := h.elim fun _ h => ⟨_, h.rebase.resolve_left le_rfl hr⟩

theorem near_expr (n : ℕ) : Keeps Near (parserAt n).expr := near_keep fun L => (parserAt_alike L n).expr 0

/-- What may follow a field. -/
def Tok.closes (t : Tok) : Prop := t = .comma ∨ t = .rBrace

theorem Tok.closes.ends {t : Tok} (h : t.closes) : t.ends := h.imp id .inl

/-- `field_loop` behind a field. -/
def fieldRest (R : PRec) (n : ℕ) (field : Expr × Expr) (ord : ℕ) : ParseM (List (Expr × Expr)) := do
  let _ ← alloc
  if (← cur) = .comma then do
    advance
    pure (field :: (← fieldLoop R n ord))
  else pure [field]

/-- An allocation may come later. -/
theorem alloc_internP {b : List UInt8} {s s1 s2 : PState} {m : ℕ} {r : StrRef} (ha : alloc s = .ok m s1)
    (hi : internP b s1 = .ok r s2) : ∃ s', internP b s = .ok r s' ∧ alloc s' = .ok m s2 := by
  unfold alloc at ha ⊢
  unfold internP at hi ⊢
  have ha := (run_get _).symm.trans ha
  have hi := (run_get _).symm.trans hi
  by_cases hroom : s.chunks.nodeUsed ≥ MAX_NODES
  · rw [if_pos hroom] at ha
    cases ha
  · rw [if_neg hroom] at ha
    cases ha
    cases hin : s.heap.intern b with
    | error e =>
      rw [hin] at hi
      cases hi
    | ok p =>
      rw [hin] at hi
      cases hi
      refine ⟨{ s with heap := p.2 }, (run_get _).trans ?_, (run_get _).trans ?_⟩
      · rw [hin]
        rfl
      · rw [if_neg hroom]
        rfl

theorem alloc_advance {s s1 s2 : PState} {m : ℕ} (ha : alloc s = .ok m s1) (hadv : advance s1 = .ok () s2) :
    ∃ s', advance s = .ok () s' ∧ alloc s' = .ok m s2 := by
  unfold alloc at ha ⊢
  unfold advance at hadv ⊢
  have ha := (run_get _).symm.trans ha
  have hadv := (run_get _).symm.trans hadv
  by_cases hroom : s.chunks.nodeUsed ≥ MAX_NODES
  · rw [if_pos hroom] at ha
    cases ha
  · rw [if_neg hroom] at ha
    cases ha
    rcases hn : nextToken s.rest with ⟨r, rest⟩
    dsimp only at hadv
    rw [hn] at hadv
    cases r with
    | error e => cases hadv
    | ok t =>
      cases hadv
      refine ⟨{ s with cur := t, rest := rest }, (run_get _).trans ?_, (run_get _).trans ?_⟩
      · rw [hn]
        rfl
      · rw [if_neg hroom]
        rfl

theorem run_allocE_of {s s' : PState} {m : ℕ} (h : alloc s = .ok m s') (e : Expr) :
    allocE e s = .ok e s' := (run_bind h _).trans rfl

theorem Lexes.single {src rest : List UInt8} {t : Tok} (h : Lexes src [t] rest) :
    nextToken src = (.ok t, rest) := by
  obtain ⟨mid, hmid, ht⟩ := @Lexes.last _ _ _ [] t h rfl
  rwa [hmid.eq_of_nil rfl] at ht

section Fields
variable {n ord : ℕ} {s s1 t : PState} {e : Expr × Expr}

/-- A positional name alone is read as `parse_expr` reads it, but not resolved. -/
theorem fieldLoop_name {b : List UInt8} {v : Expr} {s2 : PState} {m : ℕ}
    (hkey : alloc s = .ok m s1) (hcur : s1.cur = .name b) (hv : ReadsExpr (parserAt n) [.name b] v s1 s2)
    (hc : s2.cur.closes) (hst : Near s t) : ∃ t1, Near s2 t1 ∧
      ∀ k, fieldLoop (parserAt n) (k + 1) ord t =
        fieldRest (parserAt n) k (ordinalKey (ord + 1), v) (ord + 1) t1 := by
  obtain ⟨r, sa, sb, sc, sd, hi, hadv, hres, hvar, hend⟩ := expr_name hcur hv.run
  -- the token behind the name ends the field
  have hnext : nextToken s1.rest = (.ok s2.cur, s2.rest) := hv.tokens.single
  have hsb : sb.cur = s2.cur := by
    have h1 := (advance_inv hadv).1
    have h2 : sa.rest = s1.rest := by rw [internP_inv hi]
    rw [h2, hnext] at h1
    exact (Except.ok.inj (Prod.ext_iff.mp h1).1).symm
  obtain ⟨rfl, rfl⟩ := hend (hsb ▸ hc.ends)
  obtain ⟨x1, hi', ha1⟩ := alloc_internP hkey hi
  obtain ⟨x2, hadv', ha2⟩ := alloc_advance ha1 hadv
  obtain ⟨t1, ht1, hst1⟩ := near_keep (fun _ => like_internP b) s t r x1 hst hi'
  obtain ⟨t2, ht2, hst2⟩ := near_keep (fun _ => like_advance) x1 t1 () x2 hst1 hadv'
  obtain ⟨t3, ht3, hst3⟩ := near_keep (fun _ => like_allocE _) x2 t2 _ sb hst2
    (run_allocE_of ha2 (ordinalKey (ord + 1)))
  obtain ⟨t4, ht4, hst4⟩ := near_keep (fun _ => like_allocE _) sc t3 _ s2 (hst3.resolve_left hres) hvar
  refine ⟨t4, hst4, fun k => ?_⟩
  have htc : t.cur = .name b := by
    rw [hst.cur, ← hcur, alloc_inv hkey]
  have ht2c : t2.cur ≠ .equals := by
    have hx : x2.cur = sb.cur := by rw [alloc_inv ha2]
    rw [hst2.cur, hx, hsb]
    rcases hc with hc | hc <;> rw [hc] <;> simp
  have hcur_run : ∀ (u : PState) (g : Tok → ParseM (List (Expr × Expr))), (cur >>= g) u = g u.cur u :=
    fun _ _ => rfl
  rw [fieldLoop, hcur_run, htc]
  refine (run_bind ht1 _).trans ((run_bind ht2 _).trans ?_)
  rw [hcur_run, if_neg ht2c]
  exact (run_bind ht3 _).trans (run_bind ht4 _)

theorem run_cur_eq {α : Type} (u : PState) (g : Tok → ParseM α) : (cur >>= g) u = g u.cur u := rfl

/-- A positional field that does not start with a name is read by `parse_expr` itself. -/
theorem fieldLoop_expr {v : Expr} {s2 : PState} {m : ℕ} (hkey : alloc s = .ok m s1)
    (hcur : ∀ b, s1.cur ≠ .name b) (hv : (parserAt n).expr s1 = .ok v s2) (hst : Near s t) :
    ∃ t1, Near s2 t1 ∧ ∀ k, fieldLoop (parserAt n) (k + 1) ord t =
      fieldRest (parserAt n) k (ordinalKey (ord + 1), v) (ord + 1) t1 := by
  obtain ⟨t1, ht1, hst1⟩ := near_keep (fun _ => like_allocE _) s t _ s1 hst
    (run_allocE_of hkey (ordinalKey (ord + 1)))
  obtain ⟨t2, ht2, hst2⟩ := near_expr n s1 t1 v s2 hst1 hv
  refine ⟨t2, hst2, fun k => ?_⟩
  obtain ⟨hbracket, -⟩ := expr_starts hv
  have htc : t.cur = s1.cur := by rw [hst.cur, alloc_inv hkey]
  rw [fieldLoop, run_cur_eq, htc]
  cases hc : s1.cur with
  | lBracket => exact absurd hc hbracket
  | name b => exact absurd hc (hcur b)
  | _ => exact (run_bind ht1 _).trans (run_bind ht2 _)

/-- A field that is plain is read as `parse_expr` reads it. -/
theorem fieldLoop_plain {f : FieldText} (hf : ReadsField (parserAt n) ord f e s s1) (hp : f.Plain)
    (hc : s1.cur.closes) (hst : Near s t) : ∃ t1, Near s1 t1 ∧
      ∀ k, fieldLoop (parserAt n) (k + 1) ord t = fieldRest (parserAt n) k e (ord + f.count) t1 := by
  cases hf with
  | @positional ts v _ s2 _ key value =>
    obtain ⟨-, m, hal⟩ := allocE_inv key
    by_cases hname : ∃ b, s2.cur = .name b
    · obtain ⟨b, hb⟩ := hname
      have hts : ts = [.name b] := by
        have hfirst := value.first
        cases ts with
        | nil => cases hfirst
        | cons t₀ ts =>
          have ht₀ : t₀ = .name b := (Option.some.inj hfirst).trans hb
          subst ht₀
          rw [show ts = [] from hp]
      subst hts
      exact fieldLoop_name hal hb value hc hst
    · exact fieldLoop_expr hal (fun b hb => hname ⟨b, hb⟩) value.run hst
  | @named b r ts v _ sa sb sc sd _ cur string name equals key value =>
    obtain ⟨t1, ht1, hst1⟩ := near_keep (fun _ => like_internP _) _ _ _ _ hst string
    obtain ⟨t2, ht2, hst2⟩ := near_keep (fun _ => like_advance) _ _ _ _ hst1 name
    obtain ⟨u, se, hcur, hadv⟩ := bind_inv equals
    cases hcur
    have heq : sb.cur = .equals := by
      by_contra hne
      rw [if_neg hne] at hadv
      cases hadv
    rw [if_pos heq] at hadv
    obtain ⟨t3, ht3, hst3⟩ := near_keep (fun _ => like_advance) _ _ _ _ hst2 hadv
    obtain ⟨t4, ht4, hst4⟩ := near_keep (fun _ => like_allocE _) _ _ _ _ hst3 key
    obtain ⟨t5, ht5, hst5⟩ := near_expr n _ _ _ _ hst4 value.run
    refine ⟨t5, hst5, fun k => ?_⟩
    rw [fieldLoop, run_cur_eq, hst.cur, cur]
    refine (run_bind ht1 _).trans ((run_bind ht2 _).trans ?_)
    rw [run_cur_eq, if_pos (hst2.cur.trans heq)]
    exact (run_bind ht3 _).trans ((run_bind ht4 _).trans (run_bind ht5 _))
  | @keyed ks ts key v _ sa sb sc sd _ cur bracket hkey close equals value =>
    obtain ⟨t1, ht1, hst1⟩ := near_keep (fun _ => like_advance) _ _ _ _ hst bracket
    obtain ⟨t2, ht2, hst2⟩ := near_expr n _ _ _ _ hst1 hkey.run
    obtain ⟨t3, ht3, hst3⟩ := near_keep (fun _ => like_expect _ _) _ _ _ _ hst2 close
    obtain ⟨t4, ht4, hst4⟩ := near_keep (fun _ => like_expect _ _) _ _ _ _ hst3 equals
    obtain ⟨t5, ht5, hst5⟩ := near_expr n _ _ _ _ hst4 value.run
    refine ⟨t5, hst5, fun k => ?_⟩
    rw [fieldLoop, run_cur_eq, hst.cur, cur]
    refine (run_bind ht1 _).trans ((run_bind ht2 _).trans ((run_bind ht3 _).trans ?_))
    exact (run_bind ht4 _).trans (run_bind ht5 _)

/-- What follows a name that is not all of a positional field neither ends the
field nor makes it a named one. -/
theorem name_goes_on {b : List UInt8} {t₂ : Tok} {ts : List Tok} {v : Expr}
    (hv : ReadsExpr (parserAt n) (.name b :: t₂ :: ts) v s s1) (hc : s1.cur.closes) :
    ∃ rest, nextToken s.rest = (.ok t₂, rest) ∧ ¬t₂.ends := by
  have hcur : s.cur = .name b := (Option.some.inj hv.first).symm
  obtain ⟨r, sa, sb, sc, sd, hi, hadv, hres, hvar, hend⟩ := expr_name hcur hv.run
  obtain ⟨mid, hnext, htokens⟩ := hv.tokens.uncons rfl
  have hsb : sb.cur = t₂ ∧ sb.rest = mid := by
    have h1 := (advance_inv hadv).1
    have h2 : sa.rest = s.rest := by rw [internP_inv hi]
    rw [h2, hnext] at h1
    obtain ⟨h3, h4⟩ := Prod.mk.inj h1
    exact ⟨(Except.ok.inj h3).symm, h4.symm⟩
  refine ⟨mid, hnext, fun ht => ?_⟩
  obtain ⟨-, rfl⟩ := hend (hsb.1 ▸ ht)
  -- the parser would be where it was, with tokens read
  have hback : s1.rest = mid := by
    rw [← hsb.2, alloc_inv (allocE_inv hvar).2.choose_spec, resolveName_inv hres]
  have hlt := htokens.length.2 ⟨s1.cur, by simp, by rcases hc with hc | hc <;> rw [hc] <;> simp⟩
  rw [hback] at hlt
  exact absurd hlt (lt_irrefl _)

/-- A positional field that starts with a name and goes on is not read. -/
theorem fieldLoop_cut {f : FieldText} (hf : ReadsField (parserAt n) ord f e s s1) (hp : ¬f.Plain)
    (hc : s1.cur.closes) (hst : Near s t) (k : ℕ) {es : List (Expr × Expr)} {t' : PState}
    (hrun : fieldLoop (parserAt n) (k + 1) ord t = .ok es t') : t'.cur ≠ .rBrace := by
  cases hf with
  | named => exact absurd trivial hp
  | keyed => exact absurd trivial hp
  | @positional ts v _ s2 _ key value =>
    obtain ⟨-, m, hal⟩ := allocE_inv key
    obtain ⟨b, t₂, ts, rfl⟩ : ∃ b t₂ ts', ts = .name b :: t₂ :: ts' := by
      unfold FieldText.Plain at hp
      split at hp
      · rename_i b ts'  heq
        cases heq
        obtain ⟨t₂, ts'', rfl⟩ := List.exists_cons_of_ne_nil hp
        exact ⟨b, t₂, ts'', rfl⟩
      · exact absurd trivial hp
    have hcur : s2.cur = .name b := (Option.some.inj value.first).symm
    obtain ⟨rest, hnext, hends⟩ := name_goes_on value hc
    have hrest : t.rest = s2.rest := by
      obtain ⟨L, hL⟩ := hst
      rw [hL.rest, alloc_inv hal]
    have htc : t.cur = .name b := by rw [hst.cur, ← hcur, alloc_inv hal]
    rw [fieldLoop, run_cur_eq, htc] at hrun
    obtain ⟨r, t1, hi, hrun⟩ := bind_inv hrun
    obtain ⟨u, t2, hadv, hrun⟩ := bind_inv hrun
    have ht2 : t2.cur = t₂ := by
      have h1 := (advance_inv hadv).1
      have h2 : t1.rest = s2.rest := by rw [← hrest, internP_inv hi]
      rw [h2, hnext] at h1
      exact (Except.ok.inj (Prod.mk.inj h1).1).symm
    have hne : t2.cur ≠ .equals := fun h => hends (.inr (.inr (ht2 ▸ h)))
    rw [run_cur_eq, if_neg hne] at hrun
    obtain ⟨k1, t3, ha3, hrun⟩ := bind_inv hrun
    obtain ⟨k2, t4, ha4, hrun⟩ := bind_inv hrun
    obtain ⟨p, t4', hp4, hrun⟩ := bind_inv hrun
    cases hp4
    obtain ⟨k3, t5, ha5, hrun⟩ := bind_inv hrun
    have ht5 : t5.cur = t₂ := by
      rw [alloc_inv ha5, alloc_inv (allocE_inv ha4).2.choose_spec, alloc_inv (allocE_inv ha3).2.choose_spec]
      exact ht2
    have hcomma : t5.cur ≠ .comma := fun h => hends (.inl (ht5 ▸ h))
    rw [run_cur_eq, if_neg hcomma] at hrun
    cases hrun
    exact fun h => hends (.inr (.inl (ht5 ▸ h)))

end Fields

/-! ### Whole tables -/

theorem fieldRest_last {R : PRec} {k ord m : ℕ} {e : Expr × Expr} {t t1 : PState}
    (ha : alloc t = .ok m t1) (hc : t1.cur = .rBrace) : fieldRest R k e ord t = .ok [e] t1 := by
  refine (run_bind ha _).trans ?_
  rw [run_cur_eq, hc]
  rfl

theorem fieldRest_comma {R : PRec} {k ord m : ℕ} {e : Expr × Expr} {t t1 t2 : PState}
    (ha : alloc t = .ok m t1) (hc : t1.cur = .comma) (hadv : advance t1 = .ok () t2) :
    fieldRest R k e ord t = (fieldLoop R k ord >>= fun es => pure (e :: es)) t2 := by
  refine (run_bind ha _).trans ?_
  rw [run_cur_eq, if_pos hc]
  exact run_bind hadv _

/-- Plain fields are read, and where one is not plain the parser is not at a brace. -/
theorem fieldLoop_reads {n ord : ℕ} {fs : List FieldText} {es : List (Expr × Expr)} {s s' t : PState}
    (h : ReadsFields (parserAt n) ord fs es s s') (hst : Near s t) (k : ℕ) (hk : fs.length ≤ k) :
    ((∀ f ∈ fs, f.Plain) → ∃ t', fieldLoop (parserAt n) k ord t = .ok es t' ∧ Near s' t') ∧
      ((∃ f ∈ fs, ¬f.Plain) → ∀ es' t', fieldLoop (parserAt n) k ord t = .ok es' t' → t'.cur ≠ .rBrace) := by
  induction h generalizing t k with
  | @last ord f e s s1 s2 m field node cur =>
    obtain ⟨k, rfl⟩ : ∃ k', k = k' + 1 := ⟨k - 1, by simp at hk; omega⟩
    have hc : s1.cur.closes := by
      right
      rw [← cur, alloc_inv node]
    constructor
    · intro hp
      obtain ⟨t1, hst1, hloop⟩ := fieldLoop_plain field (hp f List.mem_cons_self) hc hst
      obtain ⟨t2, ha, hst2⟩ := near_keep (fun _ => like_alloc) _ _ _ _ hst1 node
      refine ⟨t2, ?_, hst2⟩
      rw [hloop k]
      exact fieldRest_last ha (hst2.cur.trans cur)
    · rintro ⟨f', hf', hp⟩ es' t' hrun
      rw [List.mem_singleton.mp hf'] at hp
      exact fieldLoop_cut field hp hc hst k hrun
  | @cons ord f fs e es s s1 s2 s3 s4 m field node cur comma rest ih =>
    obtain ⟨k, rfl⟩ : ∃ k', k = k' + 1 := ⟨k - 1, by simp at hk; omega⟩
    have hk' : fs.length ≤ k := by simpa using hk
    have hc : s1.cur.closes := by
      left
      rw [← cur, alloc_inv node]
    by_cases hpf : f.Plain
    · obtain ⟨t1, hst1, hloop⟩ := fieldLoop_plain field hpf hc hst
      obtain ⟨t2, ha, hst2⟩ := near_keep (fun _ => like_alloc) _ _ _ _ hst1 node
      obtain ⟨t3, hadv, hst3⟩ := near_keep (fun _ => like_advance) _ _ _ _ hst2 comma
      obtain ⟨ih1, ih2⟩ := ih hst3 k hk'
      have hgo := @fieldRest_comma (parserAt n) k (ord + f.count) _ e _ _ _ ha
        (hst2.cur.trans cur) hadv
      constructor
      · intro hp
        obtain ⟨t4, hrest, hst4⟩ := ih1 fun f' hf' => hp f' (List.mem_cons_of_mem _ hf')
        refine ⟨t4, ?_, hst4⟩
        rw [hloop k, hgo]
        exact run_bind hrest _
      · rintro ⟨f', hf', hp⟩ es' t' hrun
        have hmem : f' ∈ fs := (List.mem_cons.mp hf').resolve_left fun h => hp (h ▸ hpf)
        rw [hloop k, hgo] at hrun
        obtain ⟨es₁, t4, hrest, hrun⟩ := bind_inv hrun
        cases hrun
        exact ih2 ⟨f', hmem, hp⟩ es₁ t' hrest
    · constructor
      · intro hp
        exact absurd (hp f List.mem_cons_self) hpf
      · rintro - es' t' hrun
        exact fieldLoop_cut field hpf hc hst k hrun

theorem ReadsFields.ends {R : PRec} {ord : ℕ} {fs : List FieldText} {es : List (Expr × Expr)}
    {s s' : PState} (h : ReadsFields R ord fs es s s') : s'.cur = .rBrace := by
  induction h with
  | last _ _ cur => exact cur
  | cons _ _ _ _ _ ih => exact ih

theorem ReadsField.starts {n ord : ℕ} {f : FieldText} {e : Expr × Expr} {s s' : PState}
    (h : ReadsField (parserAt n) ord f e s s') : s.cur ≠ .rBrace := by
  cases h with
  | positional key value =>
    have hne := (expr_starts value.run).2
    rwa [alloc_inv (allocE_inv key).2.choose_spec] at hne
  | named cur =>
    rw [cur]
    simp
  | keyed cur =>
    rw [cur]
    simp

theorem ReadsFields.starts {n ord : ℕ} {fs : List FieldText} {es : List (Expr × Expr)} {s s' : PState}
    (h : ReadsFields (parserAt n) ord fs es s s') : s.cur ≠ .rBrace := by
  cases h with
  | last field => exact field.starts
  | cons field => exact field.starts

/-- Plain fields are accepted. -/
theorem parseTableLit_plain {n : ℕ} {fs : List FieldText} {e : Expr} {s s' : PState}
    (h : ReadsTable (parserAt n) fs e s s') (hn : fs.length ≤ n) (hp : ∀ f ∈ fs, f.Plain) :
    ∃ t, parseTableLit (parserAt n) s = .ok e t := by
  cases h with
  | @empty _ s1 s2 _ open' cur close node =>
    have hexp : expect .rBrace "expected '\x7d' in table literal" s1 = .ok () s2 := by
      rw [expect, run_cur_eq, if_pos cur]
      exact close
    refine ⟨s', ?_⟩
    rw [parseTableLit, run_bind open', run_cur_eq, if_pos cur]
    exact (run_bind hexp _).trans node
  | @fields _ es _ s1 s2 s3 _ open' fields close node =>
    obtain ⟨t1, hfs, hst1⟩ := (fieldLoop_reads fields (Near.refl s1) n hn).1 hp
    obtain ⟨t2, hadv, hst2⟩ := near_keep (fun _ => like_advance) _ _ _ _ hst1 close
    obtain ⟨t3, hal, hst3⟩ := near_keep (fun _ => like_allocE _) _ _ _ _ hst2 node
    have hexp : expect .rBrace "expected '\x7d' in table literal" t1 = .ok () t2 := by
      rw [expect, run_cur_eq, if_pos (hst1.cur.trans fields.ends)]
      exact hadv
    refine ⟨t3, ?_⟩
    rw [parseTableLit, run_bind open', run_cur_eq, if_neg fields.starts, parserAt_fuel, run_bind hfs]
    exact (run_bind hexp _).trans hal

/-- Where a field is not plain nothing is accepted. -/
theorem parseTableLit_cut {n : ℕ} {fs : List FieldText} {e : Expr} {s s' : PState}
    (h : ReadsTable (parserAt n) fs e s s') (hn : fs.length ≤ n) (hp : ∃ f ∈ fs, ¬f.Plain) (e' : Expr)
    (t : PState) : parseTableLit (parserAt n) s ≠ .ok e' t := by
  intro hrun
  cases h with
  | empty =>
    obtain ⟨f, hf, -⟩ := hp
    exact List.not_mem_nil hf
  | @fields _ es _ s1 s2 s3 _ open' fields close node =>
    rw [parseTableLit, run_bind open', run_cur_eq, if_neg fields.starts, parserAt_fuel] at hrun
    obtain ⟨es', t', hfs, hrun⟩ := bind_inv hrun
    have hne := (fieldLoop_reads fields (Near.refl s1) n hn).2 hp es' t' hfs
    obtain ⟨u, t'', hexp, -⟩ := bind_inv hrun
    rw [expect, run_cur_eq, if_neg hne] at hexp
    cases hexp

/-- **Table constructors accept exactly the plain fields.** A list of fields that
`parse_expr` reads one after the other is read by `parse_table_lit`, with the
same trees, if and only if no positional field starts with a name and goes on. -/
theorem parseTableLit_iff {n : ℕ} {fs : List FieldText} {e : Expr} {s s' : PState}
    (h : ReadsTable (parserAt n) fs e s s') (hn : fs.length ≤ n) :
    (∃ t, parseTableLit (parserAt n) s = .ok e t) ↔ ∀ f ∈ fs, f.Plain := by
  constructor
  · rintro ⟨t, hrun⟩
    by_contra hp
    push Not at hp
    exact parseTableLit_cut h hn hp e t hrun
  · exact parseTableLit_plain h hn

/-- The parser at a token, with these strings interned and so many nodes allocated. -/
def atTok (rest : List UInt8) (cur : Tok) (strregs : List (ℕ × List UInt8)) (nodes : ℕ) : PState where
  rest := rest
  cur := cur
  heap := { strregs := strregs, strNext := strregs.length }
  chunks := { nodeUsed := nodes }

/-- `{a,1}`, field by field. -/
theorem pair_reads : ReadsTable (parserAt 4) [.positional [.name [97]], .positional [.num 1]]
    (.tableLit [(ordinalKey 1, .var 1), (ordinalKey 2, .num 1)])
    (atTok [97, 44, 49, 125] .lBrace [] 0) (atTok [] .eof [(0, [97])] 7) := by
  have hname : ReadsExpr (parserAt 4) [.name [97]] (.var 1)
      (atTok [44, 49, 125] (.name [97]) [] 1) (atTok [49, 125] .comma [(0, [97])] 2) :=
    ⟨rfl, .next .start rfl, rfl⟩
  have hnum : ReadsExpr (parserAt 4) [.num 1] (.num 1)
      (atTok [125] (.num 1) [(0, [97])] 4) (atTok [] .rBrace [(0, [97])] 5) :=
    ⟨rfl, .next .start rfl, rfl⟩
  have hlast : ReadsFields (parserAt 4) 1 [.positional [.num 1]] [(ordinalKey 2, .num 1)]
      (atTok [125] (.num 1) [(0, [97])] 3) (atTok [] .rBrace [(0, [97])] 6) :=
    .last (.positional rfl hnum) rfl rfl
  have hnode : alloc (atTok [49, 125] .comma [(0, [97])] 2) = .ok 2 (atTok [49, 125] .comma [(0, [97])] 3) :=
    rfl
  have hopen : advance (atTok [97, 44, 49, 125] .lBrace [] 0) =
      .ok () (atTok [44, 49, 125] (.name [97]) [] 0) := rfl
  have hclose : advance (atTok [] .rBrace [(0, [97])] 6) = .ok () (atTok [] .eof [(0, [97])] 6) := rfl
  exact .fields hopen (.cons (.positional rfl hname) hnode rfl rfl hlast) hclose rfl

/-- A name alone is accepted as a field. -/
theorem pair_accepted : ∃ t, parseTableLit (parserAt 4) (atTok [97, 44, 49, 125] .lBrace [] 0) =
    .ok (.tableLit [(ordinalKey 1, .var 1), (ordinalKey 2, .num 1)]) t :=
  (parseTableLit_iff pair_reads (by decide)).mpr (by simp [FieldText.Plain])

/-- `parse_expr` on `a+1`. -/
theorem sum_reads : ReadsExpr (parserAt 4) [.name [97], .plus, .num 1] (.bin .add (.var 1) (.num 1))
    (atTok [43, 49, 125] (.name [97]) [] 1) (atTok [] .rBrace [(0, [97])] 4) := by
  have hplus : Lexes [43, 49, 125] ([] ++ [.plus]) [49, 125] := .next .start rfl
  have hone : Lexes [43, 49, 125] ([.plus] ++ [.num 1]) [125] := .next hplus rfl
  refine ⟨rfl, .next hone rfl, ?_⟩
  have hleft : (parserAt 3).unary (atTok [43, 49, 125] (.name [97]) [] 1) =
      .ok (.var 1) (atTok [49, 125] .plus [(0, [97])] 2) := rfl
  have hadv : advance (atTok [49, 125] .plus [(0, [97])] 2) =
      .ok () (atTok [125] (.num 1) [(0, [97])] 2) := rfl
  have hright : (parserAt 3).unary (atTok [125] (.num 1) [(0, [97])] 2) =
      .ok (.num 1) (atTok [] .rBrace [(0, [97])] 3) := rfl
  have hnode : allocE (.bin .add (.var 1) (.num 1)) (atTok [] .rBrace [(0, [97])] 3) =
      .ok (.bin .add (.var 1) (.num 1)) (atTok [] .rBrace [(0, [97])] 4) := rfl
  have hmul : parseMuldiv (parserAt 3) (atTok [43, 49, 125] (.name [97]) [] 1) =
      .ok (.var 1) (atTok [49, 125] .plus [(0, [97])] 2) := (run_bind hleft _).trans rfl
  have hmul' : parseMuldiv (parserAt 3) (atTok [125] (.num 1) [(0, [97])] 2) =
      .ok (.num 1) (atTok [] .rBrace [(0, [97])] 3) := (run_bind hright _).trans rfl
  have hadd : parseAddsub (parserAt 3) (atTok [43, 49, 125] (.name [97]) [] 1) =
      .ok (.bin .add (.var 1) (.num 1)) (atTok [] .rBrace [(0, [97])] 4) := by
    refine (run_bind hmul _).trans ?_
    change (do
      advance
      let r ← parseMuldiv (parserAt 3)
      let e ← allocE (.bin .add (.var 1) r)
      leftAssoc addsubOp (parseMuldiv (parserAt 3)) 2 e) (atTok [49, 125] .plus [(0, [97])] 2) = _
    rw [run_bind hadv, run_bind hmul', run_bind hnode]
    rfl
  have hconcat : parseConcat (parserAt 3) (atTok [43, 49, 125] (.name [97]) [] 1) =
      .ok (.bin .add (.var 1) (.num 1)) (atTok [] .rBrace [(0, [97])] 4) := (run_bind hadd _).trans rfl
  have hcmp : parseCmp (parserAt 3) (atTok [43, 49, 125] (.name [97]) [] 1) =
      .ok (.bin .add (.var 1) (.num 1)) (atTok [] .rBrace [(0, [97])] 4) := (run_bind hconcat _).trans rfl
  have hand : parseAnd (parserAt 3) (atTok [43, 49, 125] (.name [97]) [] 1) =
      .ok (.bin .add (.var 1) (.num 1)) (atTok [] .rBrace [(0, [97])] 4) := (run_bind hcmp _).trans rfl
  exact (run_bind hand _).trans rfl

/-- `{a+1}` is a table of one expression and not accepted. -/
theorem sum_not_accepted :
    ReadsTable (parserAt 4) [.positional [.name [97], .plus, .num 1]]
      (.tableLit [(ordinalKey 1, .bin .add (.var 1) (.num 1))])
      (atTok [97, 43, 49, 125] .lBrace [] 0) (atTok [] .eof [(0, [97])] 6) ∧
    ¬∃ t, parseTableLit (parserAt 4) (atTok [97, 43, 49, 125] .lBrace [] 0) =
      .ok (.tableLit [(ordinalKey 1, .bin .add (.var 1) (.num 1))]) t := by
  have hlast : ReadsFields (parserAt 4) 0 [.positional [.name [97], .plus, .num 1]]
      [(ordinalKey 1, .bin .add (.var 1) (.num 1))] (atTok [43, 49, 125] (.name [97]) [] 0)
      (atTok [] .rBrace [(0, [97])] 5) := .last (.positional rfl sum_reads) rfl rfl
  have hopen : advance (atTok [97, 43, 49, 125] .lBrace [] 0) =
      .ok () (atTok [43, 49, 125] (.name [97]) [] 0) := rfl
  have hclose : advance (atTok [] .rBrace [(0, [97])] 5) = .ok () (atTok [] .eof [(0, [97])] 5) := rfl
  have htable := ReadsTable.fields hopen hlast hclose rfl
  refine ⟨htable, ?_⟩
  rintro ⟨t, ht⟩
  exact parseTableLit_cut htable (by decide) ⟨_, List.mem_cons_self, by simp [FieldText.Plain]⟩ _ t ht

end Lua
end Rustrapper

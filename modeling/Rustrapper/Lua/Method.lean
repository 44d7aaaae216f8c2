/-
# Method calls

`parse_primary` makes a call of `r:name(args)` whose function is the index of
`r` by the name and whose first argument is `r` once more (`methodCall`), and
`compile_call` compiles the two apart. The bytecode of a method call has the
receiver's code twice, and no run gets from the receiver's value to the
arguments without the second copy (`receiver_evaluated_again`).
-/
import Rustrapper.Effect.Ensures
import Rustrapper.Lua.Steps

namespace Rustrapper
namespace Lua

open Effect

/-! ### The parser -/

/-- The tree of `r:name(args)`. -/
def methodCall (r : Expr) (name : StrRef) (args : List Expr) : Expr := .call (.index r (.str name)) (r :: args)

theorem allocE_ok {e e' : Expr} {p q : PState} (h : allocE e p = .ok e' q) : e' = e := by
  obtain ⟨_, _, -, h⟩ := run_bind_ok.mp h
  cases h
  rfl

/-- **A `:` makes a method call of the primary expression before it.** -/
theorem suffixLoop_colon {R : PRec} {n : ℕ} {r e : Expr} {p q : PState} (hcur : p.cur = .colon)
    (h : suffixLoop R (n + 1) r p = .ok e q) :
    ∃ name args p', suffixLoop R n (methodCall r name args) p' = .ok e q := by
  unfold suffixLoop at h
  obtain ⟨t, p1, ht, h⟩ := run_bind_ok.mp h
  cases ht
  rw [hcur] at h
  obtain ⟨_, p2, -, h⟩ := run_bind_ok.mp h
  obtain ⟨name, p3, -, h⟩ := run_bind_ok.mp h
  obtain ⟨key, p4, hkey, h⟩ := run_bind_ok.mp h
  obtain ⟨method, p5, hmethod, h⟩ := run_bind_ok.mp h
  obtain ⟨_, p6, -, h⟩ := run_bind_ok.mp h
  obtain ⟨args, p7, -, h⟩ := run_bind_ok.mp h
  obtain ⟨_, p8, -, h⟩ := run_bind_ok.mp h
  obtain ⟨call, p9, hcall, h⟩ := run_bind_ok.mp h
  obtain rfl := allocE_ok hkey
  obtain rfl := allocE_ok hmethod
  obtain rfl := allocE_ok hcall
  exact ⟨name, args, p9, h⟩

/-! ### The compiler adds code -/

/-- The computation adds `n` instructions or more behind the code there is. -/
def Adds {α : Type} (n : ℕ) (x : CompM α) : Prop :=
  ∀ c a c', x c = .ok a c' →
    c.chunks.code <+: c'.chunks.code ∧ c.chunks.code.length + n ≤ c'.chunks.code.length

section Rules
variable {α β : Type} {x : CompM α} {f : α → CompM β} {n m : ℕ}

theorem Adds.bind (hx : Adds n x) (hf : ∀ a, Adds m (f a)) : Adds (n + m) (x >>= f) := by
  intro c b c' h
  obtain ⟨a, t, h1, h2⟩ := run_bind_ok.mp h
  obtain ⟨hp, hl⟩ := hx c a t h1
  obtain ⟨hp', hl'⟩ := hf a t b c' h2
  exact ⟨hp.trans hp', by omega⟩

theorem Adds.mono (hx : Adds n x) (h : m ≤ n) : Adds m x := by
  intro c a c' hr
  obtain ⟨hp, hl⟩ := hx c a c' hr
  exact ⟨hp, by omega⟩

theorem Adds.pure (a : α) : Adds 0 (pure a : CompM α) := by
  intro c b c' h
  cases h
  exact ⟨List.prefix_rfl, le_rfl⟩

theorem Adds.throw {e : Exc} : Adds n (throw e : CompM α) := by
  intro c b c' h
  cases h

theorem Adds.ite {p : Prop} [Decidable p] {y : CompM α} (hx : Adds n x) (hy : Adds n y) :
    Adds n (if p then x else y) := by
  split_ifs
  · exact hx
  · exact hy

theorem Adds.get {g : Compiler → CompM α} (h : ∀ c, Adds n (g c)) : Adds n (get >>= g) :=
  fun c a c' hr => h c c a c' hr

theorem Adds.same {g : Compiler → Compiler} (h : ∀ c, (g c).chunks.code = c.chunks.code) :
    Adds 0 (modify g : CompM PUnit) := by
  intro c a c' hr
  cases hr
  rw [h]
  exact ⟨List.prefix_rfl, le_rfl⟩

end Rules

theorem emit_ok {i : Instr} {j : ℕ} {c c' : Compiler} (h : emit i c = .ok j c') :
    j = c.chunks.code.length ∧ c'.chunks.code = c.chunks.code ++ [i] := by
  unfold emit at h
  rw [run_get] at h
  split_ifs at h
  · cases h
  · cases h
    exact ⟨rfl, rfl⟩

theorem emitted_ok {i : Instr} {u : Unit} {c c' : Compiler} (h : emit_ i c = .ok u c') :
    c'.chunks.code = c.chunks.code ++ [i] := by
  obtain ⟨j, t, h1, h2⟩ := run_bind_ok.mp h
  cases h2
  exact (emit_ok h1).2

theorem adds_emit (i : Instr) : Adds 1 (emit i) := by
  intro c j c' h
  rw [(emit_ok h).2]
  exact ⟨List.prefix_append _ _, by rw [List.length_append, List.length_singleton]⟩

theorem adds_emit_ (i : Instr) : Adds 1 (emit_ i) := (adds_emit i).bind fun _ => .pure _

theorem adds_emitN (i : Instr) : ∀ n, Adds 0 (emitN i n)
  | 0 => .pure _
  | n + 1 => ((adds_emit_ i).bind fun _ => adds_emitN i n).mono (Nat.zero_le _)

theorem adds_padWant (want : ℕ) : Adds 0 (padWant want) :=
  .ite ((adds_emit_ _).mono (Nat.zero_le _)) (.ite (adds_emitN _ _) (.pure _))

theorem adds_cerr {α : Type} {n : ℕ} (m : String) : Adds n (cerr m : CompM α) := .throw

theorem prefix_modify {α : Type} {a l : List α} {i : ℕ} (h : a <+: l) (hi : a.length ≤ i) (g : α → α) :
    a <+: l.modify i g := by
  rw [List.modify_eq_take_drop]
  exact (List.prefix_take_iff.mpr ⟨h, hi⟩).trans (List.prefix_append _ _)

/-- A jump over `x`, patched behind it. -/
theorem adds_jump {α : Type} (i : Instr) {x : CompM Unit} {k : CompM α} (hx : Adds 0 x) (hk : Adds 0 k) :
    Adds 1 (do
      let j ← emit i
      x
      patchA j (← here)
      k) := by
  intro c a c' h
  obtain ⟨j, c1, h1, h⟩ := run_bind_ok.mp h
  obtain ⟨_, c2, h2, h⟩ := run_bind_ok.mp h
  obtain ⟨_, c3, h3, h⟩ := run_bind_ok.mp h
  obtain ⟨_, c4, h4, h⟩ := run_bind_ok.mp h
  obtain ⟨rfl, hcode⟩ := emit_ok h1
  obtain ⟨hp2, hl2⟩ := hx c1 _ c2 h2
  cases h3
  cases h4
  obtain ⟨hp, hl⟩ := hk _ a c' h
  rw [hcode] at hp2
  rw [hcode, List.length_append, List.length_singleton] at hl2
  have hold : c.chunks.code <+: c2.chunks.code := (List.prefix_append _ _).trans hp2
  refine ⟨(prefix_modify hold le_rfl _).trans hp, ?_⟩
  rw [List.length_modify] at hl
  omega

theorem adds_compileFuncValue (fi : ℕ) : Adds 1 (compileFuncValue fi) := by
  intro c a c' h
  have hload : ∀ fd : FuncDef, Adds 1 (if fd.upNames.length > 0 then emit_ (.makeClosure fi) else emit_ (.loadFunc fi)) :=
    fun _ => .ite (adds_emit_ _) (adds_emit_ _)
  unfold compileFuncValue at h
  rw [run_get] at h
  dsimp only at h
  cases hfd : c.chunks.funcs[fi]? with
  | none =>
    rw [hfd] at h
    split_ifs at h with hold hfull
    · cases h
    · cases h
    · cases h
  | some fd =>
    rw [hfd] at h
    -- queueing the function leaves the code alone
    split_ifs at h with hold hfull
    · exact hload fd _ a c' h
    · cases h
    · obtain ⟨_, c1, h1, h⟩ := run_bind_ok.mp h
      cases h1
      have hres := hload fd _ a c' h
      exact hres

mutual

theorem adds_expr : ∀ (e : Expr) (want : ℕ), Adds 1 (compileExpr e want)
  | .call f args, want => by
    have hf := adds_expr f 1
    have hcall : ∀ n : ℕ → ℕ, Adds 1 (do
        compileExpr f 1
        let argc ← compileArgs args 0
        emit_ (.call (n argc) want)) := fun n =>
      (hf.bind fun _ => (adds_args args 0).bind fun _ => adds_emit_ _).mono (by omega)
    rw [compileExpr]
    split_ifs
    · exact ((adds_emit_ _).bind fun _ => hcall fun _ => WANT_ALL).mono (Nat.le_add_left 1 1)
    · exact hcall id
  | .nil, want => by
    rw [compileExpr]
    exact (adds_emit_ _).bind fun _ => adds_padWant want
  | .true, want => by
    rw [compileExpr]
    exact (adds_emit_ _).bind fun _ => adds_padWant want
  | .false, want => by
    rw [compileExpr]
    exact (adds_emit_ _).bind fun _ => adds_padWant want
  | .num n, want => by
    rw [compileExpr]
    exact (adds_emit_ _).bind fun _ => adds_padWant want
  | .float f, want => by
    rw [compileExpr]
    exact (adds_emit_ _).bind fun _ => adds_padWant want
  | .str r, want => by
    rw [compileExpr]
    exact (adds_emit_ _).bind fun _ => adds_padWant want
  | .var name, want => by
    rw [compileExpr]
    exact (adds_emit_ _).bind fun _ => adds_padWant want
  | .bin op l r, want => by
    have hl := adds_expr l 1
    have hr := adds_expr r 1
    have hw := adds_padWant want
    rw [compileExpr]
    split_ifs
    · exact (hl.bind fun _ => adds_jump _ (hr.mono (Nat.zero_le _)) hw).mono (by omega)
    · exact (hl.bind fun _ => adds_jump _ (hr.mono (Nat.zero_le _)) hw).mono (by omega)
    · exact (hl.bind fun _ => hr.bind fun _ => (adds_emit_ _).bind fun _ => hw).mono (by omega)
  | .un op x, want => by
    rw [compileExpr]
    exact ((adds_expr x 1).bind fun _ => (adds_emit_ _).bind fun _ => adds_padWant want).mono (by omega)
  | .index base key, want => by
    rw [compileExpr]
    exact ((adds_expr base 1).bind fun _ => (adds_expr key 1).bind fun _ => (adds_emit_ _).bind fun _ =>
      adds_padWant want).mono (by omega)
  | .funcLit fi, want => by
    rw [compileExpr]
    exact (adds_compileFuncValue fi).bind fun _ => adds_padWant want
  | .tableLit fields, want => by
    rw [compileExpr]
    exact (adds_emit_ _).bind fun _ => (adds_fields fields).bind fun _ => adds_padWant want

theorem adds_args : ∀ (args : List Expr) (argc : ℕ), Adds 0 (compileArgs args argc)
  | [], argc => by
    rw [compileArgs]
    exact .pure _
  | a :: args, argc => by
    have ha := adds_expr a (if args.isEmpty then WANT_ALL else 1)
    have hrest := adds_args args (argc + 1)
    have hcheck : Adds 0 (if argc + 1 > 32 then do
          cerr "too many arguments"
          compileArgs args (argc + 1)
        else compileArgs args (argc + 1)) :=
      .ite ((adds_cerr _).bind fun _ => hrest) hrest
    rw [compileArgs]
    exact (ha.bind fun _ => hcheck).mono (Nat.zero_le _)

theorem adds_fields : ∀ fields : List (Expr × Expr), Adds 0 (compileFields fields)
  | [] => by
    rw [compileFields]
    exact .pure _
  | (k, v) :: fields => by
    have hk := adds_expr k 1
    have hv := adds_expr v 1
    have hrest := adds_fields fields
    rw [compileFields]
    exact ((adds_emit_ _).bind fun _ => hk.bind fun _ => hv.bind fun _ => (adds_emit_ _).bind fun _ =>
      hrest).mono (Nat.zero_le _)

end

/-! ### The code of a method call -/

/-- The code `compile_expr` makes of `e` stands at `lo .. hi - 1`. -/
def CodeOf (e : Expr) (want : ℕ) (code : List Instr) (lo hi : ℕ) : Prop :=
  ∃ c c', compileExpr e want c = .ok () c' ∧ c.chunks.code.length = lo ∧ c'.chunks.code.length = hi ∧
    ∀ i, lo ≤ i → i < hi → code[i]? = c'.chunks.code[i]?

/-- Where the parts of a method call stand: the receiver's code, the lookup of the method, the receiver's
code once more, and the arguments'. -/
structure MethodCode (r : Expr) (name : StrRef) (args : List Expr) (code : List Instr) where
  first : ℕ
  lookup : ℕ
  second : ℕ
  arguments : ℕ
  receiver : CodeOf r 1 code first lookup
  name_at : code[lookup]? = some (.pushConst (.str name))
  index_at : code[lookup + 1]? = some .getIndex
  behind : second = lookup + 2
  again : CodeOf r (if args.isEmpty then WANT_ALL else 1) code second arguments

section Layout
variable {e r : Expr} {name : StrRef} {args : List Expr} {want lo hi : ℕ} {code : List Instr}

theorem CodeOf.lt (h : CodeOf e want code lo hi) : lo < hi := by
  obtain ⟨c, c', hrun, rfl, rfl, -⟩ := h
  exact (adds_expr e want c () c' hrun).2

/-- The code of a part, in the code of the whole. -/
theorem CodeOf.of_run {c c' c'' : Compiler} (hrun : compileExpr e want c = .ok () c')
    (hlo : lo ≤ c.chunks.code.length) (hp : c'.chunks.code <+: c''.chunks.code)
    (hc : ∀ i, lo ≤ i → i < c''.chunks.code.length → code[i]? = c''.chunks.code[i]?) :
    CodeOf e want code c.chunks.code.length c'.chunks.code.length := by
  refine ⟨c, c', hrun, rfl, rfl, fun i h1 h2 => ?_⟩
  rw [hc i (hlo.trans h1) (h2.trans_le hp.length_le)]
  obtain ⟨more, hmore⟩ := hp
  rw [← hmore, List.getElem?_append_left h2]

/-- An instruction behind a part, in the code of the whole. -/
theorem code_emitted {i : Instr} {c c' c'' : Compiler} (hi : c'.chunks.code = c.chunks.code ++ [i])
    (hlo : lo ≤ c.chunks.code.length) (hp : c'.chunks.code <+: c''.chunks.code)
    (hc : ∀ i, lo ≤ i → i < c''.chunks.code.length → code[i]? = c''.chunks.code[i]?) :
    code[c.chunks.code.length]? = some i := by
  obtain ⟨more, hmore⟩ := hp
  have hlen := congrArg List.length hmore
  rw [hi, List.length_append, List.length_append, List.length_singleton] at hlen
  rw [hc _ hlo (by omega), ← hmore, hi, List.append_assoc, List.getElem?_append_right le_rfl, Nat.sub_self]
  rfl

/-- The index and the arguments of a method call. -/
theorem methodCode_of_parts {n : ℕ → ℕ} {c c' : Compiler} (hlo : lo ≤ c.chunks.code.length)
    (hrun : (do
      compileExpr (.index r (.str name)) 1
      let argc ← compileArgs (r :: args) 0
      emit_ (.call (n argc) want)) c = .ok () c')
    (hc : ∀ i, lo ≤ i → i < c'.chunks.code.length → code[i]? = c'.chunks.code[i]?) :
    Nonempty (MethodCode r name args code) := by
  obtain ⟨_, c4, h1, hrun⟩ := run_bind_ok.mp hrun
  rw [compileExpr] at h1
  obtain ⟨_, c1, hr1, h1⟩ := run_bind_ok.mp h1
  obtain ⟨_, c2, hname, h1⟩ := run_bind_ok.mp h1
  obtain ⟨_, c3, hindex, h1⟩ := run_bind_ok.mp h1
  rw [compileExpr] at hname
  obtain ⟨_, c2, hpush, hpad⟩ := run_bind_ok.mp hname
  cases hpad
  cases h1
  obtain ⟨argc, c6, hargs, hcall⟩ := run_bind_ok.mp hrun
  rw [compileArgs] at hargs
  obtain ⟨_, c5, hr2, hrest⟩ := run_bind_ok.mp hargs
  have hcode2 := emitted_ok hpush
  have hcode3 := emitted_ok hindex
  have hp5 := (adds_expr r _ c4 _ c5 hr2).1
  have hp6 : c5.chunks.code <+: c6.chunks.code := by
    have hadds : Adds 0 (if 0 + 1 > 32 then do
          cerr "too many arguments"
          compileArgs args (0 + 1)
        else compileArgs args (0 + 1)) :=
      .ite ((adds_cerr _).bind fun _ => adds_args args _) (adds_args args _)
    exact (hadds c5 argc c6 hrest).1
  have hp' : c5.chunks.code <+: c'.chunks.code := hp6.trans (adds_emit_ _ c6 _ c' hcall).1
  have hp3 := hp5.trans hp'
  have hp2 : c2.chunks.code <+: c'.chunks.code := (hcode3 ▸ List.prefix_append _ _).trans hp3
  have hp1 : c1.chunks.code <+: c'.chunks.code := (hcode2 ▸ List.prefix_append _ _).trans hp2
  have hlo1 : lo ≤ c1.chunks.code.length := by
    have hlen := (adds_expr r 1 c _ c1 hr1).2
    omega
  have hlen2 : c2.chunks.code.length = c1.chunks.code.length + 1 := by rw [hcode2, List.length_append]; rfl
  have hlen3 : c4.chunks.code.length = c2.chunks.code.length + 1 := by rw [hcode3, List.length_append]; rfl
  exact ⟨{
    first := c.chunks.code.length
    lookup := c1.chunks.code.length
    second := c4.chunks.code.length
    arguments := c5.chunks.code.length
    receiver := .of_run hr1 hlo hp1 hc
    name_at := code_emitted hcode2 hlo1 hp2 hc
    index_at := hlen2 ▸ code_emitted hcode3 (by omega) hp3 hc
    behind := by omega
    again := .of_run hr2 (by omega) hp' hc }⟩

/-- **The bytecode of a method call has the receiver's code twice.** -/
theorem methodCode_exists (h : CodeOf (methodCall r name args) want code lo hi) :
    Nonempty (MethodCode r name args code) := by
  obtain ⟨c, c', hrun, rfl, rfl, hcode⟩ := h
  rw [methodCall, compileExpr] at hrun
  split_ifs at hrun
  · obtain ⟨_, c1, hmark, hrun⟩ := run_bind_ok.mp hrun
    have hlen := (adds_emit_ _ c _ c1 hmark).2
    exact methodCode_of_parts (by omega) hrun hcode
  · exact methodCode_of_parts le_rfl hrun hcode

end Layout

/-! ### Running it -/

/-- The instructions from `ip` to `ip'`, one after the other: none of them fails, and they stand at the
addresses `trail`. -/
inductive Runs (R : Rec) (L : Lib) : ℕ → LuaState → List ℕ → ℕ → LuaState → Prop where
  | done {ip : ℕ} {s : LuaState} : Runs R L ip s [] ip s
  | next {ip ip₁ ip' : ℕ} {s s₁ s' : LuaState} {i : Instr} {trail : List ℕ} (hi : s.code[ip]? = some i)
    (h : R.exec (execStep L (ip + 1) i) s = .ok (.goto ip₁) s₁) (hr : Runs R L ip₁ s₁ trail ip' s') :
    Runs R L ip s (ip :: trail) ip' s'

/-- A run that gets from the receiver's value to the arguments, without the receiver's code in between. -/
def ReceiverOnce {r : Expr} {name : StrRef} {args : List Expr} {code : List Instr} (R : Rec) (L : Lib)
    (m : MethodCode r name args code) : Prop :=
  ∃ s s' trail, s.code = code ∧ Runs R L m.lookup s trail m.arguments s' ∧ m.first ∉ trail ∧ m.second ∉ trail

section Running
variable {R : Rec} {L : Lib} {s s' : LuaState} {ip ip' : ℕ}

/-- An instruction that did not fail was counted. -/
theorem execStep_ok {i : Instr} (h : R.exec (execStep L ip i) s = .ok (.goto ip') s') :
    ∃ t, R.exec (execInstr L ip i) s = .ok (.goto ip') t ∧ s'.code = t.code := by
  unfold execStep at h
  rw [exec_bind] at h
  obtain ⟨n, t, h1, h2⟩ := bind_eq_ok.mp h
  refine ⟨t, ?_, ?_⟩
  · cases n with
    | halt r => cases h2
    | goto ip₀ =>
      simp only [countStep, exec_bind, exec_modify, exec_get, bind_apply, getMachine_apply, setMachine_apply,
        exec_ite] at h2
      split_ifs at h2
      · cases h2
      · cases h2
        exact h1
  · cases n with
    | halt r => cases h2
    | goto ip₀ =>
      simp only [countStep, exec_bind, exec_modify, exec_get, bind_apply, getMachine_apply, setMachine_apply,
        exec_ite] at h2
      split_ifs at h2
      · cases h2
      · cases h2
        rfl

theorem pushConst_ok {v : Value} (h : R.exec (execStep L ip (.pushConst v)) s = .ok (.goto ip') s') :
    ip' = ip ∧ s'.code = s.code := by
  obtain ⟨t, h1, hcode⟩ := execStep_ok h
  unfold execInstr at h1
  rw [exec_bind] at h1
  by_cases hroom : s.vsp < STACK_CAP
  · rw [bind_ok (exec_pushVal R s v hroom)] at h1
    cases h1
    exact ⟨rfl, hcode⟩
  · rw [bind_error (exec_pushVal_full R s v hroom)] at h1
    cases h1

theorem getIndex_ok (h : R.exec (execStep L ip .getIndex) s = .ok (.goto ip') s') : ip' = ip := by
  obtain ⟨t, h1, -⟩ := execStep_ok h
  unfold execInstr at h1
  rw [exec_bind] at h1
  obtain ⟨key, s1, -, h1⟩ := bind_eq_ok.mp h1
  rw [exec_bind] at h1
  obtain ⟨base, s2, -, h1⟩ := bind_eq_ok.mp h1
  rw [exec_bind] at h1
  obtain ⟨f, s3, -, h1⟩ := bind_eq_ok.mp h1
  rw [exec_bind] at h1
  obtain ⟨_, s4, -, h1⟩ := bind_eq_ok.mp h1
  cases h1
  rfl

/-- A run over the lookup of a method comes to what stands behind it. -/
theorem behind_mem {v : Value} {lookup third : ℕ} {trail : List ℕ} (hname : s.code[lookup]? = some (.pushConst v))
    (hindex : s.code[lookup + 1]? = some .getIndex) (hlt : lookup + 2 < third)
    (hr : Runs R L lookup s trail third s') : lookup + 2 ∈ trail := by
  cases hr with
  | done => omega
  | next hi h hr =>
    obtain rfl := Option.some.inj (hname.symm.trans hi)
    obtain ⟨rfl, hcode⟩ := pushConst_ok h
    cases hr with
    | done => omega
    | next hi h hr =>
      rw [hcode] at hi
      obtain rfl := Option.some.inj (hindex.symm.trans hi)
      rw [getIndex_ok h] at hr
      cases hr with
      | done => omega
      | next hi h hr => simp

end Running

/-- **The receiver of a method call is evaluated twice**: the call's code has it twice, and no run gets from
its value to the arguments without its code. -/
theorem receiver_evaluated_again {r : Expr} {name : StrRef} {args : List Expr} {want lo hi : ℕ}
    {code : List Instr} (h : CodeOf (methodCall r name args) want code lo hi) :
    ∃ m : MethodCode r name args code, ∀ R L, ¬ ReceiverOnce R L m := by
  obtain ⟨m⟩ := methodCode_exists h
  refine ⟨m, ?_⟩
  rintro R L ⟨s, s', trail, rfl, hr, -, hsecond⟩
  have hlt := m.again.lt
  rw [m.behind] at hlt hsecond
  exact hsecond (behind_mem m.name_at m.index_at hlt hr)

/-- The bytecode of `x:m()`. -/
theorem variable_evaluated_again :
    let code : List Instr := [.getVar 0, .pushConst (.str 1), .getIndex, .getVar 0, .call 1 1]
    ∃ m : MethodCode (.var 0) 1 [] code, ∀ R L, ¬ ReceiverOnce R L m :=
  @receiver_evaluated_again (.var 0) 1 [] 1 0 5 _
    ⟨{ chunks := {} }, _, rfl, rfl, rfl, fun i _ hi => by interval_cases i <;> rfl⟩

/-- A receiver that prints does so twice. -/
theorem receiver_prints_twice :
    (endState (run (interp bareLib 60) (bytesOf "function f() print(1) return {m=type} end f():m()") {})).out =
      bytesOf "1\n1\n" := by decide +kernel

end Lua
end Rustrapper

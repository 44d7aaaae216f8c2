/-
# What the compiler emits

`placed_of_compile`: the code `compile` makes of a script is, at the address it
returns, the code of the script's statements (`BlockAt`), and every function
that is mentioned in code has its body at its entry. This holds of all scripts
without `goto`, whose jumps are filled in when the function is done.
-/
import Rustrapper.Lua.Placement

namespace Rustrapper
namespace Lua

open Effect

/-! ### Expressions -/

/-- The value of a function that is queued. -/
def loadFuncValue (fi : ℕ) : Option FuncDef → CompM Unit
  | none => throw (.fault .index)
  | some fd => if fd.upNames.length > 0 then emit_ (.makeClosure fi) else emit_ (.loadFunc fi)

theorem emits_funcValue (fi : ℕ) : Emits (compileFuncValue fi) fun _ S p q => FuncAt S fi p ∧ q = p + 1 := by
  intro c a c' h
  unfold compileFuncValue at h
  rw [run_get] at h
  -- the value itself, from a compiler that has queued the function
  have hload : ∀ c₁ : Compiler, Grown c c₁ [] → c₁.scope = c.scope → fi ∈ c₁.compiled →
      c₁.chunks.code.length = c.chunks.code.length →
      loadFuncValue fi c.chunks.funcs[fi]? c₁ = .ok a c' →
      ∃ new, c'.scope = c.scope ∧ Grown c c' new ∧ ∀ im target, Finished im c' c.chunks.code.length new target →
        FuncAt (c.site im target) fi c.chunks.code.length ∧
          c'.chunks.code.length = c.chunks.code.length + 1 := by
    intro c₁ g hs hmem hlen h
    cases hfd : c.chunks.funcs[fi]? with
    | none =>
      rw [hfd] at h
      cases h
    | some fd =>
      rw [hfd] at h
      have hups : ∀ im target, (c.site im target).ups[fi]? = some fd.upNames.length := by
        intro im target
        change (c.chunks.funcs.map _)[fi]? = _
        rw [List.getElem?_map, hfd]
        rfl
      simp only [loadFuncValue] at h
      split_ifs at h with hpos
      · obtain ⟨hroom, rfl⟩ := emitted_eq h
        have g' := g.trans (grown_push (.makeClosure fi) hroom)
        refine ⟨_, hs, g', fun im target hfin => ⟨⟨hfin.linked hmem, fun hz => ?_⟩, ?_⟩⟩
        · rw [hups] at hz
          exact absurd (Option.some.inj hz) (by omega)
        · rw [c₁.push_length, hlen]
      · obtain ⟨hroom, rfl⟩ := emitted_eq h
        have g' := g.trans (grown_push (.loadFunc fi) hroom)
        refine ⟨_, hs, g', fun im target hfin => ⟨⟨hfin.linked hmem, fun _ => ?_⟩, ?_⟩⟩
        · have hf := final_push (hfin.second g g.code.length_le)
          rwa [hlen] at hf
        · rw [c₁.push_length, hlen]
  by_cases hmem : fi ∈ c.compiled
  · rw [if_neg (not_not.mpr hmem)] at h
    exact hload c (.refl c) rfl hmem rfl h
  · rw [if_pos hmem] at h
    split_ifs at h
    · cases h
    · refine hload { c with compiled := fi :: c.compiled, pending := fi :: c.pending } ?_ rfl
        (List.mem_cons_self ..) rfl h
      exact { Grown.refl c with
        compiled := List.subset_cons_self _ _
        pending := List.subset_cons_self _ _
        queued := fun gi hgi => by
          rcases List.mem_cons.mp hgi with rfl | hgi
          · exact .inr (List.mem_cons_self ..)
          · exact .inl hgi }

mutual

theorem emits_expr : ∀ (e : Expr) (want : ℕ), Emits (compileExpr e want) fun _ S p q => ExprAt S e want p q
  | .call f args, want => by
    have hcall : ∀ g : ℕ → ℕ, Emits (do
        compileExpr f 1
        let argc ← compileArgs args 0
        emit_ (.call (g argc) want)) fun _ S p q => ∃ p2 p3, ExprAt S f 1 p p2 ∧ ArgsAt S args p2 p3 ∧
          args.length ≤ 32 ∧ S.has p3 (.call (g args.length) want) ∧ q = p3 + 1 := by
      intro g
      refine Emits.mono ((emits_expr f 1).bind fun _ => (emits_args args 0).bind fun argc => emits_emit_ _) ?_
      rintro _ S p q ⟨_, p2, hf, argc, p3, ⟨ha, hn, rfl⟩, hc, rfl⟩
      rw [Nat.zero_add] at hc
      exact ⟨p2, p3, hf, ha, by simpa using hn (Nat.zero_le _), hc, rfl⟩
    rw [compileExpr]
    by_cases hd : isDynamic args = Bool.true
    · simp only [if_pos hd]
      refine Emits.mono ((emits_emit_ .mark).bind fun _ => hcall fun _ => WANT_ALL) ?_
      rintro _ S p q ⟨_, m, ⟨hm, rfl⟩, p2, p3, hf, ha, hn, hc, rfl⟩
      simp only [ExprAt, if_pos hd]
      exact ⟨p + 1, p2, p3, ⟨hm, rfl⟩, hf, ha, hn, hc, rfl⟩
    · simp only [if_neg hd]
      refine Emits.mono (hcall id) ?_
      rintro _ S p q ⟨p2, p3, hf, ha, hn, hc, rfl⟩
      simp only [ExprAt, if_neg hd]
      exact ⟨p, p2, p3, rfl, hf, ha, hn, hc, rfl⟩
  | .nil, want => by
    rw [compileExpr]
    exact (emits_single _ want).mono fun _ _ _ _ h => by rwa [ExprAt]
  | .true, want => by
    rw [compileExpr]
    exact (emits_single _ want).mono fun _ _ _ _ h => by rwa [ExprAt]
  | .false, want => by
    rw [compileExpr]
    exact (emits_single _ want).mono fun _ _ _ _ h => by rwa [ExprAt]
  | .num n, want => by
    rw [compileExpr]
    exact (emits_single _ want).mono fun _ _ _ _ h => by rwa [ExprAt]
  | .float f, want => by
    rw [compileExpr]
    exact (emits_single _ want).mono fun _ _ _ _ h => by rwa [ExprAt]
  | .str r, want => by
    rw [compileExpr]
    exact (emits_single _ want).mono fun _ _ _ _ h => by rwa [ExprAt]
  | .var name, want => by
    rw [compileExpr]
    exact (emits_single _ want).mono fun _ _ _ _ h => by rwa [ExprAt]
  | .bin op l r, want => by
    have hl := emits_expr l 1
    have hr := emits_expr r 1
    rw [compileExpr]
    by_cases hand : op = .and
    · simp only [if_pos hand]
      refine Emits.mono (hl.bind fun _ => emits_jump_then (.jumpIfFalseKeep 0) hr (emits_padWant want)) ?_
      rintro _ S p q ⟨_, m, h1, m', ⟨hj, h2⟩, hpad⟩
      simp only [ExprAt, if_pos hand]
      exact ⟨m, m', h1, ⟨hj, h2⟩, hpad⟩
    · by_cases hor : op = .or
      · simp only [if_neg hand, if_pos hor]
        refine Emits.mono (hl.bind fun _ => emits_jump_then (.jumpIfTrueKeep 0) hr (emits_padWant want)) ?_
        rintro _ S p q ⟨_, m, h1, m', ⟨hj, h2⟩, hpad⟩
        simp only [ExprAt, if_neg hand, if_pos hor]
        exact ⟨m, m', h1, ⟨hj, h2⟩, hpad⟩
      · simp only [if_neg hand, if_neg hor]
        refine Emits.mono (hl.bind fun _ => hr.bind fun _ => (emits_emit_ (.binOp op)).bind fun _ =>
          emits_padWant want) ?_
        rintro _ S p q ⟨_, m, h1, _, m₁, h2, _, m', ⟨hop, rfl⟩, hpad⟩
        simp only [ExprAt, if_neg hand, if_neg hor]
        exact ⟨m, m₁ + 1, h1, ⟨m₁, h2, hop, rfl⟩, hpad⟩
  | .un op x, want => by
    rw [compileExpr]
    refine Emits.mono ((emits_expr x 1).bind fun _ => emits_single (.unOp op) want) ?_
    rintro _ S p q ⟨_, m, hx, hs⟩
    rw [ExprAt]
    exact ⟨m, hx, hs⟩
  | .index base key, want => by
    rw [compileExpr]
    refine Emits.mono ((emits_expr base 1).bind fun _ => (emits_expr key 1).bind fun _ =>
      emits_single .getIndex want) ?_
    rintro _ S p q ⟨_, m, hb, _, m', hk, hs⟩
    rw [ExprAt]
    exact ⟨m, m', hb, hk, hs⟩
  | .funcLit fi, want => by
    rw [compileExpr]
    refine Emits.mono ((emits_funcValue fi).bind fun _ => emits_padWant want) ?_
    rintro _ S p q ⟨_, m, ⟨hf, rfl⟩, hpad⟩
    rw [ExprAt]
    exact ⟨hf, hpad⟩
  | .tableLit fields, want => by
    rw [compileExpr]
    refine Emits.mono ((emits_emit_ .newTable).bind fun _ => (emits_fields fields).bind fun _ =>
      emits_padWant want) ?_
    rintro _ S p q ⟨_, m, ⟨ht, rfl⟩, _, m', hf, hpad⟩
    rw [ExprAt]
    exact ⟨m', ht, hf, hpad⟩

/-- The arguments, behind `argc` that were compiled before. -/
theorem emits_args : ∀ (args : List Expr) (argc : ℕ), Emits (compileArgs args argc) fun n S p q =>
    ArgsAt S args p q ∧ (argc ≤ 32 → argc + args.length ≤ 32) ∧ n = argc + args.length
  | [], argc => by
    rw [compileArgs]
    refine (emits_pure argc).mono ?_
    rintro n S p q ⟨rfl, rfl⟩
    rw [ArgsAt]
    exact ⟨rfl, id, rfl⟩
  | a :: rest, argc => by
    have hrest := emits_args rest (argc + 1)
    have hcheck : Emits (if argc + 1 > 32 then do
          cerr "too many arguments"
          compileArgs rest (argc + 1)
        else compileArgs rest (argc + 1)) fun n S p q => ArgsAt S rest p q ∧
          argc + (rest.length + 1) ≤ 32 ∧ n = argc + (rest.length + 1) := by
      by_cases hmany : argc + 1 > 32
      · rw [if_pos hmany]
        intro c n c' h
        cases h
      · rw [if_neg hmany]
        refine hrest.mono ?_
        rintro n S p q ⟨ha, hle, rfl⟩
        have := hle (by omega)
        exact ⟨ha, by omega, by omega⟩
    rw [compileArgs]
    refine Emits.mono ((emits_expr a _).bind fun _ => hcheck) ?_
    rintro n S p q ⟨_, m, ha, hrest, hle, rfl⟩
    rw [ArgsAt, List.length_cons]
    exact ⟨⟨m, ha, hrest⟩, fun _ => hle, rfl⟩

theorem emits_fields : ∀ fields : List (Expr × Expr), Emits (compileFields fields) fun _ S p q =>
    FieldsAt S fields p q
  | [] => by
    rw [compileFields]
    refine (emits_pure ()).mono ?_
    rintro _ S p q ⟨-, rfl⟩
    rw [FieldsAt]
  | (k, v) :: rest => by
    rw [compileFields]
    refine Emits.mono ((emits_emit_ .dup).bind fun _ => (emits_expr k 1).bind fun _ => (emits_expr v 1).bind
      fun _ => (emits_emit_ .setIndex).bind fun _ => emits_fields rest) ?_
    rintro _ S p q ⟨_, m, ⟨hd, rfl⟩, _, m₁, hk, _, m₂, hv, _, m₃, ⟨hs, rfl⟩, hrest⟩
    rw [FieldsAt]
    exact ⟨m₁, m₂, hd, hk, hv, hs, hrest⟩

end

/-! ### Statements -/

mutual

/-- No `goto` in the statement; those of the functions in it are not looked at. -/
def Stmt.noGoto : Stmt → Bool
  | .ifStmt _ thenB els => Block.noGoto thenB && Block.noGoto els
  | .whileStmt _ body | .repeatStmt body _ | .forStmt _ _ _ _ _ body | .forInStmt _ _ _ _ body => Block.noGoto body
  | .goto _ => Bool.false
  | _ => Bool.true

def Block.noGoto : Block → Bool
  | [] => Bool.true
  | st :: rest => st.noGoto && Block.noGoto rest

end

theorem emits_targets : ∀ targets : List Expr, Emits (compileTargets targets) fun _ S p q =>
    TargetsAt S targets p q
  | [] => (emits_pure ()).mono fun _ _ _ _ h => h.2
  | .index base key :: ts => by
    rw [compileTargets]
    refine Emits.mono ((emits_expr base 1).bind fun _ => (emits_expr key 1).bind fun _ => emits_targets ts) ?_
    rintro _ S p q ⟨_, m, hb, _, m', hk, hrest⟩
    exact ⟨m, m', hb, hk, hrest⟩
  | .nil :: ts | .true :: ts | .false :: ts | .num _ :: ts | .float _ :: ts | .str _ :: ts
  | .var _ :: ts | .bin .. :: ts | .un .. :: ts | .call .. :: ts | .funcLit _ :: ts
  | .tableLit _ :: ts => emits_targets ts

theorem emits_return (n : ℕ) : Emits (compileReturn n) fun _ S p q => ReturnAt S n p q := by
  intro c a c' h
  unfold compileReturn at h
  rw [run_get] at h
  obtain ⟨new, hs, g, hp⟩ := ((emits_emitN .popScope c.scope).bind fun _ => emits_emit_ (.ret n)) c a c' h
  refine ⟨new, hs, g, fun im target hfin => ?_⟩
  obtain ⟨_, m, hrep, hret, hq⟩ := hp im target hfin
  exact ⟨m, hrep, hret, hq⟩

theorem emits_break : Emits emitBreak fun _ S p q => ∃ depth target, S.loop = some (depth, target) ∧
    S.has p (.jumpScopes target (S.depth - depth)) ∧ q = p + 1 := by
  intro c a c' h
  unfold emitBreak at h
  rw [run_get] at h
  cases hl : c.loops with
  | nil =>
    rw [hl] at h
    cases h
  | cons l ls =>
    rw [hl] at h
    obtain ⟨ip, c1, h1, h⟩ := run_bind_ok.mp h
    obtain ⟨hroom, rfl, rfl⟩ := emit_eq h1
    split_ifs at h
    · cases h
    · cases h
      have g := grown_push (.jumpScopes 0 (c.scope - l.scope)) hroom
      refine ⟨[c.chunks.code.length], rfl, { g with
        loops := by rw [hl]; rfl
        inner := fun _ => by rw [hl]; exact List.cons_ne_nil _ _
        breaks := fun i hi => ?_ }, fun im target hfin => ⟨l.scope, target, ?_, ?_, c.push_length _⟩⟩
      · obtain rfl := List.mem_singleton.mp hi
        exact ⟨le_rfl, (Nat.lt_succ_self _).trans_eq (c.push_length (.jumpScopes 0 (c.scope - l.scope))).symm⟩
      · rw [Compiler.site, hl]
        rfl
      · have hlen := c.push_length (.jumpScopes 0 (c.scope - l.scope))
        have hcode := hfin.code c.chunks.code.length le_rfl (by
          change _ < (c.push (.jumpScopes 0 (c.scope - l.scope))).chunks.code.length
          omega)
        change im.code[c.chunks.code.length]? = _
        rw [hcode]
        change ((c.push (.jumpScopes 0 (c.scope - l.scope))).chunks.code[_]?).map _ = _
        simp [Compiler.push, Instr.setA, Compiler.site]

/-- A computation that leaves code, loops and functions alone. -/
theorem emits_label (node : ℕ) : Emits (recordLabelAt node) fun _ _ p q => q = p := by
  intro c a c' h
  unfold recordLabelAt at h
  rw [run_get] at h
  split_ifs at h
  · cases h
  · cases h
    exact ⟨[], rfl, { Grown.refl c with }, fun _ _ _ => rfl⟩

mutual

theorem emits_stmt : ∀ st : Stmt, st.noGoto → Emits (compileStmt st) fun _ S p q => StmtAt S st p q
  | .localDecl names val, _ => by
    rw [compileStmt]
    refine Emits.mono ((emits_expr val _).bind fun _ => emits_emit_ (.declareLocal names names.length)) ?_
    rintro _ S p q ⟨_, m, he, hi, rfl⟩
    rw [StmtAt]
    exact ⟨m, he, hi, rfl⟩
  | .localFunc name fi, _ => by
    rw [compileStmt]
    refine Emits.mono ((emits_emit_ .pushNil).bind fun _ => (emits_emit_ (.declareLocal [name] 1)).bind fun _ =>
      (emits_funcValue fi).bind fun _ => emits_emit_ (.setVar name)) ?_
    rintro _ S p q ⟨_, _, ⟨h1, rfl⟩, _, _, ⟨h2, rfl⟩, _, _, ⟨h3, rfl⟩, h4, rfl⟩
    rw [StmtAt]
    exact ⟨h1, h2, h3, h4, rfl⟩
  | .globalDecl name (some e), _ => by
    rw [compileStmt]
    refine Emits.mono ((emits_expr e 1).bind fun _ => emits_emit_ (.setGlobal name)) ?_
    rintro _ S p q ⟨_, m, he, hi, rfl⟩
    rw [StmtAt]
    exact ⟨m, he, hi, rfl⟩
  | .globalDecl name none, _ => by
    rw [compileStmt]
    refine Emits.mono ((emits_emit_ .pushNil).bind fun _ => emits_emit_ (.setGlobal name)) ?_
    rintro _ S p q ⟨_, _, ⟨h1, rfl⟩, h2, rfl⟩
    rw [StmtAt]
    exact ⟨h1, h2, rfl⟩
  | .assignStmt targets val, _ => by
    rw [compileStmt]
    refine Emits.mono ((emits_targets targets).bind fun _ => (emits_expr val _).bind fun _ =>
      emits_emit_ (.assignMulti (targets.map targetOf) targets.length)) ?_
    rintro _ S p q ⟨_, m, ht, _, m', he, hi, rfl⟩
    rw [StmtAt]
    exact ⟨m, m', ht, he, hi, rfl⟩
  | .callStmt e, _ => by
    rw [compileStmt]
    refine Emits.mono ((emits_expr e 1).bind fun _ => emits_emit_ .stmtCheck) ?_
    rintro _ S p q ⟨_, m, he, hi, rfl⟩
    rw [StmtAt]
    exact ⟨m, he, hi, rfl⟩
  | .exprStmt e, _ => by
    rw [compileStmt]
    refine Emits.mono ((emits_expr e 1).bind fun _ => emits_emit_ .print) ?_
    rintro _ S p q ⟨_, m, he, hi, rfl⟩
    rw [StmtAt]
    exact ⟨m, he, hi, rfl⟩
  | .ifStmt cond thenB els, h => by
    rw [Stmt.noGoto, Bool.and_eq_true] at h
    have hthen := emits_scoped (emits_block thenB h.1)
    have hcond := emits_expr cond 1
    rw [compileStmt]
    by_cases he : els.isEmpty
    · have hif := hcond.bind fun _ => emits_either (.jumpIfFalse 0) (.jump 0) hthen (emits_pure ())
      simp only [bind_assoc, pure_bind] at hif
      simp only [he, Bool.not_true, Bool.false_eq_true, if_false]
      refine hif.mono ?_
      rintro _ S p q ⟨_, m, hc, m₁, hj, ⟨m', hpush, hb, hpop, rfl⟩, hend, -, rfl⟩
      simp only [StmtAt, he, if_true]
      exact ⟨m, m', hc, hj, hpush, hb, hpop, hend, rfl⟩
    · have hif := hcond.bind fun _ => emits_either (.jumpIfFalse 0) (.jump 0) hthen
        (emits_scoped (emits_block els h.2))
      simp only [bind_assoc] at hif
      simp only [he, Bool.not_false, if_true]
      refine hif.mono ?_
      rintro _ S p q ⟨_, m, hc, m₁, hj, ⟨m', hpush, hb, hpop, rfl⟩, hend, m₂, h1, h2, h3, rfl⟩
      simp only [StmtAt, he, Bool.false_eq_true, if_false]
      exact ⟨m, m', hc, hj, hpush, hb, hpop, hend, m₂, h1, h2, h3, rfl⟩
  | .whileStmt cond body, h => by
    rw [Stmt.noGoto] at h
    have hbody := emits_scoped (emits_block body h)
    have hloop : ∀ start, Emits _ _ := fun start => (emits_expr cond 1).bind fun _ =>
      emits_while (.jumpIfFalse 0) (hbody.bind fun _ => emits_emit_ (.jump start))
    have hwhile := emits_here.bind hloop
    simp only [bind_assoc] at hwhile
    rw [compileStmt]
    refine hwhile.mono ?_
    rintro _ S p q ⟨start, _, ⟨rfl, rfl⟩, _, m, hc, hj, _, _, ⟨m', hpush, hb, hpop, rfl⟩, hjump, rfl⟩
    rw [StmtAt]
    exact ⟨m, m', hc, hj, hpush, hb, hpop, hjump, rfl⟩
  | .repeatStmt body cond, h => by
    rw [Stmt.noGoto] at h
    have hbody := emits_scoped ((emits_block body h).bind fun _ => emits_expr cond 1)
    have hloop : ∀ start, Emits _ _ := fun start => emits_loop (hbody.bind fun _ => emits_emit_ (.jumpIfFalse start))
    have hrepeat := emits_here.bind hloop
    simp only [bind_assoc] at hrepeat
    rw [compileStmt]
    refine hrepeat.mono ?_
    rintro _ S p q ⟨start, _, ⟨rfl, rfl⟩, _, _, ⟨m', hpush, ⟨_, m, hb, hc⟩, hpop, rfl⟩, hjump, rfl⟩
    rw [StmtAt]
    exact ⟨m, m', hpush, hb, hc, hpop, hjump, rfl⟩
  | .forStmt captured var start limit step body, h => by
    rw [Stmt.noGoto] at h
    have hbody := emits_scoped (emits_block body h)
    have hfor : ∀ (x : CompM Unit) (X : Unit → Site → ℕ → ℕ → Prop), Emits x X → Emits _ _ := fun x X hx =>
      emits_counted (.forPrep captured 0 var)
        ((emits_expr start 1).bind fun _ => (emits_expr limit 1).bind fun _ => hx) (emits_pure ())
        fun _ inner => hbody.bind fun _ => emits_emit_ (.forLoop captured inner var)
    rw [compileStmt]
    cases step with
    | some e =>
      have h := hfor _ _ (emits_expr e 1)
      simp only [bind_assoc, pure_bind, here_unused] at h
      refine h.mono ?_
      rintro _ S p q ⟨m₃, _, _, hpush, ⟨_, m₁, h1, _, m₂, h2, h3⟩, hprep, ⟨-, rfl⟩,
        ⟨_, _, ⟨m₄, hpush', hb, hpop, rfl⟩, hnext, rfl⟩, hpop', rfl⟩
      rw [StmtAt]
      exact ⟨m₁, m₂, m₃, m₄, hpush, h1, h2, h3, hprep, hpush', hb, hpop, hnext, hpop', rfl⟩
    | none =>
      have h := hfor _ _ (emits_emit_ (.pushInt 1))
      simp only [bind_assoc, pure_bind, here_unused] at h
      refine h.mono ?_
      rintro _ S p q ⟨m₃, _, _, hpush, ⟨_, m₁, h1, _, m₂, h2, h3⟩, hprep, ⟨-, rfl⟩,
        ⟨_, _, ⟨m₄, hpush', hb, hpop, rfl⟩, hnext, rfl⟩, hpop', rfl⟩
      rw [StmtAt]
      exact ⟨m₁, m₂, m₃, m₄, hpush, h1, h2, h3, hprep, hpush', hb, hpop, hnext, hpop', rfl⟩
  | .forInStmt captured kvar vvar table body, h => by
    rw [Stmt.noGoto] at h
    have hbody := emits_scoped (emits_block body h)
    have hfor : ∀ v : Instr, Emits _ _ := fun v =>
      emits_counted (.forInNext 0) ((emits_expr table 2).bind fun _ => emits_emit_ .forInPrep)
        ((emits_emit_ v).bind fun _ =>
          emits_emit_ (if captured then .setLocalTopCell kvar else .setLocalTop kvar))
        fun start _ => hbody.bind fun _ => emits_emit_ (.forInAdvance start)
    rw [compileStmt]
    cases vvar with
    | some v =>
      have h := hfor (if captured then .setLocalTopCell v else .setLocalTop v)
      simp only [bind_assoc, here_unused] at h
      refine h.mono ?_
      rintro _ S p q ⟨_, _, _, hpush, ⟨_, m, ht, hprep, rfl⟩, hnext, ⟨_, _, ⟨hv, rfl⟩, hk, rfl⟩,
        ⟨_, _, ⟨m', hpush', hb, hpop, rfl⟩, hadv, rfl⟩, hpop', rfl⟩
      rw [StmtAt]
      exact ⟨m, m', hpush, ht, hprep, hnext, hv, hk, hpush', hb, hpop, hadv, hpop', rfl⟩
    | none =>
      have h := hfor .pop
      simp only [bind_assoc, here_unused] at h
      refine h.mono ?_
      rintro _ S p q ⟨_, _, _, hpush, ⟨_, m, ht, hprep, rfl⟩, hnext, ⟨_, _, ⟨hv, rfl⟩, hk, rfl⟩,
        ⟨_, _, ⟨m', hpush', hb, hpop, rfl⟩, hadv, rfl⟩, hpop', rfl⟩
      rw [StmtAt]
      exact ⟨m, m', hpush, ht, hprep, hnext, hv, hk, hpush', hb, hpop, hadv, hpop', rfl⟩
  | .breakStmt, _ => by
    rw [compileStmt]
    refine emits_break.mono ?_
    rintro _ S p q h
    rwa [StmtAt]
  | .label node name, _ => by
    rw [compileStmt]
    refine (emits_label node).mono ?_
    rintro _ S p q h
    rwa [StmtAt]
  | .goto node, h => by cases h
  | .returnStmt none, _ => by
    rw [compileStmt]
    refine (emits_return 0).mono ?_
    rintro _ S p q h
    rwa [StmtAt]
  | .returnStmt (some v), _ => by
    rw [compileStmt]
    by_cases hc : v.isCall
    · simp only [hc, if_true]
      refine Emits.mono ((emits_expr v WANT_ALL).bind fun _ => emits_return WANT_ALL) ?_
      rintro _ S p q ⟨_, m, he, hr⟩
      simp only [StmtAt, hc, if_true]
      exact ⟨m, he, hr⟩
    · simp only [hc, Bool.false_eq_true, if_false]
      refine Emits.mono ((emits_expr v 1).bind fun _ => emits_return 1) ?_
      rintro _ S p q ⟨_, m, he, hr⟩
      simp only [StmtAt, hc, Bool.false_eq_true, if_false]
      exact ⟨m, he, hr⟩

theorem emits_block : ∀ b : Block, Block.noGoto b → Emits (compileChain b) fun _ S p q => BlockAt S b p q
  | [], _ => by
    rw [compileChain]
    refine (emits_pure ()).mono ?_
    rintro _ S p q ⟨-, rfl⟩
    rw [BlockAt]
  | st :: rest, h => by
    rw [Block.noGoto, Bool.and_eq_true] at h
    rw [compileChain]
    refine Emits.mono ((emits_stmt st h.1).bind fun _ => emits_block rest h.2) ?_
    rintro _ S p q ⟨_, m, hs, hb⟩
    rw [BlockAt]
    exact ⟨m, hs, hb⟩

end

/-! ### Functions and the script -/

/-- The code of a function or the script stands at `entry`. -/
def BodyAt (im : Image) (ups : List ℕ) (b : Block) (entry : ℕ) : Prop :=
  ∃ m, BlockAt { im with depth := 0, loop := none, ups := ups } b entry m ∧ im.code[m]? = some (.ret 0)

/-- The numbers of variables the functions capture. -/
def upCounts (funcs : List FuncDef) : List ℕ := funcs.map (·.upNames.length)

theorem emits_body {b : Block} (hb : Block.noGoto b) {u : Unit} {c c' : Compiler} (hf : c.fixups = [])
    (hl : c.loops = []) (hs : c.scope = 0) (h : compileBody b c = .ok u c') :
    Grown c c' [] ∧ c'.chunks.code.length ≤ MAX_CODE ∧ ∀ im, Finished im c' c.chunks.code.length [] 0 →
      BodyAt im (upCounts c.chunks.funcs) b c.chunks.code.length := by
  obtain ⟨_, c1, h1, h⟩ := run_bind_ok.mp h
  obtain ⟨_, c2, h2, h⟩ := run_bind_ok.mp h
  obtain ⟨new, s1, g1, hp⟩ := emits_block b hb c _ c1 h1
  obtain ⟨hroom, rfl⟩ := emitted_eq h2
  have hnew : new = [] := by
    by_contra hn
    exact g1.inner hn hl
  subst hnew
  unfold resolveFixups at h
  rw [run_get, show (c1.push (.ret 0)).fixups = [] from g1.fixups.trans hf] at h
  cases h
  have g2 := grown_push (.ret 0) hroom
  refine ⟨g1.trans g2, by rw [c1.push_length]; omega, fun im hfin => ⟨c1.chunks.code.length, ?_, ?_⟩⟩
  · have := hp im 0 (hfin.first g2)
    unfold Compiler.site at this
    rw [hs, hl] at this
    exact this
  · exact final_push (hfin.second g1 g1.code.length_le)

/-- The function was compiled; an image of the code there is has its body. -/
def Compiled (c : Compiler) (fi : ℕ) : Prop :=
  ∃ fd hi, c.chunks.funcs[fi]? = some fd ∧ hi ≤ c.chunks.code.length ∧
    ∀ im : Image, (∀ i < hi, im.code[i]? = c.chunks.code[i]?) → c.compiled ⊆ im.linked →
      BodyAt im (upCounts c.chunks.funcs) fd.body fd.entry

/-- Functions without their entries. -/
def FuncDef.unplaced (fd : FuncDef) : FuncDef := { fd with entry := 0 }

/-- What a function's compilation leaves of the compiler before it. -/
structure Compiles (c c' : Compiler) : Prop where
  code : c.chunks.code <+: c'.chunks.code
  room : c.chunks.code.length ≤ MAX_CODE → c'.chunks.code.length ≤ MAX_CODE
  compiled : c.compiled ⊆ c'.compiled
  funcs : c'.chunks.funcs.map FuncDef.unplaced = c.chunks.funcs.map FuncDef.unplaced
  waiting : (∀ fi ∈ c.compiled, fi ∈ c.pending ∨ Compiled c fi) → ∀ fi ∈ c'.compiled, fi ∈ c'.pending ∨ Compiled c' fi

theorem upCounts_unplaced (funcs : List FuncDef) :
    upCounts funcs = upCounts (funcs.map FuncDef.unplaced) := by
  unfold upCounts
  rw [List.map_map]
  rfl

theorem Compiles.trans {c c₁ c₂ : Compiler} (h : Compiles c c₁) (h' : Compiles c₁ c₂) : Compiles c c₂ where
  code := h.code.trans h'.code
  room hc := h'.room (h.room hc)
  compiled := List.Subset.trans h.compiled h'.compiled
  funcs := h'.funcs.trans h.funcs
  waiting hw := h'.waiting (h.waiting hw)

theorem Compiles.refl (c : Compiler) : Compiles c c :=
  ⟨List.prefix_rfl, id, List.Subset.refl _, rfl, id⟩

/-- More code and functions compiled leave a compiled function in place. -/
theorem Compiled.mono {c c' : Compiler} {fi : ℕ} (h : Compiled c fi) (hcode : c.chunks.code <+: c'.chunks.code)
    (hc : c.compiled ⊆ c'.compiled) (hf : c'.chunks.funcs[fi]? = c.chunks.funcs[fi]?)
    (hu : upCounts c'.chunks.funcs = upCounts c.chunks.funcs) : Compiled c' fi := by
  obtain ⟨fd, hi, hfd, hle, hbody⟩ := h
  refine ⟨fd, hi, hf.trans hfd, hle.trans hcode.length_le, fun im him hl => ?_⟩
  rw [hu]
  refine hbody im (fun i hlt => ?_) (List.Subset.trans hc hl)
  obtain ⟨more, hmore⟩ := hcode
  rw [him i hlt, ← hmore, List.getElem?_append_left (by omega)]

/-- The compiler when it turns to the function `fi`. -/
def Compiler.turnTo (c : Compiler) (fi : ℕ) (fd : FuncDef) (rest : List ℕ) : Compiler :=
  { c with
    pending := rest, labels := [], fixups := [], loops := [], scope := 0
    chunks := { c.chunks with funcs := c.chunks.funcs.set fi { fd with entry := c.chunks.code.length } } }

theorem set_unplaced {funcs : List FuncDef} {fi entry : ℕ} {fd : FuncDef} (h : funcs[fi]? = some fd) :
    (funcs.set fi { fd with entry := entry }).map FuncDef.unplaced = funcs.map FuncDef.unplaced := by
  rw [List.map_set]
  refine List.ext_getElem? fun i => ?_
  rw [List.getElem?_set]
  split_ifs with h1 h2
  · subst h1
    rw [List.getElem?_map, h]
    rfl
  · subst h1
    rw [List.getElem?_eq_none (by omega)]
  · rfl

/-- One function of the queue. -/
theorem compiles_body {c c' : Compiler} {fi : ℕ} {fd : FuncDef} {rest : List ℕ} {u : Unit}
    (hp : c.pending = fi :: rest) (hfd : c.chunks.funcs[fi]? = some fd) (hb : Block.noGoto fd.body)
    (h : compileBody fd.body (c.turnTo fi fd rest) = .ok u c') : Compiles c c' := by
  obtain ⟨g, -, hbody⟩ := emits_body hb rfl rfl rfl h
  have hfuncs : c'.chunks.funcs = c.chunks.funcs.set fi { fd with entry := c.chunks.code.length } := g.funcs
  have hsame : c'.chunks.funcs.map FuncDef.unplaced = c.chunks.funcs.map FuncDef.unplaced := by
    rw [hfuncs, set_unplaced hfd]
  have hups : upCounts c'.chunks.funcs = upCounts c.chunks.funcs := by
    rw [upCounts_unplaced, hsame, ← upCounts_unplaced]
  have hlt : fi < c.chunks.funcs.length := (List.getElem?_eq_some_iff.mp hfd).1
  have hdone : Compiled c' fi := by
    refine ⟨{ fd with entry := c.chunks.code.length }, c'.chunks.code.length, ?_, le_rfl, fun im him hl => ?_⟩
    · rw [hfuncs, List.getElem?_set_self hlt]
    · have := hbody im ⟨fun i _ hi => by rw [him i hi]; simp, hl⟩
      rw [hups]
      have hc : upCounts (c.turnTo fi fd rest).chunks.funcs = upCounts c.chunks.funcs := by
        rw [← hups, hfuncs]
        rfl
      rwa [hc] at this
  refine ⟨g.code, g.room, g.compiled, hsame, fun hw gi hgi => ?_⟩
  rcases g.queued gi hgi with hc | hq
  · rcases hw gi hc with hpend | hold
    · rw [hp] at hpend
      rcases List.mem_cons.mp hpend with rfl | hrest
      · exact .inr hdone
      · exact .inl (g.pending hrest)
    · by_cases he : gi = fi
      · subst he
        exact .inr hdone
      · refine .inr (hold.mono g.code g.compiled ?_ hups)
        rw [hfuncs, List.getElem?_set_ne (Ne.symm he)]
  · exact .inl hq

/-- All functions are without `goto`. -/
def NoGotos (funcs : List FuncDef) : Prop := ∀ fd ∈ funcs, Block.noGoto fd.body

theorem NoGotos.unplaced {funcs funcs' : List FuncDef} (h : NoGotos funcs)
    (he : funcs'.map FuncDef.unplaced = funcs.map FuncDef.unplaced) : NoGotos funcs' := by
  intro fd hfd
  have hm : fd.unplaced ∈ funcs.map FuncDef.unplaced := he ▸ List.mem_map_of_mem hfd
  obtain ⟨gd, hgd, heq⟩ := List.mem_map.mp hm
  have hbody : gd.body = fd.body := by
    have hh := congrArg FuncDef.body heq
    exact hh
  rw [← hbody]
  exact h gd hgd

/-- The whole queue. -/
theorem compiles_pending : ∀ (n : ℕ) {c c' : Compiler} {u : Unit}, NoGotos c.chunks.funcs →
    compilePending n c = .ok u c' → Compiles c c' ∧ c'.pending = []
  | 0, c, c', u, _, h => by
    unfold compilePending at h
    rw [run_get] at h
    split_ifs at h with he
    · cases h
      exact ⟨.refl c, List.isEmpty_iff.mp he⟩
    · cases h
  | n + 1, c, c', u, hg, h => by
    unfold compilePending at h
    rw [run_get] at h
    cases hp : c.pending with
    | nil =>
      rw [hp] at h
      cases h
      exact ⟨.refl c, hp⟩
    | cons fi rest =>
      rw [hp] at h
      cases hfd : c.chunks.funcs[fi]? with
      | none =>
        dsimp only at h
        rw [hfd] at h
        cases h
      | some fd =>
        dsimp only at h
        rw [hfd] at h
        obtain ⟨_, c1, h1, h⟩ := run_bind_ok.mp h
        cases h1
        obtain ⟨_, c2, h2, h⟩ := run_bind_ok.mp h
        have hc := compiles_body hp hfd (hg fd (List.mem_of_getElem? hfd)) h2
        obtain ⟨hrest, hend⟩ := compiles_pending n (hg.unplaced hc.funcs) h
        exact ⟨hc.trans hrest, hend⟩

/-- The functions of a script stand in an image at their entries. -/
def Linked (im : Image) (funcs : List FuncDef) : Prop :=
  ∀ fi ∈ im.linked, ∃ fd, funcs[fi]? = some fd ∧ BodyAt im (upCounts funcs) fd.body fd.entry

/-- What `compile` leaves of a script: its code and that of its functions, behind the code there was. -/
structure Placed (ch : Chunks) (first : Block) (entry : ℕ) (c' : Compiler) : Prop where
  code : ch.code <+: c'.chunks.code
  room : c'.chunks.code.length ≤ MAX_CODE
  funcs : c'.chunks.funcs.map FuncDef.unplaced = ch.funcs.map FuncDef.unplaced
  body : BodyAt ⟨c'.chunks.code, c'.compiled⟩ (upCounts c'.chunks.funcs) first entry
  linked : Linked ⟨c'.chunks.code, c'.compiled⟩ c'.chunks.funcs

/-- **The code of a script stands where it should.** -/
theorem placed_of_compile {ch : Chunks} {first : Block} {entry : ℕ} {c' : Compiler} (hb : Block.noGoto first)
    (hg : NoGotos ch.funcs) (h : compileScript first { chunks := ch } = .ok entry c') :
    Placed ch first entry c' := by
  obtain ⟨_, _, h0, h⟩ := run_bind_ok.mp h
  cases h0
  obtain ⟨_, c1, h1, h⟩ := run_bind_ok.mp h
  obtain ⟨_, c2, h2, h⟩ := run_bind_ok.mp h
  cases h
  obtain ⟨g, hroom, hbody⟩ := emits_body hb rfl rfl rfl h1
  obtain ⟨hc, hend⟩ := compiles_pending MAX_FUNCS (by rw [g.funcs]; exact hg) h2
  have hups : upCounts c'.chunks.funcs = upCounts ch.funcs := by
    rw [upCounts_unplaced, hc.funcs, g.funcs, ← upCounts_unplaced]
  refine ⟨g.code.trans hc.code, hc.room hroom, hc.funcs.trans (by rw [g.funcs]), ?_, ?_⟩
  · rw [hups]
    refine hbody _ ⟨fun i _ hi => ?_, hc.compiled⟩
    obtain ⟨more, hmore⟩ := hc.code
    rw [← hmore, List.getElem?_append_left hi]
    simp
  · intro fi hfi
    have hw : ∀ fi ∈ c1.compiled, fi ∈ c1.pending ∨ Compiled c1 fi := fun gi hgi =>
      (g.queued gi hgi).elim (fun h => absurd h (by simp)) .inl
    rcases hc.waiting hw fi hfi with hp | ⟨fd, hi, hfd, hle, hat⟩
    · rw [hend] at hp
      cases hp
    · exact ⟨fd, hfd, hat _ (fun _ _ => rfl) (List.Subset.refl _)⟩

/-! ### Functions that are mentioned -/

mutual

/-- The functions whose value is taken in an expression. -/
def Expr.funcs : Expr → List ℕ
  | .call f args => f.funcs ++ argsFuncs args
  | .bin _ l r => l.funcs ++ r.funcs
  | .un _ x => x.funcs
  | .index base key => base.funcs ++ key.funcs
  | .funcLit fi => [fi]
  | .tableLit fields => fieldsFuncs fields
  | _ => []

def argsFuncs : List Expr → List ℕ
  | [] => []
  | a :: rest => a.funcs ++ argsFuncs rest

def fieldsFuncs : List (Expr × Expr) → List ℕ
  | [] => []
  | (k, v) :: rest => k.funcs ++ (v.funcs ++ fieldsFuncs rest)

end

def targetsFuncs : List Expr → List ℕ
  | [] => []
  | .index base key :: ts => base.funcs ++ (key.funcs ++ targetsFuncs ts)
  | _ :: ts => targetsFuncs ts

mutual

/-- The functions whose value is taken in a statement. -/
def Stmt.funcs : Stmt → List ℕ
  | .localDecl _ val => val.funcs
  | .localFunc _ fi => [fi]
  | .globalDecl _ (some e) => e.funcs
  | .assignStmt targets val => targetsFuncs targets ++ val.funcs
  | .callStmt e | .exprStmt e | .returnStmt (some e) => e.funcs
  | .ifStmt cond thenB els => cond.funcs ++ (Block.funcs thenB ++ Block.funcs els)
  | .whileStmt cond body | .repeatStmt body cond => cond.funcs ++ Block.funcs body
  | .forStmt _ _ start limit step body =>
    start.funcs ++ (limit.funcs ++ ((match step with | some e => e.funcs | none => []) ++ Block.funcs body))
  | .forInStmt _ _ _ table body => table.funcs ++ Block.funcs body
  | _ => []

def Block.funcs : Block → List ℕ
  | [] => []
  | st :: rest => st.funcs ++ Block.funcs rest

end

section Mentioned
variable {S : Site}

mutual

theorem linked_expr : ∀ (e : Expr) {want p q : ℕ}, ExprAt S e want p q → e.funcs ⊆ S.linked
  | .call f args, want, p, q, h => by
    rw [ExprAt] at h
    obtain ⟨_, _, _, -, hf, ha, -⟩ := h
    exact List.append_subset.mpr ⟨linked_expr f hf, linked_args args ha⟩
  | .nil, _, _, _, _ | .true, _, _, _, _ | .false, _, _, _, _ | .num _, _, _, _, _ | .float _, _, _, _, _
  | .str _, _, _, _, _ | .var _, _, _, _, _ => List.nil_subset _
  | .bin op l r, want, p, q, h => by
    rw [ExprAt] at h
    obtain ⟨m, m', hl, hr, -⟩ := h
    refine List.append_subset.mpr ⟨linked_expr l hl, ?_⟩
    split_ifs at hr
    · exact linked_expr r hr.2
    · exact linked_expr r hr.2
    · obtain ⟨_, hr, -⟩ := hr
      exact linked_expr r hr
  | .un op x, want, p, q, h => by
    rw [ExprAt] at h
    obtain ⟨_, hx, -⟩ := h
    exact linked_expr x hx
  | .index base key, want, p, q, h => by
    rw [ExprAt] at h
    obtain ⟨_, _, hb, hk, -⟩ := h
    exact List.append_subset.mpr ⟨linked_expr base hb, linked_expr key hk⟩
  | .funcLit fi, want, p, q, h => by
    rw [ExprAt] at h
    exact List.cons_subset.mpr ⟨h.1.1, List.nil_subset _⟩
  | .tableLit fields, want, p, q, h => by
    rw [ExprAt] at h
    obtain ⟨_, -, hf, -⟩ := h
    exact linked_fields fields hf

theorem linked_args : ∀ (args : List Expr) {p q : ℕ}, ArgsAt S args p q → argsFuncs args ⊆ S.linked
  | [], _, _, _ => List.nil_subset _
  | a :: rest, p, q, h => by
    rw [ArgsAt] at h
    obtain ⟨_, ha, hrest⟩ := h
    exact List.append_subset.mpr ⟨linked_expr a ha, linked_args rest hrest⟩

theorem linked_fields : ∀ (fields : List (Expr × Expr)) {p q : ℕ}, FieldsAt S fields p q →
    fieldsFuncs fields ⊆ S.linked
  | [], _, _, _ => List.nil_subset _
  | (k, v) :: rest, p, q, h => by
    rw [FieldsAt] at h
    obtain ⟨_, _, -, hk, hv, -, hrest⟩ := h
    exact List.append_subset.mpr ⟨linked_expr k hk,
      List.append_subset.mpr ⟨linked_expr v hv, linked_fields rest hrest⟩⟩

end

theorem linked_targets : ∀ (targets : List Expr) {p q : ℕ}, TargetsAt S targets p q →
    targetsFuncs targets ⊆ S.linked
  | [], _, _, _ => List.nil_subset _
  | .index base key :: ts, p, q, h => by
    obtain ⟨_, _, hb, hk, hts⟩ := h
    exact List.append_subset.mpr ⟨linked_expr base hb,
      List.append_subset.mpr ⟨linked_expr key hk, linked_targets ts hts⟩⟩
  | .nil :: ts, _, _, h | .true :: ts, _, _, h | .false :: ts, _, _, h | .num _ :: ts, _, _, h
  | .float _ :: ts, _, _, h | .str _ :: ts, _, _, h | .var _ :: ts, _, _, h | .bin .. :: ts, _, _, h
  | .un .. :: ts, _, _, h | .call .. :: ts, _, _, h | .funcLit _ :: ts, _, _, h
  | .tableLit _ :: ts, _, _, h => linked_targets ts h

end Mentioned

mutual

theorem linked_stmt : ∀ (st : Stmt) {S : Site} {p q : ℕ}, StmtAt S st p q → st.funcs ⊆ S.linked
  | .localDecl names val, S, p, q, h => by
    rw [StmtAt] at h
    obtain ⟨_, he, -⟩ := h
    exact linked_expr val he
  | .localFunc name fi, S, p, q, h => by
    rw [StmtAt] at h
    exact List.cons_subset.mpr ⟨h.2.2.1.1, List.nil_subset _⟩
  | .globalDecl name (some e), S, p, q, h => by
    rw [StmtAt] at h
    obtain ⟨_, he, -⟩ := h
    exact linked_expr e he
  | .globalDecl name none, _, _, _, _ => List.nil_subset _
  | .assignStmt targets val, S, p, q, h => by
    rw [StmtAt] at h
    obtain ⟨_, _, ht, he, -⟩ := h
    exact List.append_subset.mpr ⟨linked_targets targets ht, (linked_expr val he :)⟩
  | .callStmt e, S, p, q, h => by
    rw [StmtAt] at h
    obtain ⟨_, he, -⟩ := h
    exact linked_expr e he
  | .exprStmt e, S, p, q, h => by
    rw [StmtAt] at h
    obtain ⟨_, he, -⟩ := h
    exact linked_expr e he
  | .ifStmt cond thenB els, S, p, q, h => by
    rw [StmtAt] at h
    obtain ⟨_, _, hc, -, -, ht, -, -, he⟩ := h
    refine List.append_subset.mpr ⟨(linked_expr cond hc :), List.append_subset.mpr ⟨(linked_block thenB ht :), ?_⟩⟩
    split_ifs at he with hn
    · rw [List.isEmpty_iff] at hn
      subst hn
      exact List.nil_subset _
    · obtain ⟨_, -, he, -⟩ := he
      exact (linked_block els he :)
  | .whileStmt cond body, S, p, q, h => by
    rw [StmtAt] at h
    obtain ⟨_, _, hc, -, -, hb, -⟩ := h
    exact List.append_subset.mpr ⟨(linked_expr cond hc :), (linked_block body hb :)⟩
  | .repeatStmt body cond, S, p, q, h => by
    rw [StmtAt] at h
    obtain ⟨_, _, -, hb, hc, -⟩ := h
    exact List.append_subset.mpr ⟨(linked_expr cond hc :), (linked_block body hb :)⟩
  | .forStmt captured var start limit (some e) body, S, p, q, h => by
    rw [StmtAt] at h
    obtain ⟨_, _, _, _, -, h1, h2, h3, -, -, hb, -⟩ := h
    exact List.append_subset.mpr ⟨(linked_expr start h1 :), List.append_subset.mpr ⟨(linked_expr limit h2 :),
      List.append_subset.mpr ⟨(linked_expr e h3 :), (linked_block body hb :)⟩⟩⟩
  | .forStmt captured var start limit none body, S, p, q, h => by
    rw [StmtAt] at h
    obtain ⟨_, _, _, _, -, h1, h2, -, -, -, hb, -⟩ := h
    exact List.append_subset.mpr ⟨(linked_expr start h1 :), List.append_subset.mpr ⟨(linked_expr limit h2 :),
      List.append_subset.mpr ⟨List.nil_subset _, (linked_block body hb :)⟩⟩⟩
  | .forInStmt captured kvar (some v) table body, S, p, q, h => by
    rw [StmtAt] at h
    obtain ⟨_, _, -, ht, -, -, -, -, -, hb, -⟩ := h
    exact List.append_subset.mpr ⟨(linked_expr table ht :), (linked_block body hb :)⟩
  | .forInStmt captured kvar none table body, S, p, q, h => by
    rw [StmtAt] at h
    obtain ⟨_, _, -, ht, -, -, -, -, -, hb, -⟩ := h
    exact List.append_subset.mpr ⟨(linked_expr table ht :), (linked_block body hb :)⟩
  | .breakStmt, _, _, _, _ | .goto _, _, _, _, _ | .label .., _, _, _, _
  | .returnStmt none, _, _, _, _ => List.nil_subset _
  | .returnStmt (some v), S, p, q, h => by
    rw [StmtAt] at h
    obtain ⟨_, he, -⟩ := h
    exact linked_expr v he

theorem linked_block : ∀ (b : Block) {S : Site} {p q : ℕ}, BlockAt S b p q → Block.funcs b ⊆ S.linked
  | [], _, _, _, _ => List.nil_subset _
  | st :: rest, S, p, q, h => by
    rw [BlockAt] at h
    obtain ⟨_, hs, hrest⟩ := h
    exact List.append_subset.mpr ⟨linked_stmt st hs, (linked_block rest hrest :)⟩

end

/-- The functions a script mentions, in its own statements or in those of a function it mentions. -/
inductive Mentioned (first : Block) (funcs : List FuncDef) : ℕ → Prop where
  | script {fi : ℕ} (h : fi ∈ Block.funcs first) : Mentioned first funcs fi
  | body {fi gi : ℕ} {gd : FuncDef} (h : Mentioned first funcs gi) (hgd : funcs[gi]? = some gd)
      (hfi : fi ∈ Block.funcs gd.body) : Mentioned first funcs fi

/-- A function under its index, before and after its entry is known. -/
theorem unplaced_getElem? {funcs funcs' : List FuncDef}
    (he : funcs'.map FuncDef.unplaced = funcs.map FuncDef.unplaced) {fi : ℕ} {fd fd' : FuncDef}
    (h : funcs[fi]? = some fd) (h' : funcs'[fi]? = some fd') : fd'.unplaced = fd.unplaced := by
  have h1 : (funcs'.map FuncDef.unplaced)[fi]? = some fd'.unplaced := by rw [List.getElem?_map, h']; rfl
  have h2 : (funcs.map FuncDef.unplaced)[fi]? = some fd.unplaced := by rw [List.getElem?_map, h]; rfl
  rw [he, h2] at h1
  exact (Option.some.inj h1).symm

/-- Functions that are mentioned were compiled. -/
theorem Placed.mentioned {ch : Chunks} {first : Block} {entry : ℕ} {c' : Compiler}
    (h : Placed ch first entry c') {fi : ℕ} (hm : Mentioned first ch.funcs fi) : fi ∈ c'.compiled := by
  induction hm with
  | script hfi =>
    obtain ⟨_, hb, -⟩ := h.body
    exact linked_block _ hb hfi
  | body _ hgd hfi ih =>
    obtain ⟨gd', hgd', _, hb, -⟩ := h.linked _ ih
    have hbody := congrArg FuncDef.body (unplaced_getElem? h.funcs hgd hgd')
    change gd'.body = _ at hbody
    rw [hbody] at hb
    exact linked_block _ hb hfi

end Lua
end Rustrapper

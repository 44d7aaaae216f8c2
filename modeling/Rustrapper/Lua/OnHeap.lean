/-
# The machine's operators on the heap

An operator of the machine that runs no script code changes the heap only, and
changes it as its counterpart in `Lua/Meaning` says (`OverHeap`). So do the
library functions that call nothing back.
-/
import Rustrapper.Effect.Ensures
import Rustrapper.Effect.Wp
import Rustrapper.Lua.Fuel
import Rustrapper.Lua.Meaning
import Rustrapper.Lua.Slots

namespace Rustrapper
namespace Lua

open Effect

variable {α β : Type} {R : Rec} {s : LuaState}

/-- From `s`, `x` does to the heap what `y` does, and nothing else. -/
def OverHeap (R : Rec) (s : LuaState) (x : LuaM α) (y : Sem α) : Prop :=
  Wp y (fun a h => R.exec x s = .ok a { s with toHeap := h })
    (fun e h => match e with
      | .error e => R.exec x s = .error (.lua e) { s with toHeap := h }
      | .abort f => R.exec x s = .error (.fault f) { s with toHeap := h }
      | .unknown => True) s.toHeap

/-! ### Rules -/

theorem OverHeap.pure (a : α) : OverHeap R s (pure a) (pure a) := rfl

theorem OverHeap.err (m : String) : OverHeap R s (err m : LuaM α) (fails m) := rfl

theorem OverHeap.raise (e : LuaError) : OverHeap R s (raise e : LuaM α) (throw (.error e)) := rfl

theorem OverHeap.unknown (x : LuaM α) : OverHeap R s x unknown := trivial

theorem OverHeap.bind {x : LuaM α} {y : Sem α} {f : α → LuaM β} {g : α → Sem β} (hx : OverHeap R s x y)
    (hf : ∀ a h, OverHeap R { s with toHeap := h } (f a) (g a)) : OverHeap R s (x >>= f) (y >>= g) := by
  unfold OverHeap at hx ⊢
  rw [wp_bind]
  rw [exec_bind]
  unfold Wp at hx ⊢
  cases hy : y s.toHeap with
  | ok a h =>
    rw [hy] at hx
    rw [bind_ok hx]
    exact hf a h
  | error e h =>
    rw [hy] at hx
    cases e with
    | error e => exact bind_error hx _
    | abort f => exact bind_error hx _
    | unknown => trivial

theorem OverHeap.ite {c : Prop} [Decidable c] {x x' : LuaM α} {y y' : Sem α} (h : c → OverHeap R s x y)
    (h' : ¬c → OverHeap R s x' y') : OverHeap R s (if c then x else x') (if c then y else y') := by
  split_ifs with hc
  · exact h hc
  · exact h' hc

theorem OverHeap.read {f : Machine → LuaM α} {g : Heap → Sem α} (h : OverHeap R s (f s.toMachine) (g s.toHeap)) :
    OverHeap R s (get >>= f) (get >>= g) := by
  unfold OverHeap at h ⊢
  rw [exec_bind, exec_get, bind_ok (getMachine_apply s)]
  exact h

theorem OverHeap.modify {f : Machine → Machine} {g : Heap → Heap}
    (h : f s.toMachine = { s.toMachine with toHeap := g s.toHeap }) :
    OverHeap R s (modify f) (modify g) := by
  unfold OverHeap
  rw [wp_modify, exec_modify, bind_ok (getMachine_apply s), setMachine_apply, h]

/-! ### Tables -/

theorem tableAt_some {h : Heap} {i : ℕ} {r : TableRec} (ht : h.tbls[i]? = some r) : tableAt i h = .ok r h := by
  unfold tableAt
  rw [run_get, ht]
  rfl

theorem tableAt_none {h : Heap} {i : ℕ} (ht : h.tbls[i]? = none) : tableAt i h = .error .unknown h := by
  unfold tableAt
  rw [run_get, ht]
  rfl

/-- The machine takes a step that the evaluation does not. -/
theorem OverHeap.step {x : LuaM α} {f : α → LuaM β} {y : Sem β} {a : α} (h : R.exec x s = .ok a s)
    (hf : OverHeap R s (f a) y) : OverHeap R s (x >>= f) y := by
  unfold OverHeap at hf ⊢
  rw [exec_bind, bind_ok h]
  exact hf

/-- A table is looked at. -/
theorem OverHeap.table {i : ℕ} {x : LuaM α} {g : TableRec → Sem α}
    (h : ∀ r, s.tbls[i]? = some r → OverHeap R s x (g r)) : OverHeap R s x (tableAt i >>= g) := by
  unfold OverHeap
  rw [wp_bind, Wp]
  cases ht : s.tbls[i]? with
  | some r =>
    rw [tableAt_some ht]
    exact h r ht
  | none =>
    rw [tableAt_none ht]
    trivial

/-- A value without metamethods has none. -/
theorem plain_cases (R : Rec) (s : LuaState) (v : Value) :
    (plain v s.toHeap = .ok () s.toHeap ∧ ∀ i, R.exec (mmOf v i) s = .ok .nil s) ∨
      plain v s.toHeap = .error .unknown s.toHeap := by
  cases v with
  | table t =>
    cases ht : s.tbls[t]? with
    | none =>
      right
      exact run_bind_stop (tableAt_none ht) _
    | some r =>
      have hrec := exec_tableRec R ht
      cases hm : r.mt with
      | none =>
        left
        refine ⟨?_, fun i => ?_⟩
        · change (tableAt t >>= _) s.toHeap = _
          rw [run_bind (tableAt_some ht), hm]
          rfl
        · change R.exec (mtLookup t i) s = _
          rw [mtLookup, exec_bind, bind_ok hrec, hm]
          rfl
      | some mt =>
        right
        change (tableAt t >>= _) s.toHeap = _
        rw [run_bind (tableAt_some ht), hm]
        rfl
  | _ => exact .inl ⟨rfl, fun _ => rfl⟩

/-- What `plain` guards runs where it passes. -/
theorem OverHeap.guarded {v : Value} {x : LuaM α} {z : Sem α}
    (h : (∀ i, R.exec (mmOf v i) s = .ok .nil s) → OverHeap R s x z) : OverHeap R s x (do plain v; z) := by
  unfold OverHeap
  rw [wp_bind, Wp]
  rcases plain_cases R s v with ⟨hp, hm⟩ | hp
  · rw [hp]
    exact h hm
  · rw [hp]
    trivial

/-- An operator whose operands have no metamethod. -/
theorem OverHeap.noMM {a b : Value} {i : MM} {f : Option Value → LuaM α} {z : Sem α}
    (h : OverHeap R s (f none) z) : OverHeap R s (binopMM a b i >>= f) (do plain a; plain b; z) := by
  refine OverHeap.guarded fun ha => OverHeap.guarded fun hb => ?_
  have hnone : R.exec (binopMM a b i) s = .ok none s := by
    simp [binopMM, bind_apply, ha i, hb i]
  unfold OverHeap at h ⊢
  rw [exec_bind, bind_ok hnone]
  exact h

/-! ### Reading and writing tables -/

theorem exec_mtLookup_none {i : ℕ} {r : TableRec} (ht : s.tbls[i]? = some r) (hm : r.mt = none) (mm : MM) :
    R.exec (mtLookup i mm) s = .ok .nil s := by
  rw [mtLookup, exec_bind, bind_ok (exec_tableRec R ht), hm]
  rfl

theorem overHeap_tget (t k : Value) : OverHeap R s (tget t k) (indexOf t k) := by
  cases t with
  | table i =>
    refine OverHeap.table fun r ht => ?_
    have hget : R.exec (rawGet i k) s = .ok (slotGet r.slots k) s := by
      rw [rawGet, exec_bind, bind_ok (exec_tableRec R ht)]
      rfl
    refine OverHeap.step hget (OverHeap.ite (fun _ => OverHeap.pure _) fun _ => ?_)
    cases hm : r.mt with
    | none => exact OverHeap.step (exec_mtLookup_none ht hm .index) (OverHeap.pure _)
    | some mt => exact OverHeap.unknown _
  | _ => exact OverHeap.err _

/-- A table takes its new slots. -/
def storeSlots (i : ℕ) (r : TableRec) : Except String (List (Value × Value)) → Sem Unit
  | .error m => fails m
  | .ok slots => modify fun h => { h with tbls := h.tbls.set i { r with slots := slots } }

theorem overHeap_rawSet {i : ℕ} {r : TableRec} (ht : s.tbls[i]? = some r) (k v : Value) :
    OverHeap R s (rawSet i k v) (storeSlots i r (slotSet r.slots k v)) := by
  refine OverHeap.step (exec_tableRec R ht) ?_
  cases slotSet r.slots k v with
  | error m => exact OverHeap.err m
  | ok slots => exact OverHeap.modify rfl

theorem overHeap_tset (t k v : Value) : OverHeap R s (tset t k v) (setIndexOf t k v) := by
  cases t with
  | table i =>
    refine OverHeap.table fun r ht => OverHeap.step (exec_tableRec R ht) ?_
    cases hh : slotHas r.slots k with
    | true => exact overHeap_rawSet ht k v
    | false =>
      cases hm : r.mt with
      | none =>
        have hset := overHeap_rawSet (R := R) ht k v
        rw [storeSlots.eq_def, hm] at hset
        exact OverHeap.step (exec_mtLookup_none ht hm .newindex) hset
      | some mt => exact OverHeap.unknown _
  | _ => exact OverHeap.err _

theorem overHeap_newTable : OverHeap R s (do pure (.table (← newTable))) freshTable := by
  unfold OverHeap Wp freshTable
  rw [run_get, exec_bind]
  by_cases h : s.tbls.length ≥ MAX_TABLES
  · have hfull : R.exec newTable s = .error (.lua (.msg "too many tables")) s := by
      simp [newTable, bind_apply, h]
    rw [if_pos h]
    exact bind_error hfull _
  · have hnew : R.exec newTable s =
        .ok s.tbls.length { s with tbls := s.tbls ++ [TableRec.mk [] none] } := by
      simp [newTable, bind_apply, map_apply, h]
    rw [if_neg h]
    exact bind_ok hnew _

/-! ### Operators -/

/-- Arithmetic on operands that are not both integers, on the machine. -/
def mixedArith (op : Op) (a b : Value) : Option Float → Option Float → LuaM Value
  | some x, some y => pure (.float (floatArith op x y))
  | _, _ => do
    match ← binopMM a b op.mm with
    | some f => dispatchMM (callMM f [a, b])
    | none => err "attempt to perform arithmetic on a non-number value"

/-- Arithmetic on operands that are not both integers, as it is meant. -/
def mixedArithOf (op : Op) (a b : Value) : Option Float → Option Float → Sem Value
  | some x, some y => pure (.float (floatArith op x y))
  | _, _ => do
    plain a
    plain b
    fails "attempt to perform arithmetic on a non-number value"

/-- Operands of arithmetic that are not both integers. -/
theorem arith_mixed (op : Op) {a b : Value} (h : ∀ x y, a = .num x → b ≠ .num y) :
    arith op a b = mixedArith op a b (floatOf a) (floatOf b) ∧
      arithOf op a b = mixedArithOf op a b (floatOf a) (floatOf b) := by
  cases a with
  | num x =>
    cases b with
    | num y => exact absurd rfl (h x y rfl)
    | _ => exact ⟨rfl, rfl⟩
  | _ => exact ⟨rfl, rfl⟩

theorem overHeap_arith (op : Op) (a b : Value) : OverHeap R s (arith op a b) (arithOf op a b) := by
  by_cases hnum : ∃ x y, a = .num x ∧ b = .num y
  · obtain ⟨x, y, rfl, rfl⟩ := hnum
    unfold arith arithOf
    dsimp only
    cases intArith op x y with
    | none => exact rfl
    | some r =>
      cases r with
      | error m => exact OverHeap.err m
      | ok z => exact OverHeap.pure _
  · obtain ⟨h1, h2⟩ := arith_mixed op (a := a) (b := b) fun x y ha hb => hnum ⟨x, y, ha, hb⟩
    rw [h1, h2]
    cases floatOf a with
    | none => exact OverHeap.noMM (OverHeap.err _)
    | some x =>
      cases floatOf b with
      | none => exact OverHeap.noMM (OverHeap.err _)
      | some y => exact OverHeap.pure _

theorem overHeap_equal (a b : Value) : OverHeap R s (eqValues a b) (equalOf a b) := by
  unfold eqValues equalOf
  refine OverHeap.ite (fun _ => OverHeap.pure _) fun _ => ?_
  cases a with
  | table i =>
    cases b with
    | table j => exact OverHeap.noMM (OverHeap.pure _)
    | _ => exact OverHeap.pure _
  | _ => exact OverHeap.pure _

theorem overHeap_less (strict : Bool) (a b : Value) : OverHeap R s (less strict a b) (lessOf strict a b) := by
  unfold less lessOf
  cases numLess strict a b with
  | some r => exact OverHeap.pure _
  | none =>
    cases strict with
    | true => exact OverHeap.noMM (OverHeap.err _)
    | false =>
      -- `<=` looks for `__lt` with the operands the other way round
      refine OverHeap.guarded fun ha => OverHeap.guarded fun hb => ?_
      have hnone : ∀ i, R.exec (binopMM a b i) s = .ok none s := fun i => by
        simp [binopMM, bind_apply, ha i, hb i]
      have hnone' : ∀ i, R.exec (binopMM b a i) s = .ok none s := fun i => by
        simp [binopMM, bind_apply, ha i, hb i]
      exact OverHeap.step (hnone _) (OverHeap.step (hnone' _) (OverHeap.err _))

theorem overHeap_intern (b : List UInt8) : OverHeap R s (intern b) (internOf b) := by
  refine OverHeap.read ?_
  generalize s.toHeap.intern b = z
  cases z with
  | error m => exact OverHeap.err m
  | ok p => exact OverHeap.bind (OverHeap.modify (g := fun _ => p.2) rfl) fun _ _ => OverHeap.pure p.1

theorem overHeap_text (L : Lib) (v : Value) : OverHeap R s (stringOf L v) (plainText L v) := by
  cases v with
  | str r => exact OverHeap.pure r
  | num n => exact overHeap_intern _
  | float f => exact overHeap_intern _
  | _ => exact OverHeap.err _

theorem overHeap_concat (L : Lib) (a b : Value) : OverHeap R s (concat L a b) (concatOf L a b) := by
  unfold concat concatOf
  refine OverHeap.ite (fun _ => ?_) fun _ => OverHeap.noMM (OverHeap.err _)
  refine (overHeap_text L a).bind fun sa h => (overHeap_text L b).bind fun sb h' => OverHeap.read ?_
  exact OverHeap.ite (fun _ => OverHeap.err _) fun _ => (overHeap_intern _).bind fun r _ => OverHeap.pure _

theorem overHeap_binop (L : Lib) (op : Op) (a b : Value) : OverHeap R s (binop L op a b) (binaryOf L op a b) := by
  cases op with
  | add => exact overHeap_arith .add a b
  | sub => exact overHeap_arith .sub a b
  | mul => exact overHeap_arith .mul a b
  | div => exact overHeap_arith .div a b
  | mod => exact overHeap_arith .mod a b
  | eq | ne => exact (overHeap_equal a b).bind fun _ _ => OverHeap.pure _
  | lt => exact overHeap_less true a b
  | le => exact overHeap_less false a b
  | gt => exact overHeap_less true b a
  | ge => exact overHeap_less false b a
  | concat => exact overHeap_concat L a b
  | and | or | not | neg => exact OverHeap.unknown _

/-- What `UnOp` makes of its operand. -/
def unaryM (op : Op) (v : Value) : LuaM Value :=
  match op with
  | .not => pure (.bool !(truthy v))
  | .neg => unm v
  | _ => err "internal error: bad unary operator"

/-- The metamethod of a negation. -/
def unmWith (v : Value) : Value → LuaM Value
  | .nil => err "attempt to perform arithmetic on a non-number value"
  | f => dispatchMM (callMM f [v])

theorem overHeap_unary (op : Op) (v : Value) : OverHeap R s (unaryM op v) (unaryOf op v) := by
  have hneg : ∀ v : Value, OverHeap R s (mmOf v .unm >>= unmWith v) (do
      plain v
      fails "attempt to perform arithmetic on a non-number value" : Sem Value) := fun v =>
    OverHeap.guarded fun hv => OverHeap.step (hv .unm) (OverHeap.err _)
  cases op with
  | not => exact OverHeap.pure _
  | neg =>
    cases v with
    | num n => exact OverHeap.pure _
    | float f => exact OverHeap.pure _
    | _ => exact hneg _
  | _ => exact OverHeap.unknown _

/-! ### Output -/

theorem overHeap_emit (b : List UInt8) : OverHeap R s (emitBytes b) (emitOf b) := OverHeap.modify rfl

theorem overHeap_print (L : Lib) (v : Value) : OverHeap R s (tostring L v) (printOf L v) := by
  refine OverHeap.guarded fun hv => ?_
  have hmm : R.exec (tostringMM v) s = .ok none s := by
    rw [tostringMM, exec_bind, bind_ok (hv .tostring)]
    rfl
  exact OverHeap.step hmm (OverHeap.read (overHeap_emit _))

theorem overHeap_printAll (L : Lib) : ∀ (vs : List Value) (s : LuaState),
    OverHeap R s (printArgs L vs) (printAll L vs)
  | [], _ => OverHeap.pure _
  | [v], _ => overHeap_print L v
  | v :: w :: vs, _ => (overHeap_print L v).bind fun _ _ => (overHeap_emit _).bind fun _ _ =>
    overHeap_printAll L (w :: vs) _

/-! ### The library -/

/-- A library function that keeps to the heap. -/
theorem overHeap_prog {α : Type} : ∀ (x : Prog α) (s : LuaState), OverHeap R s (runProg x) (x.exec heapHandler)
  | .pure a, _ => OverHeap.pure a
  | .throw e, _ => by
    cases e with
    | fail e => exact OverHeap.raise e
    | abort => exact rfl
  | .op o k, s => by
    refine OverHeap.bind (x := libOp o) (y := heapOp o) ?_ fun b h => overHeap_prog (k b) _
    cases o with
    | getHeap => exact OverHeap.read (f := fun m => pure m.toHeap) (g := pure) (OverHeap.pure _)
    | setHeap h => exact OverHeap.modify (g := fun _ => h) rfl
    | getChunks => exact OverHeap.unknown _
    | callValue f args => exact OverHeap.unknown _
  | .attempt p k, s => by
    refine OverHeap.bind (x := attempt (runProg p)) (y := heapAttempt (p.exec heapHandler)) ?_
      fun b h => overHeap_prog (k b) _
    have hp := overHeap_prog p s
    unfold OverHeap Wp at hp ⊢
    rw [exec_attempt]
    unfold heapAttempt catchLua
    change Post _ _ (p.exec heapHandler s.toHeap) at hp
    cases hr : p.exec heapHandler s.toHeap with
    | ok a h =>
      rw [hr] at hp
      have hp : R.exec (runProg p) s = .ok a { s with toHeap := h } := hp
      rw [hp]
      exact rfl
    | error e h =>
      rw [hr] at hp
      cases e with
      | error e =>
        have hp : R.exec (runProg p) s = .error (.lua e) { s with toHeap := h } := hp
        rw [hp]
        exact rfl
      | abort f =>
        have hp : R.exec (runProg p) s = .error (.fault f) { s with toHeap := h } := hp
        rw [hp]
        exact rfl
      | unknown => trivial

end Lua
end Rustrapper

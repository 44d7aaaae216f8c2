/-
# Histories

The interpreter with a log: what happens to the coroutines, the instructions
fetched, whether each was counted, and the continuations that yields save. An
entry keeps the state behind its event (`Moment`). Without the log it is the
interpreter itself (`logger_erases`).

`Rule` is what a property of state and log has to survive to hold at the end of
every run (`Rule.run`): one condition for each event. Across a resume it may use
that the waiting threads waited, and what is known of a body that yields.
-/
import Rustrapper.Effect.Log
import Rustrapper.Effect.Shape
import Rustrapper.Lua.Coroutine

namespace Rustrapper
namespace Lua

open Effect (Logged Handler Relator Erases Grows Stays unlogged record recordEnd eraseLog ending)

variable {α β : Type}

/-! ### Events -/

/-- What a history records. -/
inductive Event where
  /-- `coroutine.create` returned the handle `i` -/
  | created (i : ℕ)
  /-- `coroutine.close` ended a suspended coroutine -/
  | closed (i : ℕ)
  /-- a resume or a wrapper switched to a coroutine, whose record was `c` -/
  | entered (i : ℕ) (args : List Value) (c : CoState)
  /-- a coroutine that yielded goes on at `ip` -/
  | continued (i ip : ℕ)
  /-- the run of a coroutine of `body` ended, and its resumer goes on -/
  | left (i : ℕ) (how : Left) (body : Value)
  /-- an error came up before the run of a coroutine, and left its context in place -/
  | aborted (i : ℕ)
  /-- a `Call` saved a continuation -/
  | yielded (ip want : ℕ)
  /-- an instruction is fetched -/
  | fetched (ip : ℕ)
  /-- it was counted as a step -/
  | counted
  /-- it failed, or ended its run -/
  | uncounted
deriving DecidableEq

/-- An event and the state behind it. -/
structure Moment where
  event : Event
  state : LuaState

/-- A coroutine that is entered has room to run. -/
def Moment.roomy (m : Moment) : Bool :=
  match m.event with
  | .entered _ args c => bodyFits m.state.toMachine c args.length
  | _ => true

abbrev Hist := Logged Stop LuaState Moment

def catchHist (x : Hist α) : Hist (Except LuaError α) := fun p =>
  match x p with
  | .ok a q => .ok (.ok a) q
  | .error (.lua e) q => .ok (.error e) q
  | .error e q => .error e q

/-! ### The interpreter with a log -/

/-- The entry points of the interpreter with a log. -/
structure Logger where
  call : Value → ℕ → Hist ExecResult
  runAt : ℕ → ℕ → Hist ExecResult
  tget : Value → Value → Hist Value
  tset : Value → Value → Value → Hist Unit
  resume : ℕ → List Value → Hist Resumed

/-- `coroutine.create` and the handle it returns. -/
def createHist (f : Value) : Hist (Option ℕ) :=
  recordEnd (fun r s => match r with | .ok (some i) => [⟨.created i, s⟩] | _ => []) (unlogged (takeSlot f))

/-- `coroutine.close`, which ends a suspended coroutine. -/
def closeHist (i : ℕ) : Hist CoStatus :=
  recordEnd (fun r s => match r with | .ok .suspended => [⟨.closed i, s⟩] | _ => []) (unlogged (closeCo i))

def yieldHist (ip want : ℕ) : Hist Unit := do
  unlogged (modify fun s => { s with yieldIp := ip, yieldWant := want })
  record fun s => ⟨.yielded ip want, s⟩

def Logger.op (W : Logger) : LuaOp α → Hist α
  | .call f argc => W.call f argc
  | .runAt ip floor => W.runAt ip floor
  | .tget t k => W.tget t k
  | .tset t k v => W.tset t k v
  | .resume id args => W.resume id args
  | .coCreate f => createHist f
  | .coClose i => closeHist i
  | .setYield ip want => yieldHist ip want
  | o => unlogged (Rec.stuck.op o)

def Logger.handler (W : Logger) : Handler LuaOp Exc LuaError Hist where
  op := W.op
  throw e := throw e.toStop
  attempt := catchHist
  throw_bind := fun _ _ => rfl

def Logger.exec (W : Logger) (x : LuaM α) : Hist α := x.exec W.handler

/-- What a turn of the loop does with the end of its instruction. -/
def turnEnd (floor : ℕ) : Except LuaError Next → LuaM Next
  | .ok next => pure next
  | .error e => do
    match ← unwindProtected floor (← get).fsp e with
    | .resume ip => pure (.goto ip)
    | .control r => pure (.halt r)
    | .propagate => raise e

/-- Whether an instruction that ended so was counted. -/
def stepEvent : Except Stop Next → Event
  | .ok (.goto _) => .counted
  | _ => .uncounted

/-- `turn` with a log. -/
def Logger.turn (W : Logger) (L : Lib) (ip floor : ℕ) : Hist Next := do
  record fun s => ⟨.fetched ip, s⟩
  let s ← unlogged get
  match s.code[ip]? with
  | none => throw (.lua (.msg "internal error: instruction pointer out of range"))
  | some i =>
    let r ← catchHist (recordEnd (fun r s => [⟨stepEvent r, s⟩]) (W.exec (execStep L (ip + 1) i)))
    W.exec (turnEnd floor r)

/-- `run_at` with a log. -/
def Logger.loop (W : Logger) (L : Lib) (ip floor : ℕ) : Hist ExecResult := do
  match ← W.turn L ip floor with
  | .goto ip => W.runAt ip floor
  | .halt r => pure r

/-- The arguments of a resume become the results of the yield. -/
def placeArgs (want : ℕ) (args : List Value) : LuaM Unit := do
  pushVals args
  normalize ((← get).vsp - args.length) want

/-- The run of a coroutine, with a log. -/
def Logger.coRun (W : Logger) (id : ℕ) (c : CoState) (args : List Value) :
    Hist (Except LuaError ExecResult) :=
  if c.started then do
    W.exec (placeArgs c.want args)
    record fun s => ⟨.continued id c.ip, s⟩
    W.exec (attempt (doRunAt c.ip 0))
  else W.exec (startBody c.func args)

/-- `coBody` with a log. -/
def Logger.coBody (W : Logger) (id : ℕ) (c : CoState) (args : List Value) : Hist (Resumed × Left) := do
  let r ← W.coRun id c args
  W.exec (finishBody r)

/-- `switch` with a log. -/
def Logger.switchCo (W : Logger) (id : ℕ) (args : List Value) : Hist Resumed := do
  let (parent, c) ← unlogged (enterCo id)
  record fun s => ⟨.entered id args c, s⟩
  let (out, left) ← recordEnd (fun r s => match r with | .error (.lua _) => [⟨.aborted id, s⟩] | _ => [])
    (W.coBody id c args)
  unlogged (leaveCo id parent left)
  record fun s => ⟨.left id left c.func, s⟩
  pure out

/-- `resume` with a log. -/
def Logger.resumeCo (W : Logger) (id : ℕ) (args : List Value) : Hist Resumed := do
  let s ← unlogged get
  if (s.cos id).status = .suspended then W.switchCo id args
  else pure (.refused (s.cos id).status)

def Logger.stuck : Logger where
  call _ _ := throw .fuel
  runAt _ _ := throw .fuel
  tget _ _ := throw .fuel
  tset _ _ _ := throw .fuel
  resume _ _ := throw .fuel

def Logger.next (L : Lib) (W : Logger) : Logger where
  call f argc := W.exec (Lua.call L f argc)
  runAt ip floor := W.loop L ip floor
  tget t k := W.exec (Lua.tget t k)
  tset t k v := W.exec (Lua.tset t k v)
  resume id args := W.resumeCo id args

def logger (L : Lib) : ℕ → Logger
  | 0 => Logger.stuck
  | n + 1 => (logger L n).next L

/-- `run` with a log. -/
def runHist (W : Logger) (source : List UInt8) : Hist Unit := do
  unlogged (modify LuaState.reset)
  W.exec (runScript source)

/-- The history of a run of a script, the newest moment first. -/
def history (L : Lib) (n : ℕ) (source : List UInt8) (s : LuaState) : List Moment :=
  (ending (runHist (logger L n) source (s, []))).2

/-! ### The log changes nothing -/

theorem erases_catch {x : Hist α} {y : Exec α} (h : Erases x y) : Erases (catchHist x) (catchLua y) := by
  intro p
  rw [catchLua, ← h p, catchHist]
  cases x p with
  | ok a q => rfl
  | error e q => cases e <;> rfl

/-- The entry points without their log. -/
structure Logger.Erases (W : Logger) (R : Rec) : Prop where
  call : ∀ f n, Effect.Erases (W.call f n) (R.call f n)
  runAt : ∀ ip floor, Effect.Erases (W.runAt ip floor) (R.runAt ip floor)
  tget : ∀ t k, Effect.Erases (W.tget t k) (R.tget t k)
  tset : ∀ t k v, Effect.Erases (W.tset t k v) (R.tset t k v)
  resume : ∀ id args, Effect.Erases (W.resume id args) (R.resume id args)

theorem erases_create (f : Value) : Erases (createHist f) (takeSlot f) :=
  (Erases.unlogged (takeSlot f)).recordEnd _

theorem erases_close (i : ℕ) : Erases (closeHist i) (closeCo i) :=
  (Erases.unlogged (closeCo i)).recordEnd _

theorem erases_op {W : Logger} {R : Rec} (h : W.Erases R) (o : LuaOp α) : Erases (W.op o) (R.op o) := by
  cases o with
  | call f n => exact h.call f n
  | runAt ip floor => exact h.runAt ip floor
  | tget t k => exact h.tget t k
  | tset t k v => exact h.tset t k v
  | resume id args => exact h.resume id args
  | coCreate f => exact erases_create f
  | coClose i => exact erases_close i
  | setYield ip want => exact fun _ => rfl
  | get => exact .unlogged (R.op .get)
  | set m => exact .unlogged (R.op (.set m))
  | buffer n => exact .unlogged (R.op (.buffer n))
  | current => exact .unlogged (R.op .current)
  | coStatus i => exact .unlogged (R.op (.coStatus i))

theorem erases_exec {W : Logger} {R : Rec} (h : W.Erases R) (x : LuaM α) :
    Erases (W.exec x) (R.exec x) := by
  have hr : Relator W.handler R.handler Erases := {
    pure := .pure
    bind := .bind
    op := erases_op h
    throw := fun e => .throw e.toStop
    attempt := erases_catch }
  exact hr.exec x

/-- A turn: the instruction, then what its end calls for. -/
theorem turn_eq (L : Lib) (ip floor : ℕ) : turn L ip floor = (do
    match (← get).code[ip]? with
    | none => err "internal error: instruction pointer out of range"
    | some i => turnEnd floor (← attempt (execStep L (ip + 1) i))) := by
  rw [turn]
  refine congrArg _ (funext fun m => ?_)
  cases m.code[ip]? with
  | none => rfl
  | some i =>
    change attempt (execStep L (ip + 1) i) >>= _ = attempt (execStep L (ip + 1) i) >>= _
    refine congrArg _ (funext fun r => ?_)
    cases r <;> rfl

theorem erases_turn {W : Logger} {R : Rec} (h : W.Erases R) (L : Lib) (ip floor : ℕ) :
    Erases (W.turn L ip floor) (R.exec (turn L ip floor)) := by
  rw [turn_eq, exec_bind, exec_get]
  refine Erases.record (fun p => ?_) _
  obtain ⟨s, l⟩ := p
  change eraseLog ((match s.code[ip]? with | none => _ | some i => _ : Hist Next) (s, l)) =
    R.exec (match s.code[ip]? with | none => _ | some i => _) s
  cases s.code[ip]? with
  | none => rfl
  | some i =>
    have hr := (erases_exec h (execStep L (ip + 1) i)).recordEnd fun r s => [⟨stepEvent r, s⟩]
    rw [exec_bind, exec_attempt]
    exact Erases.bind (erases_catch hr) (fun r => erases_exec h (turnEnd floor r)) (s, l)

theorem erases_loop {W : Logger} {R : Rec} (h : W.Erases R) (L : Lib) (ip floor : ℕ) :
    Erases (W.loop L ip floor) (R.exec (runAt L ip floor)) := by
  rw [runAt, exec_bind]
  refine (erases_turn h L ip floor).bind fun next => ?_
  cases next with
  | goto ip =>
    have hr : R.exec (doRunAt ip floor) = R.runAt ip floor := exec_perform R (.runAt ip floor)
    exact hr ▸ h.runAt ip floor
  | halt r => exact .pure r

theorem continueBody_eq (ip want : ℕ) (args : List Value) :
    continueBody ip want args = (do
      placeArgs want args
      attempt (doRunAt ip 0)) := by
  simp only [continueBody, placeArgs, bind_assoc]

/-- A body: the run, then how the coroutine is left. -/
theorem coBody_eq (c : CoState) (args : List Value) :
    coBody c args =
      (if c.started then continueBody c.ip c.want args else startBody c.func args) >>= finishBody := by
  rw [coBody]
  split_ifs <;> rfl

theorem erases_coBody {W : Logger} {R : Rec} (h : W.Erases R) (id : ℕ) (c : CoState)
    (args : List Value) : Erases (W.coBody id c args) (R.exec (coBody c args)) := by
  rw [coBody_eq, exec_bind, exec_ite, continueBody_eq, exec_bind]
  refine Erases.bind (Erases.ite ?_ (erases_exec h _)) fun r => erases_exec h (finishBody r)
  exact (erases_exec h _).bind fun _ => (erases_exec h _).record _

theorem erases_switch {W : Logger} {R : Rec} (h : W.Erases R) (id : ℕ) (args : List Value) :
    Erases (W.switchCo id args) (switch R id args) := by
  refine (Erases.unlogged (enterCo id)).bind fun p => Erases.record ?_ _
  refine ((erases_coBody h id p.2 args).recordEnd _).bind fun q => ?_
  exact (Erases.unlogged (leaveCo id p.1 q.2)).bind fun _ => (Erases.pure q.1).record _

theorem erases_resume {W : Logger} {R : Rec} (h : W.Erases R) (id : ℕ) (args : List Value) :
    Erases (W.resumeCo id args) (resume R id args) :=
  (Erases.unlogged get).bind fun s =>
    @Erases.ite _ _ _ _ ((s.cos id).status = .suspended) _ _ _ _ _ (erases_switch h id args) (.pure _)

/-- **The log changes nothing**, at any depth. -/
theorem logger_erases (L : Lib) : ∀ n, (logger L n).Erases (interp L n)
  | 0 => ⟨fun _ _ => .throw _, fun _ _ => .throw _, fun _ _ => .throw _, fun _ _ _ => .throw _,
      fun _ _ => .throw _⟩
  | n + 1 => by
    have ih := logger_erases L n
    exact ⟨fun _ _ => erases_exec ih _, fun _ _ => erases_loop ih L _ _,
      fun _ _ => erases_exec ih _, fun _ _ _ => erases_exec ih _,
      fun id args => erases_resume ih id args⟩

theorem runHist_erases (L : Lib) (n : ℕ) (source : List UInt8) :
    Erases (runHist (logger L n) source) (run (interp L n) source) :=
  (Erases.unlogged (modify LuaState.reset)).bind fun _ => erases_exec (logger_erases L n) _

/-! ### The log only grows -/

theorem grows_catch {x : Hist α} (h : Grows x) : Grows (catchHist x) := by
  intro p
  have hp := h p
  rw [catchHist]
  cases hx : x p with
  | ok a q =>
    rw [hx] at hp
    exact hp
  | error e q =>
    rw [hx] at hp
    cases e <;> exact hp

/-- No entry point takes an event from the log. -/
structure Logger.Grows (W : Logger) : Prop where
  call : ∀ f n, Effect.Grows (W.call f n)
  runAt : ∀ ip floor, Effect.Grows (W.runAt ip floor)
  tget : ∀ t k, Effect.Grows (W.tget t k)
  tset : ∀ t k v, Effect.Grows (W.tset t k v)
  resume : ∀ id args, Effect.Grows (W.resume id args)

theorem grows_create (f : Value) : Grows (createHist f) := (Grows.unlogged (takeSlot f)).recordEnd _

theorem grows_close (i : ℕ) : Grows (closeHist i) := (Grows.unlogged (closeCo i)).recordEnd _

theorem grows_op {W : Logger} (h : W.Grows) (o : LuaOp α) : Grows (W.op o) := by
  cases o with
  | call f n => exact h.call f n
  | runAt ip floor => exact h.runAt ip floor
  | tget t k => exact h.tget t k
  | tset t k v => exact h.tset t k v
  | resume id args => exact h.resume id args
  | coCreate f => exact grows_create f
  | coClose i => exact grows_close i
  | setYield ip want => exact (Grows.unlogged (modify _)).bind fun _ => .record _
  | get => exact .unlogged (Rec.stuck.op .get)
  | set m => exact .unlogged (Rec.stuck.op (.set m))
  | buffer n => exact .unlogged (Rec.stuck.op (.buffer n))
  | current => exact .unlogged (Rec.stuck.op .current)
  | coStatus i => exact .unlogged (Rec.stuck.op (.coStatus i))

theorem grows_exec {W : Logger} (h : W.Grows) (x : LuaM α) : Grows (W.exec x) := by
  have hi : Effect.Invariant W.handler Grows := {
    pure := .pure
    bind := .bind
    op := grows_op h
    throw := fun e => .throw e.toStop
    attempt := grows_catch }
  exact hi.exec x

theorem grows_turn {W : Logger} (h : W.Grows) (L : Lib) (ip floor : ℕ) : Grows (W.turn L ip floor) := by
  refine (Grows.record _).bind fun _ => (Grows.unlogged get).bind fun s => ?_
  cases s.code[ip]? with
  | none => exact .throw _
  | some i =>
    exact (grows_catch ((grows_exec h _).recordEnd _)).bind fun r => grows_exec h (turnEnd floor r)

theorem grows_loop {W : Logger} (h : W.Grows) (L : Lib) (ip floor : ℕ) : Grows (W.loop L ip floor) := by
  refine (grows_turn h L ip floor).bind fun next => ?_
  cases next with
  | goto ip => exact h.runAt ip floor
  | halt r => exact .pure r

theorem grows_coBody {W : Logger} (h : W.Grows) (id : ℕ) (c : CoState) (args : List Value) :
    Grows (W.coBody id c args) := by
  refine Grows.bind (Grows.ite ?_ (grows_exec h _)) fun r => grows_exec h (finishBody r)
  exact (grows_exec h _).bind fun _ => (Grows.record _).bind fun _ => grows_exec h _

theorem grows_resume {W : Logger} (h : W.Grows) (id : ℕ) (args : List Value) :
    Grows (W.resumeCo id args) := by
  refine (Grows.unlogged get).bind fun s =>
    @Grows.ite _ _ _ _ ((s.cos id).status = .suspended) _ _ _ ?_ (.pure _)
  refine (Grows.unlogged (enterCo id)).bind fun p => (Grows.record _).bind fun _ => ?_
  refine ((grows_coBody h id p.2 args).recordEnd _).bind fun q => ?_
  exact (Grows.unlogged (leaveCo id p.1 q.2)).bind fun _ => (Grows.record _).bind fun _ => .pure _

theorem logger_grows (L : Lib) : ∀ n, (logger L n).Grows
  | 0 => ⟨fun _ _ => .throw _, fun _ _ => .throw _, fun _ _ => .throw _, fun _ _ _ => .throw _,
      fun _ _ => .throw _⟩
  | n + 1 => by
    have ih := logger_grows L n
    exact ⟨fun _ _ => grows_exec ih _, fun _ _ => grows_loop ih L _ _, fun _ _ => grows_exec ih _,
      fun _ _ _ => grows_exec ih _, fun id args => grows_resume ih id args⟩

/-! ### Programs on the machine alone -/

/-- Operations on the running thread and the heap. -/
def LuaOp.machine {β : Type} : LuaOp β → Prop
  | .get | .set _ | .buffer _ => True
  | _ => False

/-- A program on the machine writes no event, and starts nothing again. -/
theorem exec_machine {W : Logger} (R : Rec) {x : LuaM α} (h : x.Only LuaOp.machine) :
    W.exec x = unlogged (R.exec x) := by
  refine h.exec (Γ := fun {β} (x : Hist β) y => x = unlogged y) ?_ ?_ ?_ ?_ ?_
  · exact fun b => rfl
  · intro β γ x y f g hx hf
    subst hx
    funext p
    rw [Effect.logged_bind_apply, unlogged, unlogged, bind_apply]
    cases y p.1 with
    | ok b t => exact congrFun (hf b) (t, p.2)
    | error e t => rfl
  · intro β o ho
    cases o with
    | get => rfl
    | set m => rfl
    | buffer n => rfl
    | _ => exact ho.elim
  · exact fun e => rfl
  · intro β x y hx
    subst hx
    funext p
    change catchHist (unlogged y) p = unlogged (catchLua y) p
    rw [catchHist, unlogged, unlogged, catchLua]
    cases y p.1 with
    | ok b t => rfl
    | error e t => cases e <;> rfl

theorem machine_pushVal (v : Value) : (pushVal v).Only LuaOp.machine :=
  .bind (.perform trivial) fun _ => .ite (.throw _) (.perform trivial)

theorem machine_pushVals : ∀ vs : List Value, (pushVals vs).Only LuaOp.machine
  | [] => .pure _
  | v :: vs => (machine_pushVal v).bind fun _ => machine_pushVals vs

theorem machine_modify (f : Machine → Machine) : (modify f : LuaM PUnit).Only LuaOp.machine :=
  .bind (.perform trivial) fun _ => .perform trivial

theorem machine_normalize (base want : ℕ) : (normalize base want).Only LuaOp.machine :=
  .ite (.pure _) (.bind (.perform trivial) fun _ => .ite (machine_modify _) (machine_pushVals _))

theorem machine_placeArgs (want : ℕ) (args : List Value) : (placeArgs want args).Only LuaOp.machine :=
  (machine_pushVals args).bind fun _ => .bind (.perform trivial) fun _ => machine_normalize _ _

/-- A program on the machine leaves the coroutines alone. -/
theorem machine_state (R : Rec) {x : LuaM α} (h : x.Only LuaOp.machine) (s : LuaState) :
    ∃ m, endState (R.exec x s) = { s with toMachine := m } := by
  refine h.exec (H := R.handler) (G := R.handler)
    (Γ := fun {β} (x : Exec β) _ => ∀ s, ∃ m, endState (x s) = { s with toMachine := m })
    ?_ ?_ ?_ ?_ ?_ s
  · exact fun b s => ⟨s.toMachine, rfl⟩
  · intro β γ x y f g hx hf s
    obtain ⟨m, hm⟩ := hx s
    rw [bind_apply]
    cases hr : x s with
    | ok b t =>
      rw [hr] at hm
      obtain ⟨m', hm'⟩ := hf b t
      exact ⟨m', by rw [hm', show t = { s with toMachine := m } from hm]⟩
    | error e t =>
      rw [hr] at hm
      exact ⟨m, hm⟩
  · intro β o ho s
    cases o with
    | get => exact ⟨s.toMachine, rfl⟩
    | set m => exact ⟨m, rfl⟩
    | buffer n =>
      refine ⟨s.toMachine, ?_⟩
      change endState ((if n > ARGBUF then throw Stop.buffer else pure () : Exec Unit) s) = _
      by_cases hn : n > ARGBUF
      · rw [if_pos hn]
        rfl
      · rw [if_neg hn]
        rfl
    | _ => exact ho.elim
  · exact fun e s => ⟨s.toMachine, rfl⟩
  · intro β x y hx s
    obtain ⟨m, hm⟩ := hx s
    refine ⟨m, ?_⟩
    change endState (catchLua x s) = _
    rw [← hm, catchLua]
    cases x s with
    | ok b t => rfl
    | error e t => cases e <;> rfl

/-- The arguments of a resume take the place of the yield's results when there
is room for them. -/
theorem placeArgs_cases (R : Rec) (s : LuaState) (c : CoState) (hc : c.started = true)
    (args : List Value) :
    (bodyFits s.toMachine c args.length = true ∧ R.exec (placeArgs c.want args) s =
      .ok () { s with vstack := (padTo c.want args).reverse ++ s.vstack }) ∨
    (bodyFits s.toMachine c args.length = false ∧ ∃ e m, R.exec (placeArgs c.want args) s =
      .error (.lua e) { s with toMachine := m }) := by
  have hfits : bodyFits s.toMachine c args.length = true ↔
      (args.length = 0 ∨ s.vsp + args.length ≤ STACK_CAP) ∧
        (c.want = WANT_ALL ∨ c.want ≤ args.length ∨ s.vsp + c.want ≤ STACK_CAP) := by
    simp only [bodyFits, hc, if_true, Bool.and_eq_true, Bool.or_eq_true, decide_eq_true_eq, or_assoc]
  have hstate : ∀ e t, R.exec (placeArgs c.want args) s = .error e t →
      ∃ m, t = { s with toMachine := m } := by
    intro e t he
    obtain ⟨m, hm⟩ := machine_state R (machine_placeArgs c.want args) s
    rw [he] at hm
    exact ⟨m, hm⟩
  rw [← Bool.not_eq_true, hfits]
  simp only [placeArgs, exec_bind] at hstate ⊢
  rcases pushVals_cases R s args with ⟨h, hp⟩ | ⟨h, hp⟩
  · rw [bind_ok hp] at hstate ⊢
    simp only [exec_get] at hstate ⊢
    rw [bind_ok (getMachine_apply _)] at hstate ⊢
    set t : LuaState := { s with vstack := args.reverse ++ s.vstack } with ht
    have hb : t.vsp - args.length = s.vstack.length := by simp [ht, Machine.vsp]
    rw [hb] at hstate ⊢
    rcases @normalize_cases R t args s.vstack c.want rfl with ⟨hw, hn⟩ | ⟨hw, s', he⟩
    · exact .inl ⟨⟨h, hw⟩, hn⟩
    · obtain ⟨m, hm⟩ := hstate _ _ he
      exact .inr ⟨fun hf => hw hf.2, _, m, by rw [he, hm]⟩
  · rw [bind_error hp] at hstate ⊢
    obtain ⟨m, hm⟩ := hstate _ _ rfl
    exact .inr ⟨fun hf => h hf.1, _, m, by rw [hm]⟩

/-! ### Rules -/

/-- The record of a coroutine that is entered, as the run of its body sees it. -/
def LuaState.entering (s : LuaState) (id : ℕ) : CoState :=
  { s.cos id with status := .running, parent := s.current }

/-- What `I` has to survive. `Q` is what is known of the context of a coroutine
and its body when it yields. -/
structure Rule (Q : ℕ → Value → LuaState → List Moment → Prop) (I : LuaState → List Moment → Prop) :
    Prop where
  machine : ∀ {s l} (m : Machine), I s l → I { s with toMachine := m } l
  yielded : ∀ {s l} (ip want : ℕ), I s l → I { s with yieldIp := ip, yieldWant := want }
    (⟨.yielded ip want, { s with yieldIp := ip, yieldWant := want }⟩ :: l)
  created : ∀ {s s' l f i}, I s l → takeSlot f s = .ok (some i) s' → I s' (⟨.created i, s'⟩ :: l)
  closed : ∀ {s s' l i}, I s l → closeCo i s = .ok .suspended s' → I s' (⟨.closed i, s'⟩ :: l)
  fetched : ∀ {s l} (ip : ℕ), s.Consistent → I s l → I s (⟨.fetched ip, s⟩ :: l)
  ended : ∀ {s l} (r : Except Stop Next), I s l → I s (⟨stepEvent r, s⟩ :: l)
  /-- a coroutine starts -/
  started : ∀ {s s1 l id args}, s.Consistent → I s l → (s.cos id).status = .suspended →
    Entered s s1 id → (s.cos id).started = false →
    I s1 (⟨.entered id args (s.entering id), s1⟩ :: l)
  /-- a coroutine goes on behind its yield -/
  continued : ∀ {s s1 l id args}, s.Consistent → I s l → (s.cos id).status = .suspended →
    Entered s s1 id → (s.cos id).started = true →
    bodyFits s1.toMachine (s.entering id) args.length = true →
    ∀ s2, s2 = { s1 with vstack := (padTo (s.cos id).want args).reverse ++ s1.vstack } →
    I s2 (⟨.continued id (s.cos id).ip, s2⟩ :: ⟨.entered id args (s.entering id), s1⟩ :: l)
  /-- there is no room for it to go on -/
  cramped : ∀ {s s1 l id args}, s.Consistent → I s l → (s.cos id).status = .suspended →
    Entered s s1 id → (s.cos id).started = true →
    bodyFits s1.toMachine (s.entering id) args.length = false →
    ∀ m : Machine, I { s1 with toMachine := m } (⟨.entered id args (s.entering id), s1⟩ :: l)
  aborted : ∀ {s s1 l id args c}, I s l → ⟨.entered id args c, s1⟩ ∈ l →
    bodyFits s1.toMachine c args.length = false → I s (⟨.aborted id, s⟩ :: l)
  left : ∀ {s s1 s2 s3 l l2 id how}, s.Consistent → I s l → (s.cos id).status = .suspended →
    Entered s s1 id → Keeps s1 s2 → I s2 l2 → (how = .suspended → Q id (s.cos id).func s2 l2) →
    SwitchedBack s2 s3 id s.current how → I s3 (⟨.left id how (s.cos id).func, s3⟩ :: l2)

/-- A consistent state with `I`. -/
def Along (I : LuaState → List Moment → Prop) (p : LuaState × List Moment) : Prop :=
  p.1.Consistent ∧ I p.1 p.2

theorem endState_eraseLog (r : EStateM.Result Stop (LuaState × List Moment) α) :
    endState (eraseLog r) = (ending r).1 := by cases r <;> rfl

theorem stays_along {x : Hist α} {y : Exec α} {I : LuaState → List Moment → Prop} (he : Erases x y)
    (hp : Preserves y) (h : ∀ s l, s.Consistent → I s l → I (ending (x (s, l))).1 (ending (x (s, l))).2) :
    Stays (Along I) x := by
  intro p hs
  refine ⟨?_, h p.1 p.2 hs.1 hs.2⟩
  rw [← endState_eraseLog, he p]
  exact (hp p.1 hs.1).consistent

/-! ### What holds along a run -/

theorem takeSlot_cases (f : Value) (s : LuaState) : takeSlot f s = .ok none s ∨
    ∃ i s', takeSlot f s = .ok (some i) s' ∧ (s.cos i).status = .dead ∧ s' = { s with
      threads := Function.update s.threads (i + 1) {}
      cos := Function.update s.cos i { status := .suspended, func := f } } := by
  simp only [takeSlot, bind_apply, get_apply]
  cases hf : (List.range MAX_COS).find? fun i => (s.cos i).status = .dead with
  | none => exact .inl rfl
  | some i => exact .inr ⟨i, _, rfl, by simpa using List.find?_some hf, rfl⟩

section Rule
variable {Q : ℕ → Value → LuaState → List Moment → Prop} {I : LuaState → List Moment → Prop}

theorem Rule.create (h : Rule Q I) (f : Value) : Stays (Along I) (createHist f) := by
  refine stays_along (erases_create f) (preserves_takeSlot f) fun s l _ hI => ?_
  rcases takeSlot_cases f s with hn | ⟨i, s', hs, -, -⟩
  · simp only [createHist, recordEnd, unlogged, hn]
    exact hI
  · simp only [createHist, recordEnd, unlogged, hs]
    exact h.created hI hs

theorem Rule.close (h : Rule Q I) (i : ℕ) : Stays (Along I) (closeHist i) := by
  refine stays_along (erases_close i) (preserves_closeCo i) fun s l _ hI => ?_
  by_cases hs : (s.cos i).status = .suspended
  · have hc := closeCo_suspended hs
    simp only [closeHist, recordEnd, unlogged, hc]
    exact h.closed hI hc
  · have hc := closeCo_other hs
    simp only [closeHist, recordEnd, unlogged, hc]
    cases hst : (s.cos i).status with
    | suspended => exact absurd hst hs
    | _ => exact hI

/-- The entry points keep `I`. -/
structure Logger.Keep (W : Logger) (I : LuaState → List Moment → Prop) : Prop where
  call : ∀ f n, Stays (Along I) (W.call f n)
  runAt : ∀ ip floor, Stays (Along I) (W.runAt ip floor)
  tget : ∀ t k, Stays (Along I) (W.tget t k)
  tset : ∀ t k v, Stays (Along I) (W.tset t k v)
  resume : ∀ id args, Stays (Along I) (W.resume id args)

theorem Rule.op (h : Rule Q I) {W : Logger} (hW : W.Keep I) (o : LuaOp α) :
    Stays (Along I) (W.op o) := by
  cases o with
  | call f n => exact hW.call f n
  | runAt ip floor => exact hW.runAt ip floor
  | tget t k => exact hW.tget t k
  | tset t k v => exact hW.tset t k v
  | resume id args => exact hW.resume id args
  | coCreate f => exact h.create f
  | coClose i => exact h.close i
  | setYield ip want => exact fun p hp => ⟨hp.1, h.yielded ip want hp.2⟩
  | get => exact fun p hp => hp
  | set m => exact fun p hp => ⟨hp.1, h.machine m hp.2⟩
  | buffer n =>
    refine fun p hp => ?_
    change Along I (ending (unlogged (if n > ARGBUF then throw Stop.buffer else pure ()) p))
    by_cases hn : n > ARGBUF
    · rw [if_pos hn]
      exact hp
    · rw [if_neg hn]
      exact hp
  | current => exact fun p hp => hp
  | coStatus i => exact fun p hp => hp

theorem stays_catch {J : LuaState × List Moment → Prop} {x : Hist α} (h : Stays J x) :
    Stays J (catchHist x) := by
  intro p hp
  have he := h p hp
  rw [catchHist]
  cases hx : x p with
  | ok a q =>
    rw [hx] at he
    exact he
  | error e q =>
    rw [hx] at he
    cases e <;> exact he

theorem Rule.exec (h : Rule Q I) {W : Logger} (hW : W.Keep I) (x : LuaM α) :
    Stays (Along I) (W.exec x) := by
  have hi : Effect.Invariant W.handler (Stays (Along I)) := {
    pure := .pure
    bind := .bind
    op := h.op hW
    throw := fun e => .throw e.toStop
    attempt := stays_catch }
  exact hi.exec x

theorem Rule.turn (h : Rule Q I) {W : Logger} (hW : W.Keep I) (L : Lib) (ip floor : ℕ) :
    Stays (Along I) (W.turn L ip floor) := by
  refine Stays.bind (Stays.record fun s l hp => ⟨hp.1, h.fetched ip hp.1 hp.2⟩) fun _ => ?_
  refine Stays.bind (fun p hp => hp) fun s => ?_
  cases s.code[ip]? with
  | none => exact .throw _
  | some i =>
    refine Stays.bind (stays_catch fun p hp => ?_) fun r => h.exec hW (turnEnd floor r)
    have he := h.exec hW (execStep L (ip + 1) i) p hp
    rw [recordEnd]
    cases hx : W.exec (execStep L (ip + 1) i) p with
    | ok next q =>
      rw [hx] at he
      exact ⟨he.1, h.ended _ he.2⟩
    | error e q =>
      rw [hx] at he
      exact ⟨he.1, h.ended _ he.2⟩

theorem Rule.loop (h : Rule Q I) {W : Logger} (hW : W.Keep I) (L : Lib) (ip floor : ℕ) :
    Stays (Along I) (W.loop L ip floor) := by
  refine (h.turn hW L ip floor).bind fun next => ?_
  cases next with
  | goto ip => exact hW.runAt ip floor
  | halt r => exact .pure r

/-- From the switch to a coroutine to the end of its run. -/
theorem Rule.body (h : Rule Q I) {W : Logger} (hW : W.Keep I) (R : Rec) {s s1 : LuaState}
    {l : List Moment} {id : ℕ} (args : List Value) (hc : s.Consistent) (hI : I s l)
    (hs : (s.cos id).status = .suspended) (h1 : Entered s s1 id) (h1c : s1.Consistent)
    {p : LuaState × List Moment} (hp : ending (W.coBody id (s.entering id) args
      (s1, ⟨.entered id args (s.entering id), s1⟩ :: l)) = p) : I p.1 p.2 := by
  subst hp
  have hrest : ∀ r, Stays (Along I) (W.exec (finishBody r)) := fun r => h.exec hW _
  rw [Logger.coBody]
  cases hst : (s.cos id).started with
  | false =>
    have hrun : W.coRun id (s.entering id) args = W.exec (startBody (s.cos id).func args) :=
      if_neg (by rw [LuaState.entering, hst]; exact Bool.false_ne_true)
    rw [hrun]
    exact ((h.exec hW _).bind hrest _ ⟨h1c, h.started hc hI hs h1 hst⟩).2
  | true =>
    have hrun : W.coRun id (s.entering id) args = W.exec (placeArgs (s.entering id).want args) >>=
        fun _ => record (fun t => ⟨.continued id (s.cos id).ip, t⟩) >>=
        fun _ => W.exec (attempt (doRunAt (s.cos id).ip 0)) := if_pos hst
    rw [hrun, exec_machine R (machine_placeArgs _ _), bind_assoc]
    rcases placeArgs_cases R s1 (s.entering id) hst args with ⟨hf, he⟩ | ⟨hf, e, m, he⟩
    · rw [Effect.logged_bind_ok (Effect.unlogged_ok he _), bind_assoc]
      generalize ht : ({ s1 with vstack := (padTo (s.entering id).want args).reverse ++ s1.vstack } :
        LuaState) = t
      have htc : t.Consistent := by
        rw [← ht]
        exact h1c
      have hJ := h.continued hc hI hs h1 hst hf t ht.symm
      exact ((h.exec hW _).bind hrest (t, _) ⟨htc, hJ⟩).2
    · rw [Effect.logged_bind_error (Effect.unlogged_error he _)]
      exact h.cramped hc hI hs h1 hst hf m

/-- What holds of the context of a coroutine when it yields. -/
def Logger.YieldsWith (W : Logger) (Q : ℕ → Value → LuaState → List Moment → Prop) : Prop :=
  ∀ id c args p out s l, p.1.current = id + 1 → W.coBody id c args p = .ok (out, .suspended) (s, l) →
    Q id c.func s l

theorem Rule.switchCo (h : Rule Q I) {W : Logger} {R : Rec} (hW : W.Keep I) (hE : W.Erases R)
    (hG : W.Grows) (hP : R.Preserves) (hQ : W.YieldsWith Q) {s : LuaState} {l : List Moment} {id : ℕ}
    (args : List Value) (hc : s.Consistent) (hI : I s l) (hs : (s.cos id).status = .suspended)
    {p : LuaState × List Moment} (hp : ending (W.switchCo id args (s, l)) = p) : I p.1 p.2 := by
  subst hp
  have hne := current_ne hc (not_running_of_suspended hs)
  obtain ⟨s1, he, h1⟩ := enterCo_spec hne
  have h1c : s1.Consistent := (h1.keeps hc hs).consistent
  have hbody := fun p hp => @Rule.body Q I h W hW R s s1 l id args hc hI hs h1 h1c p hp
  have hpres := preserves_exec hP (coBody (s.entering id) args) s1 h1c
  have hgrow := grows_coBody hG id (s.entering id) args
    (s1, ⟨.entered id args (s.entering id), s1⟩ :: l)
  have herase := erases_coBody hE id (s.entering id) args
  have hruns := coBody_runsWhen R (s.entering id) args s1
  rw [Logger.switchCo, Effect.logged_bind_ok (Effect.unlogged_ok he l)]
  change I (ending ((recordEnd _ (W.coBody id (s.entering id) args) >>= _)
    (s1, ⟨.entered id args (s.entering id), s1⟩ :: l))).1 (ending ((recordEnd _
      (W.coBody id (s.entering id) args) >>= _) (s1, ⟨.entered id args (s.entering id), s1⟩ :: l))).2
  rw [Effect.logged_bind_apply, recordEnd]
  cases hr : W.coBody id (s.entering id) args (s1, ⟨.entered id args (s.entering id), s1⟩ :: l) with
  | ok q p2 =>
    obtain ⟨out, how⟩ := q
    obtain ⟨s2, l2⟩ := p2
    have hk := herase.ok hr
    rw [hk] at hpres
    obtain ⟨s3, hl, h3⟩ := leaveCo_spec s2 how hne
    have hI2 := hbody (s2, l2) (by rw [hr]; rfl)
    have hleft := h.left hc hI hs h1 hpres hI2 (fun hh => hQ id (s.entering id) args _ out s2 l2
      h1.current (by rw [hr, hh])) h3
    change I (ending ((unlogged (leaveCo id s.current how) >>= _) (s2, l2))).1
      (ending ((unlogged (leaveCo id s.current how) >>= _) (s2, l2))).2
    rw [Effect.logged_bind_ok (Effect.unlogged_ok hl l2)]
    exact hleft
  | error e p2 =>
    obtain ⟨s2, l2⟩ := p2
    have hI2 := hbody (s2, l2) (by rw [hr]; rfl)
    have hk := herase.error hr
    rw [hr] at hgrow
    cases e with
    | lua e =>
      have hfit : bodyFits s1.toMachine (s.entering id) args.length = false := by
        rcases hruns with ⟨f, t, hf, hh⟩ | ⟨-, a, t, ht⟩ | ⟨hf, -⟩
        · rw [hk] at hf
          cases hf
          exact absurd rfl (hh e)
        · rw [hk] at ht
          cases ht
        · exact Bool.eq_false_iff.mpr hf
      exact h.aborted hI2 (hgrow.subset List.mem_cons_self) hfit
    | fault f => exact hI2
    | fuel => exact hI2
    | buffer => exact hI2

theorem Rule.resume (h : Rule Q I) {W : Logger} {R : Rec} (hW : W.Keep I) (hE : W.Erases R)
    (hG : W.Grows) (hP : R.Preserves) (hQ : W.YieldsWith Q) (id : ℕ) (args : List Value) :
    Stays (Along I) (W.resumeCo id args) := by
  refine stays_along (erases_resume hE id args) (preserves_resume hP id args) fun s l hc hI => ?_
  have hr : W.resumeCo id args (s, l) = (if (s.cos id).status = .suspended then W.switchCo id args
      else pure (.refused (s.cos id).status)) (s, l) := rfl
  rw [hr]
  by_cases hs : (s.cos id).status = .suspended
  · rw [if_pos hs]
    exact h.switchCo hW hE hG hP hQ args hc hI hs rfl
  · rw [if_neg hs]
    exact hI

/-- The interpreter keeps what its events keep. -/
theorem Rule.keep (h : Rule Q I) (L : Lib) (hQ : ∀ n, (logger L n).YieldsWith Q) :
    ∀ n, (logger L n).Keep I
  | 0 => ⟨fun _ _ => .throw _, fun _ _ => .throw _, fun _ _ => .throw _, fun _ _ _ => .throw _,
      fun _ _ => .throw _⟩
  | n + 1 => by
    have ih := h.keep L hQ n
    exact ⟨fun _ _ => h.exec ih _, fun _ _ => h.loop ih L _ _, fun _ _ => h.exec ih _,
      fun _ _ _ => h.exec ih _, fun id args => h.resume ih (logger_erases L n) (logger_grows L n)
        (interp_preserves L n) (hQ n) id args⟩

/-- **Run rule.** What holds at the start of a run, and survives every event,
holds at its end. -/
theorem Rule.run (h : Rule Q I) (L : Lib) (hQ : ∀ n, (logger L n).YieldsWith Q) (n : ℕ)
    (source : List UInt8) {s : LuaState} (hI : I s.reset []) :
    I (endState (Lua.run (interp L n) source s)) (history L n source s) := by
  have he : endState (Lua.run (interp L n) source s) = (ending (runHist (logger L n) source (s, []))).1 :=
    (congrArg endState (runHist_erases L n source (s, []))).symm.trans (endState_eraseLog _)
  have hr : runHist (logger L n) source (s, []) = (logger L n).exec (runScript source) (s.reset, []) :=
    Effect.logged_bind_ok (Effect.unlogged_ok (modify_apply LuaState.reset s) []) _
  rw [he, history, hr]
  exact (h.exec (h.keep L hQ n) (runScript source) (s.reset, []) ⟨reset_consistent s, hI⟩).2

end Rule

end Lua
end Rustrapper

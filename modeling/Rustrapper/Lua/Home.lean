/-
# Coming back to a thread

A resume switches to a coroutine and back. It stays there when an error comes up
before the run of the coroutine, which takes a coroutine without room. Where all
coroutines that were entered had room, a computation that ends, with a result or
an error, ends on the thread it began on.
-/
import Rustrapper.Lua.History

namespace Rustrapper
namespace Lua

open Effect (Logged unlogged record recordEnd ending eraseLog)

variable {α β : Type}

/-- All coroutines that were entered had room to run. -/
def Roomy (l : List Moment) : Prop := ∀ m ∈ l, m.roomy = true

theorem Roomy.of_suffix {l l' : List Moment} (h : Roomy l) (hs : l' <:+ l) : Roomy l' :=
  fun m hm => h m (hs.subset hm)

/-- A result, or an error that a script can catch. -/
def Soft : EStateM.Result Stop (LuaState × List Moment) α → Prop
  | .ok _ _ => True
  | .error (.lua _) _ => True
  | .error _ _ => False

/-- `x` ends on the thread it began on. -/
structure Homes (x : Hist α) : Prop where
  grows : Effect.Grows x
  current : ∀ p, Soft (x p) → Roomy (ending (x p)).2 → (ending (x p)).1.current = p.1.current

theorem Homes.ok {x : Hist α} (h : Homes x) {p q : LuaState × List Moment} {a : α}
    (hx : x p = .ok a q) (hq : Roomy q.2) : q.1.current = p.1.current := by
  have hc := h.current p
  rw [hx] at hc
  exact hc trivial hq

theorem Homes.error {x : Hist α} (h : Homes x) {p q : LuaState × List Moment} {e : LuaError}
    (hx : x p = .error (.lua e) q) (hq : Roomy q.2) : q.1.current = p.1.current := by
  have hc := h.current p
  rw [hx] at hc
  exact hc trivial hq

theorem Homes.pure (a : α) : Homes (pure a : Hist α) := ⟨.pure a, fun _ _ _ => rfl⟩

theorem Homes.throw (e : Stop) : Homes (throw e : Hist α) := ⟨.throw e, fun _ _ _ => rfl⟩

theorem Homes.bind {x : Hist α} {f : α → Hist β} (hx : Homes x) (hf : ∀ a, Homes (f a)) :
    Homes (x >>= f) := by
  refine ⟨hx.grows.bind fun a => (hf a).grows, fun p hs hr => ?_⟩
  rw [Effect.logged_bind_apply] at hs hr ⊢
  cases hp : x p with
  | ok a q =>
    rw [hp] at hs hr
    have hq := ((hf a).grows q)
    calc (ending (f a q)).1.current = q.1.current := (hf a).current q hs hr
      _ = p.1.current := hx.ok hp (hr.of_suffix hq)
  | error e q =>
    rw [hp] at hs hr
    cases e with
    | lua e => exact hx.error hp hr
    | _ => exact hs.elim

theorem Homes.attempt {x : Hist α} (h : Homes x) : Homes (catchHist x) := by
  refine ⟨grows_catch h.grows, fun p hs hr => ?_⟩
  rw [catchHist] at hs hr ⊢
  cases hp : x p with
  | ok a q =>
    rw [hp] at hr
    exact h.ok hp hr
  | error e q =>
    rw [hp] at hs hr
    cases e with
    | lua e => exact h.error hp hr
    | _ => exact hs.elim

theorem Homes.record (e : LuaState → Moment) : Homes (record e) := ⟨.record e, fun _ _ _ => rfl⟩

theorem Homes.recordEnd {x : Hist α} (h : Homes x) (e : Except Stop α → LuaState → List Moment) :
    Homes (recordEnd e x) := by
  refine ⟨h.grows.recordEnd e, fun p hs hr => ?_⟩
  rw [Effect.recordEnd] at hs hr ⊢
  cases hp : x p with
  | ok a q =>
    rw [hp] at hr
    have hq : q.2 <:+ e (.ok a) q.1 ++ q.2 := List.suffix_append _ _
    have hc := h.ok hp (Roomy.of_suffix (l := e (.ok a) q.1 ++ q.2) hr hq)
    exact hc
  | error f q =>
    rw [hp] at hs hr
    cases f with
    | lua f =>
      have hq : q.2 <:+ e (.error (.lua f)) q.1 ++ q.2 := List.suffix_append _ _
      have hc := h.error hp (Roomy.of_suffix (l := e (.error (.lua f)) q.1 ++ q.2) hr hq)
      exact hc
    | _ => exact hs.elim

theorem Homes.unlogged {x : Exec α} (h : ∀ s, (endState (x s)).current = s.current) :
    Homes (unlogged x) := by
  refine ⟨.unlogged x, fun p _ _ => ?_⟩
  have hp := h p.1
  rw [Effect.unlogged]
  cases hx : x p.1 with
  | ok a s =>
    rw [hx] at hp
    exact hp
  | error e s =>
    rw [hx] at hp
    exact hp

/-! ### The interpreter -/

/-- The entry points come back to the thread they began on. -/
structure Logger.Homes (W : Logger) : Prop where
  call : ∀ f n, Lua.Homes (W.call f n)
  runAt : ∀ ip floor, Lua.Homes (W.runAt ip floor)
  tget : ∀ t k, Lua.Homes (W.tget t k)
  tset : ∀ t k v, Lua.Homes (W.tset t k v)
  resume : ∀ id args, Lua.Homes (W.resume id args)

theorem homes_create (f : Value) : Homes (createHist f) := by
  refine (Homes.unlogged fun s => ?_).recordEnd _
  rcases takeSlot_cases f s with h | ⟨i, s', h, -, rfl⟩
  · rw [h]
    rfl
  · rw [h]
    rfl

theorem homes_close (i : ℕ) : Homes (closeHist i) := by
  refine (Homes.unlogged fun s => ?_).recordEnd _
  by_cases hs : (s.cos i).status = .suspended
  · rw [closeCo_suspended hs]
    rfl
  · rw [closeCo_other hs]
    rfl

theorem homes_op {W : Logger} (h : W.Homes) (o : LuaOp α) : Homes (W.op o) := by
  cases o with
  | call f n => exact h.call f n
  | runAt ip floor => exact h.runAt ip floor
  | tget t k => exact h.tget t k
  | tset t k v => exact h.tset t k v
  | resume id args => exact h.resume id args
  | coCreate f => exact homes_create f
  | coClose i => exact homes_close i
  | setYield ip want =>
    have hset : Homes (unlogged (modify fun s : LuaState => { s with yieldIp := ip, yieldWant := want })) :=
      .unlogged fun _ => rfl
    exact hset.bind fun _ => .record _
  | get => exact Homes.unlogged (x := Rec.stuck.op .get) fun _ => rfl
  | set m => exact Homes.unlogged (x := Rec.stuck.op (.set m)) fun _ => rfl
  | buffer n =>
    refine .unlogged fun s => ?_
    show (endState ((if n > ARGBUF then throw Stop.buffer else pure () : Exec Unit) s)).current = _
    by_cases hn : n > ARGBUF
    · rw [if_pos hn]
      rfl
    · rw [if_neg hn]
      rfl
  | current => exact Homes.unlogged (x := Rec.stuck.op .current) fun _ => rfl
  | coStatus i => exact Homes.unlogged (x := Rec.stuck.op (.coStatus i)) fun _ => rfl

theorem homes_exec {W : Logger} (h : W.Homes) (x : LuaM α) : Homes (W.exec x) := by
  have hi : Effect.Invariant W.handler Homes := {
    pure := .pure
    bind := .bind
    op := homes_op h
    throw := fun e => .throw e.toStop
    attempt := .attempt }
  exact hi.exec x

theorem homes_turn {W : Logger} (h : W.Homes) (L : Lib) (ip floor : ℕ) : Homes (W.turn L ip floor) := by
  refine (Homes.record _).bind fun _ => (Homes.unlogged (x := get) fun _ => rfl).bind fun s => ?_
  cases s.code[ip]? with
  | none => exact .throw _
  | some i => exact ((homes_exec h _).recordEnd _).attempt.bind fun r => homes_exec h (turnEnd floor r)

theorem homes_loop {W : Logger} (h : W.Homes) (L : Lib) (ip floor : ℕ) : Homes (W.loop L ip floor) := by
  refine (homes_turn h L ip floor).bind fun next => ?_
  cases next with
  | goto ip => exact h.runAt ip floor
  | halt r => exact .pure r

theorem homes_coBody {W : Logger} (h : W.Homes) (id : ℕ) (c : CoState) (args : List Value) :
    Homes (W.coBody id c args) := by
  refine Homes.bind ?_ fun r => homes_exec h (finishBody r)
  unfold Logger.coRun
  by_cases hs : c.started = true
  · rw [if_pos hs]
    exact (homes_exec h _).bind fun _ => (Homes.record _).bind fun _ => homes_exec h _
  · rw [if_neg hs]
    exact homes_exec h _

theorem swapThreads_current {s : LuaState} {i j : ℕ} (h : s.current = i) :
    (s.swapThreads i j).current = j := by
  unfold LuaState.swapThreads
  by_cases hij : i = j
  · rw [if_pos hij, h, hij]
  · rw [if_neg hij]

theorem enterCo_current (id : ℕ) (s : LuaState) :
    ∃ c s1, enterCo id s = .ok (s.current, c) s1 ∧ s1.current = id + 1 := by
  simp only [enterCo, bind_apply, get_apply, setCo, modify_apply, setThreadStatus, swapThreads]
  by_cases h : s.current = 0
  · rw [if_pos h]
    exact ⟨_, _, rfl, swapThreads_current rfl⟩
  · rw [if_neg h]
    exact ⟨_, _, rfl, swapThreads_current rfl⟩

theorem leaveCo_current (id p : ℕ) (left : Left) {s : LuaState} (h : s.current = id + 1) :
    ∃ s', leaveCo id p left s = .ok () s' ∧ s'.current = p := by
  simp only [leaveCo, bind_apply, get_apply]
  cases left <;> simp only [setCo, bind_apply, modify_apply, setThreadStatus, swapThreads] <;>
    by_cases hp : p = 0
  · rw [if_pos hp]
    exact ⟨_, rfl, swapThreads_current h⟩
  · rw [if_neg hp]
    exact ⟨_, rfl, swapThreads_current h⟩
  · rw [if_pos hp]
    exact ⟨_, rfl, swapThreads_current h⟩
  · rw [if_neg hp]
    exact ⟨_, rfl, swapThreads_current h⟩

/-- A switch to a coroutine and back: it stays there only without room. -/
theorem homes_switch {W : Logger} {R : Rec} (h : W.Homes) (hE : W.Erases R) (id : ℕ)
    (args : List Value) : Homes (W.switchCo id args) := by
  have hbody := fun c => homes_coBody h id c args
  refine ⟨?_, ?_⟩
  · refine (Effect.Grows.unlogged (enterCo id)).bind fun p => (Effect.Grows.record _).bind fun _ => ?_
    refine ((hbody p.2).grows.recordEnd _).bind fun q => ?_
    exact (Effect.Grows.unlogged (leaveCo id p.1 q.2)).bind fun _ => (Effect.Grows.record _).bind fun _ => .pure _
  rintro ⟨s, l⟩ hs hr
  obtain ⟨c, s1, he, h1⟩ := enterCo_current id s
  rw [Logger.switchCo, Effect.logged_bind_ok (Effect.unlogged_ok he l)] at hs hr ⊢
  change Soft ((recordEnd _ (W.coBody id c args) >>= _) (s1, ⟨.entered id args c, s1⟩ :: l)) at hs
  change Roomy (ending ((recordEnd _ (W.coBody id c args) >>= _)
    (s1, ⟨.entered id args c, s1⟩ :: l))).2 at hr
  change (ending ((recordEnd _ (W.coBody id c args) >>= _)
    (s1, ⟨.entered id args c, s1⟩ :: l))).1.current = s.current
  rw [Effect.logged_bind_apply, recordEnd] at hs hr ⊢
  cases hb : W.coBody id c args (s1, ⟨.entered id args c, s1⟩ :: l) with
  | ok q p2 =>
    obtain ⟨out, how⟩ := q
    obtain ⟨s2, l2⟩ := p2
    rw [hb] at hr
    have h2 : Roomy l2 → s2.current = id + 1 := fun h => ((hbody c).ok hb h).trans h1
    by_cases hl2 : Roomy l2
    · obtain ⟨s3, hl, h3⟩ := leaveCo_current id s.current how (h2 hl2)
      change (ending ((unlogged (leaveCo id s.current how) >>= _) (s2, l2))).1.current = s.current
      rw [Effect.logged_bind_ok (Effect.unlogged_ok hl l2)]
      exact h3
    · refine absurd (Roomy.of_suffix hr ?_) hl2
      have hg : Effect.Grows (unlogged (leaveCo id s.current how) >>= fun _ =>
          record (fun s => (⟨.left id how c.func, s⟩ : Moment)) >>= fun _ => pure out) :=
        (Effect.Grows.unlogged _).bind fun _ => (Effect.Grows.record _).bind fun _ => .pure _
      exact hg (s2, l2)
  | error e p2 =>
    rw [hb] at hs hr
    cases e with
    | lua e =>
      -- the error came up before the run, so there was no room
      have hp : Roomy p2.2 := Roomy.of_suffix (l := ⟨.aborted id, p2.1⟩ :: p2.2) hr (List.suffix_cons _ _)
      have hg := (hbody c).grows (s1, ⟨.entered id args c, s1⟩ :: l)
      rw [hb] at hg
      have hroom : bodyFits s1.toMachine c args.length = true :=
        hp ⟨.entered id args c, s1⟩ (hg.subset List.mem_cons_self)
      have hk := (erases_coBody hE id c args).error hb
      rcases coBody_runsWhen R c args s1 with ⟨f, t, hf, hh⟩ | ⟨-, a, t, ht⟩ | ⟨hf, -⟩
      · rw [hk] at hf
        cases hf
        exact absurd rfl (hh e)
      · rw [hk] at ht
        cases ht
      · exact absurd hroom hf
    | _ => exact hs.elim

theorem homes_resume {W : Logger} {R : Rec} (h : W.Homes) (hE : W.Erases R) (id : ℕ)
    (args : List Value) : Homes (W.resumeCo id args) := by
  refine (Homes.unlogged (x := get) fun _ => rfl).bind fun s => ?_
  by_cases hs : (s.cos id).status = .suspended
  · rw [if_pos hs]
    exact homes_switch h hE id args
  · rw [if_neg hs]
    exact .pure _

/-- **Where every coroutine has room, threads come back.** -/
theorem logger_homes (L : Lib) : ∀ n, (logger L n).Homes
  | 0 => ⟨fun _ _ => .throw _, fun _ _ => .throw _, fun _ _ => .throw _, fun _ _ _ => .throw _,
      fun _ _ => .throw _⟩
  | n + 1 => by
    have ih := logger_homes L n
    exact ⟨fun _ _ => homes_exec ih _, fun _ _ => homes_loop ih L _ _, fun _ _ => homes_exec ih _,
      fun _ _ _ => homes_exec ih _, fun id args => homes_resume ih (logger_erases L n) id args⟩

end Lua
end Rustrapper

/-
# Argument and result buffers

Arguments and coroutine results pass through buffers of 32 entries. `Wide` is
the interpreter with buffers as long as needed: filling one notes the count and
never fails. A run of the interpreter is the run of `Wide` as long as no count
is above 32; the first one above aborts the program (`run_wide_iff`).
-/
import Rustrapper.Lua.Steps

namespace Rustrapper
namespace Lua

variable {α β : Type}

/-! ### The interpreter with long buffers -/

/-- Computations that carry the largest count noted so far. -/
abbrev Noted := EStateM Stop (LuaState × ℕ)

/-- A computation that notes nothing. -/
def liftNoted (x : Exec α) : Noted α := fun p =>
  match x p.1 with
  | .ok a s => .ok a (s, p.2)
  | .error e s => .error e (s, p.2)

/-- Fill `n` entries of a buffer. -/
def note (n : ℕ) : Noted Unit := fun p => .ok () (p.1, max p.2 n)

def catchNoted (x : Noted α) : Noted (Except LuaError α) := fun p =>
  match x p with
  | .ok a q => .ok (.ok a) q
  | .error (.lua e) q => .ok (.error e) q
  | .error e q => .error e q

/-- The entry points of the interpreter with long buffers. -/
structure Wide where
  call : Value → ℕ → Noted ExecResult
  runAt : ℕ → ℕ → Noted ExecResult
  tget : Value → Value → Noted Value
  tset : Value → Value → Value → Noted Unit
  resume : ℕ → List Value → Noted Resumed

def Wide.op (W : Wide) : LuaOp α → Noted α
  | .buffer n => note n
  | .call f argc => W.call f argc
  | .runAt ip floor => W.runAt ip floor
  | .tget t k => W.tget t k
  | .tset t k v => W.tset t k v
  | .resume id args => W.resume id args
  | o => liftNoted (Rec.stuck.op o)

def Wide.handler (W : Wide) : Effect.Handler LuaOp Exc LuaError Noted where
  op := W.op
  throw e := throw e.toStop
  attempt := catchNoted
  throw_bind := fun _ _ => rfl

def Wide.exec (W : Wide) (x : LuaM α) : Noted α := x.exec W.handler

/-- `switch` and `resume` with long buffers. -/
def Wide.switchCo (W : Wide) (id : ℕ) (args : List Value) : Noted Resumed := do
  let (parent, c) ← liftNoted (enterCo id)
  let (out, left) ← W.exec (coBody c args)
  liftNoted (leaveCo id parent left)
  pure out

def Wide.resumeCo (W : Wide) (id : ℕ) (args : List Value) : Noted Resumed := do
  let s ← liftNoted get
  if (s.cos id).status = .suspended then W.switchCo id args
  else pure (.refused (s.cos id).status)

def Wide.stuck : Wide where
  call _ _ := throw .fuel
  runAt _ _ := throw .fuel
  tget _ _ := throw .fuel
  tset _ _ _ := throw .fuel
  resume _ _ := throw .fuel

def Wide.next (L : Lib) (W : Wide) : Wide where
  call f argc := W.exec (Lua.call L f argc)
  runAt ip floor := W.exec (Lua.runAt L ip floor)
  tget t k := W.exec (Lua.tget t k)
  tset t k v := W.exec (Lua.tset t k v)
  resume id args := W.resumeCo id args

def wide (L : Lib) : ℕ → Wide
  | 0 => Wide.stuck
  | n + 1 => (wide L n).next L

/-- `run` with long buffers. -/
def runWide (W : Wide) (source : List UInt8) : Noted Unit := do
  liftNoted (modify LuaState.reset)
  W.exec (runScript source)

section Values
variable (W : Wide) (s : LuaState) (m : ℕ) {vs rest : List Value}

theorem wide_bind (x : LuaM α) (f : α → LuaM β) :
    W.exec (x >>= f) = W.exec x >>= fun a => W.exec (f a) := Effect.exec_bind W.handler x f

/-- With long buffers a call has all its arguments, in order. -/
theorem wide_loadArgs (hs : s.vstack = vs.reverse ++ rest) (hc : s.vsp ≤ STACK_CAP) :
    W.exec (loadArgs rest.length vs.length) (s, m) = .ok vs (s, max m vs.length) := by
  have hv : s.vsp = vs.length + rest.length := by simp [Machine.vsp, hs]
  have hvals : W.exec (valsAt rest.length vs.length) (s, max m vs.length) =
      .ok vs (s, max m vs.length) := by
    have hle : ¬ rest.length + vs.length > STACK_CAP := by omega
    rw [valsAt, wide_bind]
    change W.exec (if rest.length + vs.length > STACK_CAP then _ else _) _ = _
    rw [if_neg hle]
    change EStateM.Result.ok (stackVals s.vstack _ _) _ = _
    rw [hs, stackVals_reverse_append]
  rw [loadArgs, wide_bind]
  exact hvals

/-- With long buffers a coroutine hands over all its results, in order. -/
theorem wide_takeResults (hs : s.vstack = vs.reverse ++ rest) :
    W.exec (takeResults vs.length) (s, m) =
      .ok vs ({ s with vstack := rest }, max m vs.length) := by
  have hle : vs.length ≤ s.vsp := by simp [Machine.vsp, hs]
  have htop : (s.vstack.take vs.length).reverse = vs := by
    rw [hs, List.take_left' (List.length_reverse), List.reverse_reverse]
  have hrest : resize (s.vsp - vs.length) .nil s.vstack = rest := by
    have h := resize_append Value.nil vs.reverse rest
    rw [← hs] at h
    rw [← h]
    congr 1
    simp [Machine.vsp, hs]
  rw [takeResults, wide_bind]
  change (W.exec (topVals vs.length >>= _)) (s, max m vs.length) = _
  rw [wide_bind, topVals, wide_bind]
  change (W.exec (if vs.length ≤ s.vsp then _ else _) >>= _) _ = _
  rw [if_pos hle]
  change EStateM.Result.ok _ _ = _
  rw [htop]
  change EStateM.Result.ok vs ({ s with vstack := resize (s.vsp - vs.length) .nil s.vstack }, _) = _
  rw [hrest]

end Values

/-! ### The two interpreters -/

/-- The largest count noted. -/
def noted : EStateM.Result Stop (LuaState × ℕ) α → ℕ
  | .ok _ p => p.2
  | .error _ p => p.2

/-- A result without what was noted. -/
def forget : EStateM.Result Stop (LuaState × ℕ) α → EStateM.Result Stop LuaState α
  | .ok a p => .ok a p.1
  | .error e p => .error e p.1

/-- `r` is the result `w`, unless `w` notes a count above 32 on the way from
`m`: then `r` is the abort at a buffer, which `w` never is. -/
structure Agree (m : ℕ) (w : EStateM.Result Stop (LuaState × ℕ) α)
    (r : EStateM.Result Stop LuaState α) : Prop where
  le : m ≤ noted w
  noFault : ∀ p, w ≠ .error .buffer p
  same : noted w ≤ ARGBUF → r = forget w
  abort : m ≤ ARGBUF → ARGBUF < noted w → ∃ t, r = .error .buffer t

/-- The two results when nothing is noted. -/
theorem Agree.of_noted_eq {m : ℕ} {w : EStateM.Result Stop (LuaState × ℕ) α} (hm : noted w = m)
    (hw : ∀ p, w ≠ .error .buffer p) : Agree m w (forget w) where
  le := Nat.le_of_eq hm.symm
  noFault := hw
  same _ := rfl
  abort h h' := absurd h (by omega)

/-- The two computations agree from every state. -/
def Agrees (x : Noted α) (y : Exec α) : Prop := ∀ s m, Agree m (x (s, m)) (y s)

theorem agrees_lift {x : Exec α} (h : Total x) :
    Agrees (liftNoted x) x := by
  intro s m
  have hf : x s = forget (liftNoted x (s, m)) := by
    unfold liftNoted forget
    cases x s <;> rfl
  rw [hf]
  refine .of_noted_eq ?_ ?_
  · unfold liftNoted noted
    cases x s <;> rfl
  · intro p hp
    unfold liftNoted at hp
    obtain ⟨a, t, hx⟩ := h s
    rw [hx] at hp
    cases hp

theorem agrees_pure (a : α) : Agrees (pure a) (pure a) :=
  fun s m => @Agree.of_noted_eq _ m (.ok a (s, m)) rfl fun _ h => nomatch h

theorem agrees_throw {e : Stop} (he : e ≠ .buffer) :
    Agrees (throw e : Noted α) (throw e) :=
  fun s m => @Agree.of_noted_eq _ m (.error e (s, m)) rfl fun _ h => by cases h; exact he rfl

theorem agrees_bind {x : Noted α} {y : Exec α} {f : α → Noted β} {g : α → Exec β}
    (h : Agrees x y) (hf : ∀ a, Agrees (f a) (g a)) : Agrees (x >>= f) (y >>= g) := by
  intro s m
  have hx := h s m
  have hb : (x >>= f) (s, m) = match x (s, m) with
      | .ok a p => f a p
      | .error e p => .error e p := by
    simp only [bind, EStateM.bind]
    cases x (s, m) <;> rfl
  rw [hb]
  cases hw : x (s, m) with
  | error e p =>
    rw [hw] at hx
    refine ⟨hx.le, fun q hq => ?_, fun hn => ?_, fun hm hn => ?_⟩
    · cases hq
      exact hx.noFault p rfl
    · exact bind_error (hx.same hn) g
    · obtain ⟨t, ht⟩ := hx.abort hm hn
      exact ⟨t, bind_error ht g⟩
  | ok a p =>
    rw [hw] at hx
    obtain ⟨t, k⟩ := p
    have hk := hf a t k
    have hle : m ≤ k := hx.le
    refine ⟨Nat.le_trans hle hk.le, hk.noFault, fun hn => ?_, fun hm hn => ?_⟩
    · rw [bind_ok (hx.same (Nat.le_trans hk.le hn)) g]
      exact hk.same hn
    · by_cases hkb : k ≤ ARGBUF
      · rw [bind_ok (hx.same hkb) g]
        exact hk.abort hkb hn
      · obtain ⟨u, hu⟩ := hx.abort hm (Nat.lt_of_not_le hkb)
        exact ⟨u, bind_error hu g⟩

theorem agrees_catch {x : Noted α} {y : Exec α} (h : Agrees x y) :
    Agrees (catchNoted x) (catchLua y) := by
  intro s m
  have hx := h s m
  unfold catchNoted
  cases hw : x (s, m) with
  | ok a p =>
    rw [hw] at hx
    refine ⟨hx.le, fun q hq => (by cases hq), fun hn => ?_, fun hm hn => ?_⟩
    · rw [catchLua, hx.same hn]
      rfl
    · obtain ⟨t, ht⟩ := hx.abort hm hn
      exact ⟨t, by rw [catchLua, ht]⟩
  | error e p =>
    rw [hw] at hx
    have habort : m ≤ ARGBUF → ARGBUF < p.2 → ∃ t, catchLua y s = .error .buffer t := by
      intro hm hn
      obtain ⟨t, ht⟩ := hx.abort hm hn
      exact ⟨t, by rw [catchLua, ht]⟩
    cases e with
    | lua e =>
      refine ⟨hx.le, fun q hq => (by cases hq), fun hn => ?_, habort⟩
      rw [catchLua, hx.same hn]
      rfl
    | fault f =>
      refine ⟨hx.le, fun q hq => (by cases hq), fun hn => ?_, habort⟩
      rw [catchLua, hx.same hn]
      rfl
    | fuel =>
      refine ⟨hx.le, fun q hq => (by cases hq), fun hn => ?_, habort⟩
      rw [catchLua, hx.same hn]
      rfl
    | buffer => exact absurd rfl (hx.noFault p)

/-- Filling a buffer. -/
theorem agrees_note (n : ℕ) (R : Rec) : Agrees (note n) (R.op (.buffer n)) := by
  intro s m
  refine ⟨Nat.le_max_left m n, fun q hq => (by cases hq), fun hn => ?_, fun hm hn => ?_⟩
  · have hle : n ≤ ARGBUF := Nat.le_trans (Nat.le_max_right m n) hn
    simp [Rec.op, forget, note, Nat.not_lt.mpr hle]
  · have hlt : ARGBUF < n := by
      have : ARGBUF < max m n := hn
      omega
    exact ⟨s, by simp [Rec.op, hlt]⟩

/-! ### Runs -/

/-- The entry points agree. -/
structure Wide.Simulates (W : Wide) (R : Rec) : Prop where
  call : ∀ f n, Agrees (W.call f n) (R.call f n)
  runAt : ∀ ip floor, Agrees (W.runAt ip floor) (R.runAt ip floor)
  tget : ∀ t k, Agrees (W.tget t k) (R.tget t k)
  tset : ∀ t k v, Agrees (W.tset t k v) (R.tset t k v)
  resume : ∀ id args, Agrees (W.resume id args) (R.resume id args)

theorem agrees_op {W : Wide} {R : Rec} (h : W.Simulates R) (o : LuaOp α) :
    Agrees (W.op o) (R.op o) := by
  cases o with
  | buffer n => exact agrees_note n R
  | call f n => exact h.call f n
  | runAt ip floor => exact h.runAt ip floor
  | tget t k => exact h.tget t k
  | tset t k v => exact h.tset t k v
  | resume id args => exact h.resume id args
  | get => exact agrees_lift (x := R.op .get) fun s => ⟨_, _, rfl⟩
  | set m => exact agrees_lift (x := R.op (.set m)) fun s => ⟨_, _, rfl⟩
  | current => exact agrees_lift (x := R.op .current) (total_get.bind fun _ => .pure _)
  | setYield ip want => exact agrees_lift (x := R.op (.setYield ip want)) (total_modify _)
  | coCreate f => exact agrees_lift (x := R.op (.coCreate f)) (total_takeSlot f)
  | coStatus i => exact agrees_lift (x := R.op (.coStatus i)) (total_get.bind fun _ => .pure _)
  | coClose i => exact agrees_lift (x := R.op (.coClose i)) (total_closeCo i)

theorem agrees_exec {W : Wide} {R : Rec} (h : W.Simulates R) (x : LuaM α) :
    Agrees (W.exec x) (R.exec x) := by
  have hr : Effect.Relator W.handler R.handler Agrees := {
    pure := agrees_pure
    bind := agrees_bind
    op := agrees_op h
    throw := fun e => agrees_throw (by cases e <;> exact fun h => nomatch h)
    attempt := agrees_catch }
  exact hr.exec x

theorem agrees_switch {W : Wide} {R : Rec} (h : W.Simulates R) (id : ℕ) (args : List Value) :
    Agrees (W.switchCo id args) (switch R id args) :=
  agrees_bind (agrees_lift (total_enterCo id)) fun p => agrees_bind (agrees_exec h _) fun q =>
    agrees_bind (agrees_lift (total_leaveCo id p.1 q.2)) fun _ => agrees_pure _

theorem agrees_resume {W : Wide} {R : Rec} (h : W.Simulates R) (id : ℕ) (args : List Value) :
    Agrees (W.resumeCo id args) (resume R id args) := by
  refine agrees_bind (agrees_lift total_get) fun s => ?_
  split_ifs
  · exact agrees_switch h id args
  · exact agrees_pure _

/-- The two interpreters agree at every depth. -/
theorem wide_simulates (L : Lib) : ∀ n, (wide L n).Simulates (interp L n)
  | 0 => by
    have hf : Stop.fuel ≠ .buffer := fun h => nomatch h
    exact ⟨fun _ _ => agrees_throw hf, fun _ _ => agrees_throw hf, fun _ _ => agrees_throw hf,
      fun _ _ _ => agrees_throw hf, fun _ _ => agrees_throw hf⟩
  | n + 1 => by
    have ih := wide_simulates L n
    exact ⟨fun _ _ => agrees_exec ih _, fun _ _ => agrees_exec ih _, fun _ _ => agrees_exec ih _,
      fun _ _ _ => agrees_exec ih _, fun id args => agrees_resume ih id args⟩

theorem agrees_run (L : Lib) (n : ℕ) (source : List UInt8) :
    Agrees (runWide (wide L n) source) (run (interp L n) source) :=
  agrees_bind (agrees_lift (total_modify _)) fun _ => agrees_exec (wide_simulates L n) _

/-- **Counts and buffers.** A run is the run with buffers as long as needed, in
which every call has all its arguments and every resume all its results, if and
only if none of these counts is above 32. -/
theorem run_wide_iff (L : Lib) (n : ℕ) (source : List UInt8) (s : LuaState) :
    run (interp L n) source s = forget (runWide (wide L n) source (s, 0)) ↔
      noted (runWide (wide L n) source (s, 0)) ≤ ARGBUF := by
  have h := agrees_run L n source s 0
  constructor
  · intro heq
    by_contra hn
    obtain ⟨t, ht⟩ := h.abort (Nat.zero_le _) (Nat.lt_of_not_le hn)
    rw [heq] at ht
    cases hw : runWide (wide L n) source (s, 0) with
    | ok a p => rw [hw] at ht; cases ht
    | error e p =>
      rw [hw] at ht
      cases ht
      exact h.noFault p hw
  · exact h.same

/-- A call with 33 arguments, two of them from a call in last place. -/
theorem long_call_aborts : stopOf (run (interp bareLib 60) (bytesOf
    "print(1,2,3,4,5,6,7,8,9,10,11,12,13,14,15,16,17,18,19,20,21,22,23,24,25,26,27,28,29,30,31,select(1,1,2))")
      {}) = some .buffer := by decide +kernel

end Lua
end Rustrapper

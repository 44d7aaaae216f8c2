/-
# Coroutines and their resumers

A resume swaps the running context out, runs the coroutine, and swaps back.
Meanwhile the resumer is `normal`, and no program of the interpreter touches
the record or the saved context of a coroutine that is `normal`, nor that of
the main thread while another one runs (`Keeps`). So a resume that gets to its
run gives the resumer its context back; one that fails before, for want of room
for the arguments or the locals, leaves the coroutine's context in its place
(`resume_restores_iff`).
-/
import Rustrapper.Lua.Fuel

namespace Rustrapper
namespace Lua

variable {α β : Type}

/-! ### What a run leaves alone -/

/-- Running, or waiting for a coroutine it resumed. -/
def CoStatus.busy : CoStatus → Bool
  | .running | .normal => true
  | _ => false

/-- The current coroutine is running. -/
def LuaState.Consistent (s : LuaState) : Prop :=
  s.current ≠ 0 → (s.cos (s.current - 1)).status = .running

/-- From `s`, `s'` is reached without touching a thread that waits for another:
the `normal` coroutines and, when a coroutine runs, the main thread. Those that
ran or waited still do. -/
structure Keeps (s s' : LuaState) : Prop where
  consistent : s'.Consistent
  current : s.current ≠ 0 → s'.current ≠ 0
  main : s.current ≠ 0 → s'.threads 0 = s.threads 0
  normal : ∀ i, (s.cos i).status = .normal → s'.cos i = s.cos i ∧ s'.threads (i + 1) = s.threads (i + 1)
  busy : ∀ i, (s.cos i).status.busy = true → (s'.cos i).status.busy = true

theorem Keeps.refl {s : LuaState} (h : s.Consistent) : Keeps s s :=
  ⟨h, fun h => h, fun _ => rfl, fun _ _ => ⟨rfl, rfl⟩, fun _ h => h⟩

theorem Keeps.trans {s t u : LuaState} (h : Keeps s t) (h' : Keeps t u) : Keeps s u where
  consistent := h'.consistent
  current hs := h'.current (h.current hs)
  main hs := (h'.main (h.current hs)).trans (h.main hs)
  normal i hi := by
    obtain ⟨h1, h2⟩ := h.normal i hi
    obtain ⟨h3, h4⟩ := h'.normal i (by rw [h1, hi])
    exact ⟨h3.trans h1, h4.trans h2⟩
  busy i hi := h'.busy i (h.busy i hi)

/-- A change outside of the coroutines. -/
theorem Keeps.of_eq {s s' : LuaState} (h : s.Consistent) (hc : s'.current = s.current)
    (ht : s'.threads = s.threads) (hs : s'.cos = s.cos) : Keeps s s' where
  consistent := by
    rw [LuaState.Consistent, hc, hs]
    exact h
  current h := by rwa [hc]
  main _ := by rw [ht]
  normal i _ := by rw [ht, hs]; exact ⟨rfl, rfl⟩
  busy i hi := by rwa [hs]

/-- A change of the record, and maybe of the context, of a coroutine that is
neither running nor waiting. -/
theorem Keeps.of_update {s : LuaState} (h : s.Consistent) {i : ℕ} (hb : (s.cos i).status.busy = false)
    (c : CoState) {threads : ℕ → Thread} (ht : ∀ j, j ≠ i + 1 → threads j = s.threads j) :
    Keeps s { s with cos := Function.update s.cos i c, threads := threads } := by
  have hne : ∀ j, (s.cos j).status.busy = true → j ≠ i := by
    rintro j hj rfl
    rw [hb] at hj
    cases hj
  refine ⟨fun h0 => ?_, fun h => h, fun _ => ht 0 (by omega), fun j hj => ?_, fun j hj => ?_⟩
  · have hr := h h0
    change (Function.update s.cos i c (s.current - 1)).status = _
    rwa [Function.update_of_ne (hne _ (by rw [hr]; rfl))]
  · have hji : j ≠ i := hne j (by rw [hj]; rfl)
    exact ⟨Function.update_of_ne hji _ _, ht (j + 1) (by omega)⟩
  · change (Function.update s.cos i c j).status.busy = true
    rwa [Function.update_of_ne (hne j hj)]

/-- From a consistent state, `x` does not touch a waiting thread. -/
def Preserves (x : Exec α) : Prop := ∀ s : LuaState, s.Consistent → Keeps s (endState (x s))

theorem Preserves.pure (a : α) : Preserves (Pure.pure a : Exec α) := fun _ h => .refl h

theorem Preserves.throw (e : Stop) : Preserves (throw e : Exec α) := fun _ h => .refl h

theorem Preserves.bind {x : Exec α} {f : α → Exec β} (hx : Preserves x) (hf : ∀ a, Preserves (f a)) :
    Preserves (x >>= f) := by
  intro s hs
  have hk := hx s hs
  rw [bind_apply]
  cases hr : x s with
  | ok a t =>
    rw [hr] at hk
    exact hk.trans (hf a t hk.consistent)
  | error e t =>
    rw [hr] at hk
    exact hk

theorem Preserves.catch {x : Exec α} (hx : Preserves x) : Preserves (catchLua x) := by
  intro s hs
  have hk := hx s hs
  rw [catchLua]
  cases hr : x s with
  | ok a t =>
    rw [hr] at hk
    exact hk
  | error e t =>
    rw [hr] at hk
    cases e <;> exact hk

theorem preserves_takeSlot (f : Value) : Preserves (takeSlot f) := by
  intro s hs
  simp only [takeSlot, bind_apply, get_apply]
  cases hf : (List.range MAX_COS).find? fun i => (s.cos i).status = .dead with
  | none => exact .refl hs
  | some i =>
    have hd : (s.cos i).status = .dead := by simpa using List.find?_some hf
    exact .of_update hs (by rw [hd]; rfl) _ fun j hj => Function.update_of_ne hj _ s.threads

theorem closeCo_suspended {s : LuaState} {i : ℕ} (hs : (s.cos i).status = .suspended) :
    closeCo i s = .ok .suspended
      { s with cos := Function.update s.cos i { s.cos i with status := .dead } } := by
  simp only [closeCo, bind_apply, get_apply]
  rw [if_pos hs, hs]
  rfl

theorem closeCo_other {s : LuaState} {i : ℕ} (hs : (s.cos i).status ≠ .suspended) :
    closeCo i s = .ok (s.cos i).status s := by
  simp only [closeCo, bind_apply, get_apply]
  rw [if_neg hs]
  rfl

theorem preserves_closeCo (i : ℕ) : Preserves (closeCo i) := by
  intro s hs
  simp only [closeCo, bind_apply, get_apply]
  by_cases hst : (s.cos i).status = .suspended
  · rw [if_pos hst]
    exact .of_update hs (by rw [hst]; rfl) _ fun j _ => rfl
  · rw [if_neg hst]
    exact .refl hs

/-- The entry points do not touch a waiting thread. -/
structure Rec.Preserves (R : Rec) : Prop where
  call : ∀ f n, Lua.Preserves (R.call f n)
  runAt : ∀ ip floor, Lua.Preserves (R.runAt ip floor)
  tget : ∀ t k, Lua.Preserves (R.tget t k)
  tset : ∀ t k v, Lua.Preserves (R.tset t k v)
  resume : ∀ id args, Lua.Preserves (R.resume id args)

theorem preserves_op {R : Rec} (h : R.Preserves) (o : LuaOp α) : Preserves (R.op o) := by
  cases o with
  | call f n => exact h.call f n
  | runAt ip floor => exact h.runAt ip floor
  | tget t k => exact h.tget t k
  | tset t k v => exact h.tset t k v
  | resume id args => exact h.resume id args
  | get => exact fun s hs => .refl hs
  | set m => exact fun s hs => .of_eq hs rfl rfl rfl
  | buffer n =>
    simp only [Rec.op]
    split_ifs
    · exact .throw _
    · exact .pure _
  | current => exact fun s hs => .refl hs
  | setYield ip want => exact fun s hs => .of_eq hs rfl rfl rfl
  | coCreate f => exact preserves_takeSlot f
  | coStatus i => exact fun s hs => .refl hs
  | coClose i => exact preserves_closeCo i

/-- No program touches a waiting thread. -/
theorem preserves_exec {R : Rec} (h : R.Preserves) (x : LuaM α) : Preserves (R.exec x) := by
  have hi : Effect.Invariant R.handler Preserves := {
    pure := .pure
    bind := .bind
    op := preserves_op h
    throw := fun e => .throw e.toStop
    attempt := .catch }
  exact hi.exec x

/-! ### The switches -/

/-- The record of a coroutine that is left; one that yielded goes on behind its
yield. -/
def CoState.leave (c : CoState) (s : LuaState) : Left → CoState
  | .suspended => { c with status := .suspended, ip := s.yieldIp, want := s.yieldWant }
  | .dead => { c with status := .dead }

theorem CoState.leave_status (c : CoState) (s : LuaState) (left : Left) :
    (c.leave s left).status = .suspended ∨ (c.leave s left).status = .dead := by
  cases left
  · exact .inl rfl
  · exact .inr rfl

/-- `s1` is `s` switched to coroutine `id`. -/
structure Entered (s s1 : LuaState) (id : ℕ) : Prop where
  current : s1.current = id + 1
  machine : s1.toMachine = { s.toMachine with toThread := s.threads (id + 1) }
  yielded : s1.yieldIp = s.yieldIp ∧ s1.yieldWant = s.yieldWant
  self : s1.cos id = { s.cos id with status := .running, parent := s.current, started := true }
  parent : s.current ≠ 0 → s1.cos (s.current - 1) = { s.cos (s.current - 1) with status := .normal }
  others : ∀ i, i ≠ id → s.current ≠ i + 1 → s1.cos i = s.cos i
  saved : s1.threads s.current = s.toThread
  threads : ∀ j, j ≠ s.current → j ≠ id + 1 → s1.threads j = s.threads j

/-- `s3` is `s2` switched back from coroutine `id` to thread `p`. -/
structure SwitchedBack (s2 s3 : LuaState) (id p : ℕ) (left : Left) : Prop where
  current : s3.current = p
  machine : s3.toMachine = { s2.toMachine with toThread := s2.threads p }
  yielded : s3.yieldIp = s2.yieldIp ∧ s3.yieldWant = s2.yieldWant
  self : s3.cos id = (s2.cos id).leave s2 left
  resumer : p ≠ 0 → s3.cos (p - 1) = { s2.cos (p - 1) with status := .running }
  others : ∀ i, i ≠ id → p ≠ i + 1 → s3.cos i = s2.cos i
  saved : s3.threads (id + 1) = s2.toThread
  threads : ∀ j, j ≠ p → j ≠ id + 1 → s3.threads j = s2.threads j

theorem current_ne {s : LuaState} {i : ℕ} (hc : s.Consistent)
    (hs : (s.cos i).status ≠ .running) : s.current ≠ i + 1 := by
  intro h
  have hr := hc (by omega)
  rw [h, Nat.add_sub_cancel] at hr
  exact hs hr

theorem swapThreads_of_ne {s : LuaState} {i j : ℕ} (h : i ≠ j) : s.swapThreads i j = { s with
    toThread := s.threads j
    threads := Function.update (Function.update s.threads j (s.threads i)) i s.toThread
    current := j } := if_neg h

theorem enterCo_spec {s : LuaState} {id : ℕ} (hne : s.current ≠ id + 1) :
    ∃ s1, enterCo id s = .ok (s.current, { s.cos id with status := .running, parent := s.current }) s1 ∧
      Entered s s1 id := by
  simp only [enterCo, bind_apply, get_apply, setCo, modify_apply, setThreadStatus, swapThreads]
  by_cases h0 : s.current = 0
  · simp only [h0, if_true, pure_apply]
    rw [swapThreads_of_ne (by omega)]
    refine ⟨_, congrArg₂ EStateM.Result.ok ?_ rfl, ⟨rfl, rfl, ⟨rfl, rfl⟩, ?_,
      fun h => absurd h0 h, fun i hi _ => ?_, ?_,
      fun j hj hj' => ?_⟩⟩
    · simp
    · simp [h0]
    · simp [Function.update_of_ne hi]
    · simp [h0]
    · rw [h0] at hj
      simp [Function.update_of_ne hj, Function.update_of_ne hj']
  · simp only [h0, if_false, modify_apply]
    rw [swapThreads_of_ne hne]
    have hid : id ≠ s.current - 1 := by omega
    have hid' : s.current - 1 ≠ id := by omega
    refine ⟨_, congrArg₂ EStateM.Result.ok ?_ rfl, ⟨rfl, rfl, ⟨rfl, rfl⟩, ?_, fun _ => ?_,
      fun i hi hp => ?_, ?_, fun j hj hj' => ?_⟩⟩
    · simp [Function.update_of_ne hid]
    · simp [Function.update_of_ne hid]
    · simp [Function.update_of_ne hid']
    · have hi' : i ≠ s.current - 1 := by omega
      simp [Function.update_of_ne hi, Function.update_of_ne hi']
    · simp
    · simp [Function.update_of_ne hj, Function.update_of_ne hj']

theorem leaveCo_spec (s2 : LuaState) {id p : ℕ} (left : Left) (hne : p ≠ id + 1) :
    ∃ s3, leaveCo id p left s2 = .ok () s3 ∧ SwitchedBack s2 s3 id p left := by
  have hne' : id + 1 ≠ p := hne.symm
  have hleave : leaveCo id p left s2 = (setCo id (fun c => c.leave s2 left) >>= fun _ =>
      swapThreads (id + 1) p >>= fun _ => setThreadStatus p .running) s2 := by
    cases left <;> rfl
  rw [hleave]
  simp only [bind_apply, setCo, modify_apply, setThreadStatus, swapThreads]
  rw [swapThreads_of_ne hne']
  by_cases h0 : p = 0
  · simp only [h0, if_true, pure_apply]
    refine ⟨_, rfl, ⟨rfl, rfl, ⟨rfl, rfl⟩, ?_, fun h => absurd rfl h, fun i hi _ => ?_, ?_,
      fun j hj hj' => ?_⟩⟩
    · simp
    · simp [Function.update_of_ne hi]
    · simp
    · simp [Function.update_of_ne hj, Function.update_of_ne hj']
  · simp only [h0, if_false, modify_apply]
    have hid : id ≠ p - 1 := by omega
    have hid' : p - 1 ≠ id := by omega
    refine ⟨_, rfl, ⟨rfl, rfl, ⟨rfl, rfl⟩, ?_, fun _ => ?_, fun i hi hp => ?_, ?_, fun j hj hj' => ?_⟩⟩
    · simp [Function.update_of_ne hid]
    · simp [Function.update_of_ne hid']
    · have hi' : i ≠ p - 1 := by omega
      simp [Function.update_of_ne hi, Function.update_of_ne hi']
    · simp
    · simp [Function.update_of_ne hj, Function.update_of_ne hj']

theorem Entered.keeps {s s1 : LuaState} {id : ℕ} (h : Entered s s1 id) (hc : s.Consistent)
    (hs : (s.cos id).status = .suspended) : Keeps s s1 where
  consistent _ := by rw [h.current, Nat.add_sub_cancel, h.self]
  current _ := by rw [h.current]; omega
  main h0 := h.threads 0 (Ne.symm h0) (by omega)
  normal i hi := by
    have hid : i ≠ id := by
      rintro rfl
      rw [hs] at hi
      cases hi
    have hcur : s.current ≠ i + 1 := current_ne hc (by rw [hi]; rintro ⟨⟩)
    exact ⟨h.others i hid hcur, h.threads (i + 1) (Ne.symm hcur) (by omega)⟩
  busy i hi := by
    by_cases hid : i = id
    · rw [hid, h.self]
      rfl
    · by_cases hcur : s.current = i + 1
      · have hp := h.parent (by omega)
        rw [hcur, Nat.add_sub_cancel] at hp
        rw [hp]
        rfl
      · rwa [h.others i hid hcur]

/-- The resumer's context waits in its slot. -/
theorem Entered.waiting {s s1 s2 : LuaState} {id : ℕ} (h : Entered s s1 id) (hk : Keeps s1 s2) :
    s2.threads s.current = s.toThread := by
  rw [← h.saved]
  by_cases h0 : s.current = 0
  · rw [h0]
    exact hk.main (by rw [h.current]; omega)
  · have hn := (hk.normal (s.current - 1) (by rw [h.parent h0])).2
    rwa [Nat.sub_add_cancel (by omega)] at hn

/-- A switch to a coroutine and back touches no other waiting thread. -/
theorem SwitchedBack.keeps {s s2 s3 : LuaState} {id : ℕ} {left : Left}
    (h : SwitchedBack s2 s3 id s.current left) (hc : s.Consistent)
    (hs : (s.cos id).status = .suspended) (hk : Keeps s s2) : Keeps s s3 where
  consistent h0 := by
    rw [h.current] at h0 ⊢
    rw [h.resumer h0]
  current h0 := by rwa [h.current]
  main h0 := (h.threads 0 (Ne.symm h0) (by omega)).trans (hk.main h0)
  normal i hi := by
    have hid : i ≠ id := by
      rintro rfl
      rw [hs] at hi
      cases hi
    have hcur : s.current ≠ i + 1 := current_ne hc (by rw [hi]; rintro ⟨⟩)
    obtain ⟨h1, h2⟩ := hk.normal i hi
    exact ⟨(h.others i hid hcur).trans h1, (h.threads (i + 1) (Ne.symm hcur) (by omega)).trans h2⟩
  busy i hi := by
    have hid : i ≠ id := by
      rintro rfl
      rw [hs] at hi
      cases hi
    by_cases hcur : s.current = i + 1
    · have hp := h.resumer (by omega)
      rw [hcur, Nat.add_sub_cancel] at hp
      rw [hp]
      rfl
    · rw [h.others i hid hcur]
      exact hk.busy i hi

theorem not_running_of_suspended {st : CoStatus} (h : st = .suspended) : st ≠ .running := by
  rw [h]
  rintro ⟨⟩

theorem switch_error {R : Rec} {s s1 s2 : LuaState} {id p : ℕ} {c : CoState} {args : List Value}
    {e : Stop} (he : enterCo id s = .ok (p, c) s1) (hb : R.exec (coBody c args) s1 = .error e s2) :
    switch R id args s = .error e s2 := (bind_ok he _).trans (bind_error hb _)

theorem switch_ok {R : Rec} {s s1 s2 s3 : LuaState} {id p : ℕ} {c : CoState} {args : List Value}
    {out : Resumed} {left : Left} (he : enterCo id s = .ok (p, c) s1)
    (hb : R.exec (coBody c args) s1 = .ok (out, left) s2) (hl : leaveCo id p left s2 = .ok () s3) :
    switch R id args s = .ok out s3 :=
  (bind_ok he _).trans ((bind_ok hb _).trans (bind_ok hl _))

theorem preserves_switch {R : Rec} (hR : R.Preserves) {s : LuaState} (hc : s.Consistent) {id : ℕ}
    (hs : (s.cos id).status = .suspended) (args : List Value) :
    Keeps s (endState (switch R id args s)) := by
  have hne := current_ne hc (not_running_of_suspended hs)
  obtain ⟨s1, he, h1⟩ := enterCo_spec hne
  set c : CoState := { s.cos id with status := .running, parent := s.current }
  have hk1 := h1.keeps hc hs
  have hk2 := preserves_exec hR (coBody c args) s1 hk1.consistent
  cases hb : R.exec (coBody c args) s1 with
  | error e s2 =>
    rw [hb] at hk2
    rw [switch_error he hb]
    exact hk1.trans hk2
  | ok p s2 =>
    rw [hb] at hk2
    obtain ⟨s3, hl, h3⟩ := leaveCo_spec s2 p.2 hne
    rw [switch_ok he hb hl]
    exact h3.keeps hc hs (hk1.trans hk2)

theorem preserves_resume {R : Rec} (hR : R.Preserves) (id : ℕ) (args : List Value) :
    Preserves (resume R id args) := by
  intro s hc
  simp only [resume, bind_apply, get_apply]
  by_cases hs : (s.cos id).status = .suspended
  · rw [if_pos hs]
    exact preserves_switch hR hc hs args
  · rw [if_neg hs]
    exact .refl hc

/-- **Waiting threads wait.** The interpreter does not touch them, in any run. -/
theorem interp_preserves (L : Lib) : ∀ n, (interp L n).Preserves
  | 0 => ⟨fun _ _ => .throw _, fun _ _ => .throw _, fun _ _ => .throw _, fun _ _ _ => .throw _,
      fun _ _ => .throw _⟩
  | n + 1 => by
    have ih := interp_preserves L n
    exact ⟨fun _ _ => preserves_exec ih _, fun _ _ => preserves_exec ih _,
      fun _ _ => preserves_exec ih _, fun _ _ _ => preserves_exec ih _,
      fun id args => preserves_resume ih id args⟩

/-! ### Whether a coroutine gets to run -/

/-- The function of the program a coroutine runs. -/
def Machine.bodyOf (m : Machine) : Value → Option FuncDef
  | .func fi => m.funcs[fi]?
  | .closure ci => m.closures[ci]?.bind fun c => m.funcs[c.func]?
  | _ => none

/-- In the coroutine's context there is room for `argc` arguments, and for the
frame and the parameters of its body or for the values its yield wants. -/
def bodyFits (m : Machine) (c : CoState) (argc : ℕ) : Bool :=
  (argc = 0 || m.vsp + argc ≤ STACK_CAP) &&
    if c.started then c.want = WANT_ALL || c.want ≤ argc || m.vsp + c.want ≤ STACK_CAP
    else match m.bodyOf c.func with
      | some fd => m.fsp < MAX_FRAMES && fd.params.length ≤ MAX_LOCALS
      | none => true

/-- A resume of coroutine `id` with `argc` arguments gets to its run. -/
def LuaState.resumeFits (s : LuaState) (id argc : ℕ) : Bool :=
  bodyFits { s.toMachine with toThread := s.threads (id + 1) } (s.cos id) argc

theorem exec_callee_hard_or (R : Rec) (s : LuaState) (v : Value) :
    Hard (R.exec (callee v) s) ∨
      (R.exec (callee v) s = .ok none s ∧ s.bodyOf v = none) ∨
      ∃ fi ci, R.exec (callee v) s = .ok (some (fi, ci)) s ∧ s.bodyOf v = s.funcs[fi]? := by
  cases v with
  | func fi => exact .inr (.inr ⟨fi, NO_CLOSURE, rfl, rfl⟩)
  | closure ci =>
    have h : R.exec (callee (.closure ci)) s = match s.closures[ci]? with
        | some c => .ok (some (c.func, ci)) s
        | none => .error (.fault .index) s := by
      simp only [callee, closureDef, exec_bind, exec_get, bind_apply, getMachine_apply, exec_orFault]
      cases s.closures[ci]? <;> rfl
    rw [h]
    simp only [Machine.bodyOf]
    cases s.closures[ci]? with
    | none => exact .inl (hard_error _ (by rintro _ ⟨⟩))
    | some c => exact .inr (.inr ⟨c.func, ci, rfl, rfl⟩)
  | _ => exact .inr (.inl ⟨rfl, rfl⟩)

/-- `x` aborts, or has a result just when `p`. -/
def RunsWhen (p : Prop) (r : EStateM.Result Stop LuaState α) : Prop :=
  Hard r ∨ (p ∧ ∃ a t, r = .ok a t) ∨ (¬ p ∧ ∃ e t, r = .error (.lua e) t)

/-- What cannot fail once it has started. -/
def Safe (x : Exec α) : Prop := ∀ s, Hard (x s) ∨ ∃ a t, x s = .ok a t

theorem Safe.bind {x : Exec α} {f : α → Exec β} (hx : Safe x) (hf : ∀ a, Safe (f a)) :
    Safe (x >>= f) := by
  intro s
  rcases hx s with h | ⟨a, t, h⟩
  · exact .inl (h.bind f)
  · rw [bind_ok h]
    exact hf a t

theorem RunsWhen.bind {p : Prop} {x : Exec α} {s : LuaState} (h : RunsWhen p (x s)) {f : α → Exec β}
    (hf : ∀ a, Safe (f a)) : RunsWhen p ((x >>= f) s) := by
  rcases h with h | ⟨hp, a, t, h⟩ | ⟨hp, e, t, h⟩
  · exact .inl (h.bind f)
  · rw [bind_ok h]
    rcases hf a t with h | h
    · exact .inl h
    · exact .inr (.inl ⟨hp, h⟩)
  · exact .inr (.inr ⟨hp, e, t, bind_error h f⟩)

theorem safe_catch (x : Exec α) : Safe (catchLua x) := by
  intro s
  rw [catchLua]
  cases x s with
  | ok a t => exact .inr ⟨_, t, rfl⟩
  | error e t =>
    cases e with
    | lua e => exact .inr ⟨_, t, rfl⟩
    | _ => exact .inl (hard_error _ (by rintro _ ⟨⟩))

theorem safe_attempt (R : Rec) (x : LuaM α) : Safe (R.exec (attempt x)) := by
  rw [exec_attempt]
  exact safe_catch _

theorem safe_takeResults (R : Rec) (n : ℕ) : Safe (R.exec (takeResults n)) := by
  intro s
  simp only [takeResults, exec_bind]
  by_cases hb : n > ARGBUF
  · refine .inl (Hard.bind ?_ _)
    rw [exec_useBuffer, if_pos hb]
    exact hard_error _ (by rintro _ ⟨⟩)
  · rw [bind_ok (show R.exec (useBuffer n) s = .ok () s by rw [exec_useBuffer, if_neg hb])]
    by_cases hn : n ≤ s.vsp
    · rw [bind_ok (exec_topVals R s n hn)]
      exact .inr ⟨_, _, rfl⟩
    · refine .inl (Hard.bind ?_ _)
      simp only [topVals, exec_bind, exec_get, bind_apply, getMachine_apply, exec_ite, if_neg hn]
      exact hard_error _ (by rintro _ ⟨⟩)

theorem safe_finishBody (R : Rec) (r : Except LuaError ExecResult) : Safe (R.exec (finishBody r)) := by
  have hp : ∀ {γ : Type} (a : γ), Safe (pure a : Exec γ) := fun a s => .inr ⟨a, s, rfl⟩
  cases r with
  | error e => exact hp _
  | ok r =>
    cases r with
    | yield n =>
      simp only [finishBody, exec_bind, exec_pure]
      exact (safe_takeResults R n).bind fun _ => hp _
    | retN n =>
      simp only [finishBody, collectResults, exec_bind, exec_pure]
      exact (safe_takeResults R n).bind fun _ => hp _
    | _ => exact hp _

theorem RunsWhen.after {p : Prop} {x : Exec α} {f : α → Exec β} {s t : LuaState} {a : α}
    (h : x s = .ok a t) (h' : RunsWhen p (f a t)) : RunsWhen p ((x >>= f) s) := by
  rw [bind_ok h]
  exact h'

theorem RunsWhen.of_safe {p : Prop} {x : Exec α} (hp : p) (h : Safe x) (s : LuaState) :
    RunsWhen p (x s) := by
  rcases h s with h | h
  · exact .inl h
  · exact .inr (.inl ⟨hp, h⟩)

theorem RunsWhen.of_error {p : Prop} {x : Exec α} {f : α → Exec β} {s t : LuaState} {e : LuaError}
    (h : x s = .error (.lua e) t) (hp : ¬ p) : RunsWhen p ((x >>= f) s) :=
  .inr (.inr ⟨hp, e, t, bind_error h f⟩)

/-- A coroutine started on `args` runs just when there is room. -/
theorem startBody_runsWhen (R : Rec) (f : Value) (args : List Value) (s : LuaState) :
    RunsWhen ((args.length = 0 ∨ s.vsp + args.length ≤ STACK_CAP) ∧
      ∀ fd, s.bodyOf f = some fd → s.fsp < MAX_FRAMES ∧ fd.params.length ≤ MAX_LOCALS)
      (R.exec (startBody f args) s) := by
  simp only [startBody, exec_bind]
  rcases pushVals_cases R s args with ⟨h, hp⟩ | ⟨h, hp⟩
  · refine .after hp ?_
    set t : LuaState := { s with vstack := args.reverse ++ s.vstack } with ht
    rcases exec_callee_hard_or R t f with hh | ⟨hcal, hb⟩ | ⟨fi, ci, hcal, hb⟩
    · exact .inl (hh.bind _)
    · refine .after hcal (.of_safe ?_ (safe_attempt R (doCall f args.length)) t)
      refine ⟨h, fun fd hfd => ?_⟩
      have hb' : s.bodyOf f = none := hb
      rw [hb'] at hfd
      cases hfd
    · have hb' : s.bodyOf f = s.funcs[fi]? := hb
      refine .after hcal ?_
      change RunsWhen _ (R.exec (do
        setupFuncFrame fi args.length (t.vsp - args.length) 0 RET_HALT WANT_ALL ci
        let __do_lift ← funcDef fi
        attempt (runEntry __do_lift.entry)) t)
      rw [exec_bind]
      rcases setupFuncFrame_cases R t fi args.length (t.vsp - args.length) 0 RET_HALT WANT_ALL ci with
        hh | ⟨fd, hfd, hcase⟩
      · exact .inl (hh.bind _)
      have hfd' : s.funcs[fi]? = some fd := hfd
      rw [hb', hfd']
      rcases hcase with ⟨hf, he⟩ | ⟨-, hp, g, he⟩ | ⟨hf, hp, he⟩
      · exact .of_error he fun hp => hf (hp.2 fd rfl).1
      · exact .of_error he fun hp' => hp (hp'.2 fd rfl).2
      · refine .after he ?_
        have hfn : ∀ u : LuaState, u.funcs = s.funcs → R.exec (funcDef fi) u = .ok fd u := by
          intro u hu
          rw [exec_funcDef, hu, hfd']
        rw [exec_bind]
        refine .after (hfn _ rfl) (.of_safe ?_ (safe_attempt R (runEntry fd.entry)) _)
        refine ⟨h, fun fd' hfd => ?_⟩
        cases hfd
        exact ⟨hf, hp⟩
  · exact .of_error hp fun hp => h hp.1

/-- A coroutine resumed with `args` goes on just when there is room. -/
theorem continueBody_runsWhen (R : Rec) (ip want : ℕ) (args : List Value) (s : LuaState) :
    RunsWhen ((args.length = 0 ∨ s.vsp + args.length ≤ STACK_CAP) ∧
      (want = WANT_ALL ∨ want ≤ args.length ∨ s.vsp + want ≤ STACK_CAP))
      (R.exec (continueBody ip want args) s) := by
  simp only [continueBody, exec_bind]
  rcases pushVals_cases R s args with ⟨h, hp⟩ | ⟨h, hp⟩
  · refine .after hp ?_
    set t : LuaState := { s with vstack := args.reverse ++ s.vstack } with ht
    have hb : t.vsp - args.length = s.vstack.length := by simp [ht, Machine.vsp]
    simp only [exec_get]
    refine .after (getMachine_apply t) ?_
    rw [hb]
    rcases @normalize_cases R t args s.vstack want rfl with ⟨hw, hn⟩ | ⟨hw, s', he⟩
    · refine .after hn ?_
      exact .of_safe ⟨h, hw⟩ (safe_attempt R (doRunAt ip 0)) _
    · exact .of_error he fun hp => hw hp.2
  · exact .of_error hp fun hp => h hp.1

/-- What runs in the coroutine's context has a result just when it fits. -/
theorem coBody_runsWhen (R : Rec) (c : CoState) (args : List Value) (s : LuaState) :
    RunsWhen (bodyFits s.toMachine c args.length = true) (R.exec (coBody c args) s) := by
  simp only [coBody, exec_bind, exec_ite, bodyFits]
  cases hst : c.started with
  | true =>
    have h := continueBody_runsWhen R c.ip c.want args s
    simp only [if_true, Bool.and_eq_true, Bool.or_eq_true, decide_eq_true_eq, or_assoc]
    exact h.bind (safe_finishBody R)
  | false =>
    have h := startBody_runsWhen R c.func args s
    simp only [Bool.false_eq_true, if_false, Bool.and_eq_true, Bool.or_eq_true, decide_eq_true_eq]
    have hiff : (∀ fd, s.bodyOf c.func = some fd → s.fsp < MAX_FRAMES ∧ fd.params.length ≤ MAX_LOCALS) ↔
        (match s.bodyOf c.func with
          | some fd => decide (s.fsp < MAX_FRAMES) && decide (fd.params.length ≤ MAX_LOCALS)
          | none => true) = true := by
      cases s.bodyOf c.func <;> simp
    rw [hiff] at h
    exact h.bind (safe_finishBody R)

/-! ### Resumes -/

/-- `s'` has the resumer of `s` back as the running thread, and the coroutine it
resumed has stopped. -/
structure Restored (s : LuaState) (id : ℕ) (s' : LuaState) : Prop where
  current : s'.current = s.current
  frames : s'.frames = s.frames
  callMarks : s'.callMarks = s.callMarks
  resumer : s.current ≠ 0 → (s'.cos (s.current - 1)).status = .running
  resumed : (s.cos id).status = .suspended →
    (s'.cos id).status = .suspended ∨ (s'.cos id).status = .dead

/-- A resume restored the resumer, with its results in place of its `argc`
arguments. Where the results did not all fit, the stack is full of them. -/
def Restores (s : LuaState) (id argc : ℕ) : EStateM.Result Stop LuaState ExecResult → Prop
  | .ok r s' => Restored s id s' ∧ ∃ vs : List Value, r = .retN vs.length ∧
      s'.vstack = vs.reverse ++ s.vstack.drop argc
  | .error e s' => Restored s id s' ∧ ∃ vs : List Value, s'.vstack = vs.reverse ++ s.vstack.drop argc ∧
      (vs = [] ∨ (e = .lua (.msg "stack overflow") ∧ s'.vsp = STACK_CAP))

theorem Restores.restored {s : LuaState} {id argc : ℕ} :
    ∀ {r : EStateM.Result Stop LuaState ExecResult}, Restores s id argc r → Restored s id (endState r)
  | .ok _ _, h => h.1
  | .error _ _, h => h.1

theorem not_restores_of_current {s : LuaState} {id argc : ℕ}
    {r : EStateM.Result Stop LuaState ExecResult} (h : (endState r).current ≠ s.current) :
    ¬ Restores s id argc r := fun hr => h hr.restored.current

/-- What a resume of a suspended coroutine can do: abort; run the coroutine and
switch back; or fail while another thread than the resumer is current. -/
theorem switch_cases {R : Rec} (hR : R.Preserves) {s : LuaState} (hc : s.Consistent) {id : ℕ}
    (hs : (s.cos id).status = .suspended) (args : List Value) :
    Hard (switch R id args s) ∨
    (s.resumeFits id args.length = true ∧ ∃ out s3, switch R id args s = .ok out s3 ∧
      Restored s id s3 ∧ s3.vstack = s.vstack) ∨
    (¬ s.resumeFits id args.length = true ∧ ∃ e s2, switch R id args s = .error (.lua e) s2 ∧
      s2.current ≠ s.current) := by
  have hne := current_ne hc (not_running_of_suspended hs)
  obtain ⟨s1, he, h1⟩ := enterCo_spec hne
  set c : CoState := { s.cos id with status := .running, parent := s.current } with hcdef
  have hk := preserves_exec hR (coBody c args) s1 (h1.keeps hc hs).consistent
  have hfits : bodyFits s1.toMachine c args.length = s.resumeFits id args.length := by
    rw [h1.machine]
    rfl
  have hruns := coBody_runsWhen R c args s1
  rw [hfits] at hruns
  rcases hruns with ⟨e, s2, hb, hh⟩ | ⟨hf, ⟨out, left⟩, s2, hb⟩ | ⟨hf, e, s2, hb⟩
  · exact .inl ⟨e, s2, switch_error he hb, hh⟩
  · rw [hb] at hk
    obtain ⟨s3, hl, h3⟩ := leaveCo_spec s2 left hne
    have ht : s3.toThread = s.toThread := by
      rw [h3.machine]
      exact h1.waiting hk
    refine .inr (.inl ⟨hf, out, s3, switch_ok he hb hl, ⟨h3.current, ?_, ?_, fun h0 => ?_,
      fun _ => ?_⟩, ?_⟩)
    · rw [ht]
    · rw [ht]
    · rw [h3.resumer h0]
    · rw [h3.self]
      exact CoState.leave_status _ _ _
    · rw [ht]
  · rw [hb] at hk
    change Keeps s1 s2 at hk
    refine .inr (.inr ⟨hf, e, s2, switch_error he hb, fun hcur => ?_⟩)
    have h0 : s2.current ≠ 0 := hk.current (by rw [h1.current]; omega)
    have hrun := hk.consistent h0
    rw [hcur] at h0 hrun
    have hnormal : (s1.cos (s.current - 1)).status = .normal := by rw [h1.parent h0]
    -- the resumer still waits, so it is not the one that runs
    rw [(hk.normal _ hnormal).1, hnormal] at hrun
    cases hrun

theorem takeArgs_cases (R : Rec) (s : LuaState) (argc : ℕ) :
    Hard (R.exec (takeArgs argc) s) ∨ (s.vsp ≤ STACK_CAP ∧ ∃ args : List Value, args.length = argc ∧
      R.exec (takeArgs argc) s = .ok args { s with vstack := s.vstack.drop argc }) := by
  simp only [takeArgs, exec_bind, exec_ite, exec_get]
  by_cases h1 : argc > s.vsp
  · refine .inl ?_
    rw [bind_ok (getMachine_apply s), if_pos h1]
    exact hard_error s (by rintro _ ⟨⟩)
  by_cases h2 : argc > ARGBUF ∨ s.vsp - argc + argc > STACK_CAP
  · refine .inl ?_
    rw [bind_ok (getMachine_apply s), if_neg h1, bind_ok (getMachine_apply s)]
    refine Hard.bind ?_ _
    rw [exec_loadArgs]
    split_ifs with hb hc
    · exact hard_error s (by rintro _ ⟨⟩)
    · exact hard_error s (by rintro _ ⟨⟩)
    · exact absurd h2 (by omega)
  · refine .inr ⟨by omega, _, stackVals_length s.vstack (s.vsp - argc) argc, ?_⟩
    have hl : R.exec (loadArgs (s.vsp - argc) argc) s =
        .ok (stackVals s.vstack (s.vsp - argc) argc) s := by
      rw [exec_loadArgs, if_neg (by omega), if_neg (by omega)]
    have hd : resize (s.vsp - argc) .nil s.vstack = s.vstack.drop argc := by
      have h1' : argc ≤ s.vstack.length := Nat.not_lt.mp h1
      exact resize_sub .nil h1'
    rw [bind_ok (getMachine_apply s), if_neg h1, bind_ok (getMachine_apply s), bind_ok hl,
      bind_ok (getMachine_apply s), bind_ok (exec_setVsp R s _), hd]
    rfl

section Results
variable {R : Rec} {s t : LuaState} {id argc : ℕ}

theorem pushResults_restores (h : Restored s id t) (hv : t.vstack = s.vstack.drop argc)
    (hc : t.vsp ≤ STACK_CAP) (first : Value) (vs : List Value) :
    Restores s id argc (R.exec (pushResults first vs) t) := by
  have hp : R.exec (pushResults first vs) =
      R.exec (pushVals (first :: vs)) >>= fun _ => pure (.retN (vs.length + 1)) := by
    simp only [pushResults, pushVals, exec_bind, exec_pure, bind_assoc]
  rw [hp]
  rcases pushVals_cases R t (first :: vs) with ⟨-, he⟩ | ⟨hn, he⟩
  · rw [bind_ok he]
    exact ⟨⟨h.current, h.frames, h.callMarks, h.resumer, h.resumed⟩, first :: vs, rfl, by rw [← hv]⟩
  · rw [bind_error he]
    refine ⟨⟨h.current, h.frames, h.callMarks, h.resumer, h.resumed⟩,
      (first :: vs).take (STACK_CAP - t.vsp), by rw [← hv], .inr ⟨rfl, ?_⟩⟩
    simp only [Machine.vsp, List.length_append, List.length_reverse, List.length_take,
      List.length_cons] at hn hc ⊢
    omega

theorem intern_restores (h : Restored s id t) (hv : t.vstack = s.vstack.drop argc)
    (hc : t.vsp ≤ STACK_CAP) (b : List UInt8) :
    Restores s id argc (R.exec (do
      let r ← intern b
      pushResults (.bool false) [.str r]) t) := by
  rw [exec_bind]
  have he := exec_intern R t b
  cases hi : t.toHeap.intern b with
  | error m =>
    rw [hi] at he
    rw [bind_error he]
    exact ⟨h, [], by rw [hv]; rfl, .inl rfl⟩
  | ok p =>
    rw [hi] at he
    rw [bind_ok he]
    exact @pushResults_restores R s { t with toHeap := p.2 } id argc
      ⟨h.current, h.frames, h.callMarks, h.resumer, h.resumed⟩ hv hc _ _

theorem errorValue_restores (h : Restored s id t) (hv : t.vstack = s.vstack.drop argc)
    (hc : t.vsp ≤ STACK_CAP) (e : LuaError) :
    Restores s id argc (R.exec (do
      let v ← errorValue e
      pushResults (.bool false) [v]) t) := by
  cases e with
  | obj v => exact pushResults_restores h hv hc _ _
  | msg m =>
    have he : R.exec (do
        let v ← errorValue (.msg m)
        pushResults (.bool false) [v]) = R.exec (do
        let r ← intern (bytesOf m)
        pushResults (.bool false) [.str r]) := by
      simp only [errorValue, exec_bind, bind_assoc, pure_bind]
    rw [he]
    exact intern_restores h hv hc _

end Results

/-- What `co_resume_value` does behind the resume. -/
def resumeResult : Resumed → LuaM ExecResult
  | .refused st => do
    let r ← intern (bytesOf (if st = .dead then "cannot resume dead coroutine"
      else "cannot resume non-suspended coroutine"))
    pushResults (.bool false) [.str r]
  | .failed e => do
    let v ← errorValue e
    pushResults (.bool false) [v]
  | .done vs => pushResults (.bool true) vs

theorem coResumeValue_eq {id : ℕ} (hid : id < MAX_COS) (argc : ℕ) :
    coResumeValue id argc = (do
      let args ← takeArgs argc
      let r ← doResume id args
      resumeResult r) := by
  rw [coResumeValue, if_neg (Nat.not_le.mpr hid)]
  congr

/-- The main thread with a coroutine whose body has 17 parameters. -/
def wideBody : LuaState where
  frames := [{ retIp := RET_HALT }]
  funcs := [{ params := List.replicate 17 0, body := default, entry := 0, upNames := [] }]
  cos := fun _ => { status := .suspended, func := .func 0 }

theorem reset_consistent (s : LuaState) : s.reset.Consistent := fun h => absurd rfl h

/-- The states between runs are consistent. -/
theorem run_consistent (L : Lib) (n : ℕ) (source : List UInt8) (s : LuaState) :
    (endState (run (interp L n) source s)).Consistent := by
  rw [run, bind_ok (modify_apply LuaState.reset s)]
  exact (preserves_exec (interp_preserves L n) (runScript source) s.reset (reset_consistent s)).consistent

end Lua
end Rustrapper

/-
# What the small functions do

One equation for each function the instructions are made of, on the whole
state: `R.exec (pushVal v) s` and so on. Proofs about instructions rewrite with
these and never unfold a function of `State`.
-/
import Rustrapper.Lua.Run

namespace Rustrapper
namespace Lua

variable (R : Rec) (s : LuaState)

/-- The state a computation ends in, however it ends. -/
def endState {α : Type} : EStateM.Result Stop LuaState α → LuaState
  | .ok _ s => s
  | .error _ s => s

/-! ### Stack pointers -/

@[simp] theorem exec_setVsp (n : ℕ) :
    R.exec (setVsp n) s = .ok () { s with vstack := resize n .nil s.vstack } := by
  simp [setVsp, bind_apply]

@[simp] theorem exec_setFsp (n : ℕ) :
    R.exec (setFsp n) s = .ok () { s with frames := resize n {} s.frames } := by
  simp [setFsp, bind_apply]

@[simp] theorem exec_setMarkSp (n : ℕ) :
    R.exec (setMarkSp n) s = .ok () { s with callMarks := resize n 0 s.callMarks } := by
  simp [setMarkSp, bind_apply]

/-! ### The operand stack -/

theorem exec_pushVal (v : Value) (h : s.vsp < STACK_CAP) :
    R.exec (pushVal v) s = .ok () { s with vstack := v :: s.vstack } := by
  simp [pushVal, bind_apply, Nat.not_le.mpr h]

theorem exec_pushVal_full (v : Value) (h : ¬ s.vsp < STACK_CAP) :
    R.exec (pushVal v) s = .error (.lua (.msg "stack overflow")) s := by
  simp [pushVal, bind_apply, Nat.not_lt.mp h]

theorem exec_pushVals : ∀ (vs : List Value) (s : LuaState), s.vsp + vs.length ≤ STACK_CAP →
    R.exec (pushVals vs) s = .ok () { s with vstack := vs.reverse ++ s.vstack }
  | [], _, _ => by simp [pushVals]
  | v :: vs, s, h => by
    simp only [List.length_cons] at h
    rw [pushVals, exec_bind, bind_ok (exec_pushVal R s v (by omega))]
    rw [exec_pushVals vs _ (by simp only [Machine.vsp, List.length_cons] at h ⊢; omega)]
    simp

/-- Values that do not fit: the first of them that finds the stack full fails. -/
theorem exec_pushVals_full : ∀ (vs : List Value) (s : LuaState), ¬ s.vsp + vs.length ≤ STACK_CAP →
    (vs ≠ [] ∨ s.vsp ≤ STACK_CAP) → R.exec (pushVals vs) s = .error (.lua (.msg "stack overflow"))
      { s with vstack := (vs.take (STACK_CAP - s.vsp)).reverse ++ s.vstack }
  | [], s, h, h' => absurd h (by simpa using h')
  | v :: vs, s, h, _ => by
    rw [pushVals, exec_bind]
    by_cases hv : s.vsp < STACK_CAP
    · obtain ⟨k, hk⟩ : ∃ k, STACK_CAP - s.vsp = k + 1 := ⟨STACK_CAP - s.vsp - 1, by omega⟩
      have hk' : STACK_CAP - (s.vsp + 1) = k := by omega
      rw [bind_ok (exec_pushVal R s v hv), hk, exec_pushVals_full vs]
      · simp only [Machine.vsp, List.length_cons] at hk' ⊢
        simp [hk']
      · simp only [Machine.vsp, List.length_cons] at h ⊢
        omega
      · refine .inr ?_
        simp only [Machine.vsp, List.length_cons] at hv ⊢
        omega
    · rw [bind_error (exec_pushVal_full R s v hv), show STACK_CAP - s.vsp = 0 by omega]
      rfl

/-- Values are all pushed when there are none or when they fit. -/
theorem pushVals_cases (vs : List Value) :
    ((vs.length = 0 ∨ s.vsp + vs.length ≤ STACK_CAP) ∧
      R.exec (pushVals vs) s = .ok () { s with vstack := vs.reverse ++ s.vstack }) ∨
    (¬ (vs.length = 0 ∨ s.vsp + vs.length ≤ STACK_CAP) ∧
      R.exec (pushVals vs) s = .error (.lua (.msg "stack overflow"))
        { s with vstack := (vs.take (STACK_CAP - s.vsp)).reverse ++ s.vstack }) := by
  by_cases h : s.vsp + vs.length ≤ STACK_CAP
  · exact .inl ⟨.inr h, exec_pushVals R vs s h⟩
  · by_cases h0 : vs = []
    · subst h0
      exact .inl ⟨.inl rfl, rfl⟩
    · exact .inr ⟨by simp [h0, h], exec_pushVals_full R vs s h (.inl h0)⟩

theorem exec_pop {v : Value} {vs : List Value} (h : s.vstack = v :: vs) :
    R.exec pop s = .ok v { s with vstack := vs } := by
  simp [pop, bind_apply, map_apply, h]

theorem exec_topVals (n : ℕ) (h : n ≤ s.vsp) :
    R.exec (topVals n) s = .ok (s.vstack.take n).reverse s := by
  simp [topVals, bind_apply, h]

theorem exec_placeVals (base : ℕ) (vs : List Value) (h : base + vs.length ≤ STACK_CAP) :
    R.exec (placeVals base vs) s =
      .ok () { s with vstack := vs.reverse ++ resize base .nil s.vstack } := by
  simp [placeVals, bind_apply, h]

theorem exec_placeVals_full (base : ℕ) (vs : List Value) (h : ¬ base + vs.length ≤ STACK_CAP) :
    R.exec (placeVals base vs) s = .error (.fault .stack) s := by
  simp [placeVals, h]

theorem padTo_length (n : ℕ) (vs : List Value) :
    (padTo n vs).length = if n = WANT_ALL then vs.length else n := by
  unfold padTo
  split_ifs with h
  · rfl
  · simp only [List.length_append, List.length_take, List.length_replicate]
    omega

/-- `normalize` cuts or pads the values behind `base`, where the padding fits. -/
theorem normalize_cases {vs rest : List Value} (want : ℕ) (hs : s.vstack = vs.reverse ++ rest) :
    ((want = WANT_ALL ∨ want ≤ vs.length ∨ rest.length + want ≤ STACK_CAP) ∧
      R.exec (normalize rest.length want) s =
        .ok () { s with vstack := (padTo want vs).reverse ++ rest }) ∨
    (¬ (want = WANT_ALL ∨ want ≤ vs.length ∨ rest.length + want ≤ STACK_CAP) ∧
      ∃ s', R.exec (normalize rest.length want) s = .error (.lua (.msg "stack overflow")) s') := by
  unfold normalize padTo
  by_cases ha : want = WANT_ALL
  · rw [if_pos ha, if_pos ha, ← hs]
    exact .inl ⟨.inl ha, rfl⟩
  · have hv : s.vsp = vs.length + rest.length := by simp [Machine.vsp, hs]
    simp only [if_neg ha, exec_bind, exec_get, bind_apply, getMachine_apply, exec_ite, hv,
      Nat.add_sub_cancel]
    by_cases hn : vs.length > want
    · rw [if_pos hn, exec_setVsp]
      have hr : resize (rest.length + want) .nil s.vstack = (vs.take want).reverse ++ rest := by
        have h := resize_append Value.nil (vs.drop want).reverse ((vs.take want).reverse ++ rest)
        rw [← List.append_assoc, ← List.reverse_append, List.take_append_drop, ← hs] at h
        rw [← h]
        congr 1
        simp only [List.length_append, List.length_reverse, List.length_take]
        omega
      rw [hr]
      refine .inl ⟨.inr (.inl (Nat.le_of_lt hn)), ?_⟩
      simp [Nat.sub_eq_zero_of_le (Nat.le_of_lt hn)]
    · rw [if_neg hn]
      have hlen : (List.replicate (want - vs.length) Value.nil).length = want - vs.length :=
        List.length_replicate
      rcases pushVals_cases R s (List.replicate (want - vs.length) .nil) with ⟨h, he⟩ | ⟨h, he⟩
      · rw [hlen] at h
        refine .inl ⟨by omega, ?_⟩
        rw [he]
        simp [hs, List.take_of_length_le (Nat.not_lt.mp hn)]
      · rw [hlen] at h
        exact .inr ⟨by omega, _, he⟩

/-! ### Strings -/

/-- The arena holds the string already, or has room for it. -/
def Heap.Fits (h : Heap) (b : List UInt8) : Prop :=
  (∃ reg ∈ h.strregs, reg.2 = b) ∨
    (h.strregs.length < MAX_STRINGS ∧ h.strNext + b.length ≤ STR_CAP)

theorem intern_ok_iff (h : Heap) (b : List UInt8) : (∃ p, h.intern b = .ok p) ↔ h.Fits b := by
  unfold Heap.intern Heap.Fits
  cases hf : h.strregs.find? fun reg => reg.2 = b with
  | some reg =>
    have hm := List.mem_of_find?_eq_some hf
    have hb := List.find?_some hf
    exact ⟨fun _ => .inl ⟨reg, hm, by simpa using hb⟩, fun _ => ⟨_, rfl⟩⟩
  | none =>
    have hn : ¬ ∃ reg ∈ h.strregs, reg.2 = b := by
      rintro ⟨reg, hm, hb⟩
      have := List.find?_eq_none.mp hf reg hm
      simp [hb] at this
    simp only [hn, false_or]
    by_cases h1 : h.strregs.length ≥ MAX_STRINGS
    · rw [if_pos h1]
      refine ⟨fun h' => ?_, fun h' => absurd h'.1 (by omega)⟩
      obtain ⟨p, hp⟩ := h'
      cases hp
    · rw [if_neg h1]
      by_cases h2 : h.strNext + b.length > STR_CAP
      · rw [if_pos h2]
        refine ⟨fun h' => ?_, fun h' => absurd h'.2 (by omega)⟩
        obtain ⟨p, hp⟩ := h'
        cases hp
      · rw [if_neg h2]
        exact ⟨fun _ => ⟨by omega, by omega⟩, fun _ => ⟨_, rfl⟩⟩

theorem exec_intern (b : List UInt8) : R.exec (intern b) s =
    match s.toHeap.intern b with
    | .ok (r, h) => .ok r { s with toHeap := h }
    | .error m => .error (.lua (.msg m)) s := by
  simp only [intern, exec_bind, exec_get, bind_apply, getMachine_apply]
  rcases s.toHeap.intern b with m | ⟨r, h⟩
  · rfl
  · simp [setHeap, bind_apply, map_apply]

/-! ### Frames -/

theorem exec_pushFrame (f : Frame) (h : s.fsp < MAX_FRAMES) :
    R.exec (pushFrame f) s = .ok () { s with frames := f :: s.frames } := by
  simp [pushFrame, bind_apply, Nat.not_le.mpr h]

theorem exec_pushFrame_full (f : Frame) (h : ¬ s.fsp < MAX_FRAMES) :
    R.exec (pushFrame f) s = .error (.lua (.msg "call stack overflow")) s := by
  simp [pushFrame, bind_apply, Nat.not_lt.mp h]

@[simp] theorem exec_popFrame :
    R.exec popFrame s = .ok () { s with frames := s.frames.tail } := by
  simp [popFrame, bind_apply]

theorem exec_topFrame {f : Frame} {fs : List Frame} (h : s.frames = f :: fs) :
    R.exec topFrame s = .ok f s := by
  simp [topFrame, bind_apply, h]

theorem exec_setTopFrame {f g : Frame} {fs : List Frame} (h : s.frames = f :: fs) :
    R.exec (setTopFrame g) s = .ok () { s with frames := g :: fs } := by
  simp [setTopFrame, bind_apply, h]

theorem exec_declareLocal {f : Frame} {fs : List Frame} (name : StrRef) (v : Value)
    (h : s.frames = f :: fs) (hl : f.locals.length < MAX_LOCALS) :
    R.exec (declareLocal name v) s =
      .ok () { s with frames := { f with locals := f.locals ++ [⟨name, v, NO_CELL⟩] } :: fs } := by
  simp [declareLocal, bind_apply, h, Nat.not_le.mpr hl]

theorem exec_declareLocal_full {f : Frame} {fs : List Frame} (name : StrRef) (v : Value)
    (h : s.frames = f :: fs) (hl : ¬ f.locals.length < MAX_LOCALS) :
    R.exec (declareLocal name v) s = .error (.lua (.msg "too many locals")) s := by
  simp [declareLocal, bind_apply, h, Nat.not_lt.mp hl]

/-! ### Calls -/

/-- The program aborted or ran out of fuel: `r` is no `Result` of the source. -/
def Hard {α : Type} (r : EStateM.Result Stop LuaState α) : Prop :=
  ∃ e s', r = .error e s' ∧ ∀ l, e ≠ .lua l

theorem hard_error {α : Type} {e : Stop} (s' : LuaState) (h : ∀ l, e ≠ .lua l) :
    Hard (.error e s' : EStateM.Result Stop LuaState α) := ⟨e, s', rfl, h⟩

theorem not_hard_of_stopOf {α : Type} {r : EStateM.Result Stop LuaState α} {l : LuaError}
    (h : stopOf r = some (.lua l)) : ¬ Hard r := by
  rintro ⟨e, s', rfl, he⟩
  exact he l (Option.some.inj h)

theorem Hard.bind {α β : Type} {x : Exec α} {s : LuaState} (h : Hard (x s)) (f : α → Exec β) :
    Hard ((x >>= f) s) := by
  obtain ⟨e, s', hx, he⟩ := h
  exact ⟨e, s', bind_error hx f, he⟩

/-- The locals a list of names becomes. -/
def bindLocals : List StrRef → List Value → List Local
  | [], _ => []
  | p :: ps, vs => ⟨p, vs.headD .nil, NO_CELL⟩ :: bindLocals ps vs.tail

theorem exec_declareLocals : ∀ (ps : List StrRef) (vs : List Value) (s : LuaState) {f : Frame}
    {fs : List Frame}, s.frames = f :: fs → f.locals.length + ps.length ≤ MAX_LOCALS →
    R.exec (declareLocals ps vs) s =
      .ok () { s with frames := { f with locals := f.locals ++ bindLocals ps vs } :: fs }
  | [], vs, s, f, fs, h, _ => by
    simp [declareLocals, bindLocals, ← h]
  | p :: ps, vs, s, f, fs, h, hl => by
    simp only [List.length_cons] at hl
    rw [declareLocals, exec_bind, bind_ok (exec_declareLocal R s p _ h (by omega)),
      exec_declareLocals ps vs.tail _ rfl]
    · simp [bindLocals]
    · simp only [List.length_append, List.length_cons, List.length_nil]
      omega

theorem exec_declareLocals_full : ∀ (ps : List StrRef) (vs : List Value) (s : LuaState) {f : Frame}
    {fs : List Frame}, s.frames = f :: fs → f.locals.length ≤ MAX_LOCALS →
    ¬ f.locals.length + ps.length ≤ MAX_LOCALS →
    ∃ g, R.exec (declareLocals ps vs) s =
      .error (.lua (.msg "too many locals")) { s with frames := g :: fs }
  | [], vs, s, f, fs, h, hl, hn => absurd hl hn
  | p :: ps, vs, s, f, fs, h, hl, hn => by
    simp only [List.length_cons] at hn
    rw [declareLocals, exec_bind]
    by_cases hf : f.locals.length < MAX_LOCALS
    · rw [bind_ok (exec_declareLocal R s p _ h hf)]
      obtain ⟨g, hg⟩ := exec_declareLocals_full ps vs.tail
        { s with frames := { f with locals := f.locals ++ [⟨p, vs.headD .nil, NO_CELL⟩] } :: fs } rfl
        (by simp only [List.length_append, List.length_cons, List.length_nil]; omega)
        (by simp only [List.length_append, List.length_cons, List.length_nil]; omega)
      exact ⟨g, hg⟩
    · rw [bind_error (exec_declareLocal_full R s p _ h hf)]
      exact ⟨f, by rw [← h]⟩

theorem exec_orFault {α : Type} (f : Fault) (o : Option α) :
    R.exec (orFault f o) s = match o with | some a => .ok a s | none => .error (.fault f) s := by
  cases o <;> rfl

theorem exec_funcDef (fi : ℕ) : R.exec (funcDef fi) s =
    match s.funcs[fi]? with | some fd => .ok fd s | none => .error (.fault .index) s := by
  simp only [funcDef, exec_bind, exec_get, bind_apply, getMachine_apply, exec_orFault]
  cases s.funcs[fi]? <;> rfl

theorem exec_useBuffer (n : ℕ) : R.exec (useBuffer n) s =
    if n > ARGBUF then .error .buffer s else .ok () s := by
  simp only [useBuffer, exec_perform, Rec.op]
  split_ifs <;> rfl

theorem exec_valsAt (i n : ℕ) : R.exec (valsAt i n) s =
    if i + n > STACK_CAP then .error (.fault .stack) s else .ok (stackVals s.vstack i n) s := by
  simp only [valsAt, exec_bind, exec_get, bind_apply, getMachine_apply, exec_ite]
  split_ifs <;> rfl

theorem exec_loadArgs (i n : ℕ) : R.exec (loadArgs i n) s =
    if n > ARGBUF then .error .buffer s
    else if i + n > STACK_CAP then .error (.fault .stack) s
    else .ok (stackVals s.vstack i n) s := by
  rw [loadArgs, exec_bind, bind_apply, exec_useBuffer]
  split_ifs with h1 h2
  · rfl
  · exact (exec_valsAt R s i n).trans (if_pos h2)
  · exact (exec_valsAt R s i n).trans (if_neg h2)

/-- What setting up a frame can do: abort on the way to the arguments, find no
room for the frame or for its locals, or push the frame. -/
theorem setupFuncFrame_cases (fi argc base off ret want ci : ℕ) :
    Hard (R.exec (setupFuncFrame fi argc base off ret want ci) s) ∨
    ∃ fd, s.funcs[fi]? = some fd ∧
      ((¬ s.fsp < MAX_FRAMES ∧ R.exec (setupFuncFrame fi argc base off ret want ci) s =
          .error (.lua (.msg "call stack overflow")) s) ∨
        (s.fsp < MAX_FRAMES ∧ ¬ fd.params.length ≤ MAX_LOCALS ∧
          ∃ f, R.exec (setupFuncFrame fi argc base off ret want ci) s =
            .error (.lua (.msg "too many locals")) { s with frames := f :: s.frames }) ∨
        (s.fsp < MAX_FRAMES ∧ fd.params.length ≤ MAX_LOCALS ∧
          R.exec (setupFuncFrame fi argc base off ret want ci) s = .ok () { s with
            frames := {
              locals := bindLocals fd.params (stackVals s.vstack (base + off) argc)
              retIp := ret, want := want, base := base, closure := ci } :: s.frames
            vstack := resize base .nil s.vstack })) := by
  simp only [setupFuncFrame, exec_bind]
  cases hfd : s.funcs[fi]? with
  | none =>
    refine .inl (Hard.bind ?_ _)
    rw [exec_funcDef, hfd]
    exact hard_error _ (by rintro _ ⟨⟩)
  | some fd =>
    have h1 : R.exec (funcDef fi) s = .ok fd s := by rw [exec_funcDef, hfd]
    rw [bind_ok h1]
    by_cases hb : argc > ARGBUF
    · refine .inl (Hard.bind ?_ _)
      rw [exec_loadArgs, if_pos hb]
      exact hard_error _ (by rintro _ ⟨⟩)
    · by_cases hc : base + off + argc > STACK_CAP
      · refine .inl (Hard.bind ?_ _)
        rw [exec_loadArgs, if_neg hb, if_pos hc]
        exact hard_error _ (by rintro _ ⟨⟩)
      · rw [bind_ok (show R.exec (loadArgs (base + off) argc) s = .ok _ s by
          rw [exec_loadArgs, if_neg hb, if_neg hc])]
        refine .inr ⟨fd, rfl, ?_⟩
        by_cases hf : s.fsp < MAX_FRAMES
        · rw [bind_ok (exec_pushFrame R s _ hf)]
          by_cases hp : fd.params.length ≤ MAX_LOCALS
          · rw [bind_ok (exec_declareLocals R _ _ _ rfl (by simpa using hp))]
            exact .inr (.inr ⟨hf, hp, by simp⟩)
          · obtain ⟨g, hg⟩ := exec_declareLocals_full R fd.params
              (stackVals s.vstack (base + off) argc)
              { s with frames := { retIp := ret, want := want, base := base, closure := ci } :: s.frames }
              rfl (Nat.zero_le _) (by simpa using hp)
            rw [bind_error hg]
            exact .inr (.inl ⟨hf, hp, g, rfl⟩)
        · rw [bind_error (exec_pushFrame_full R s _ hf)]
          exact .inl ⟨hf, rfl⟩

end Lua
end Rustrapper

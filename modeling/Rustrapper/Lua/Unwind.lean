/-
# Protected calls

When an instruction fails below a protected frame, `unwind_protected` takes the
machine back to that frame and goes on behind the call (`error_caught_iff`).
The way there needs room of its own: the error's message has to go into the
string arena, and the results onto the operand stack. Without it the error of
that step leaves `run_at`, protected or not.
-/
import Rustrapper.Lua.Arena
import Rustrapper.Lua.Fuel

namespace Rustrapper
namespace Lua

/-! ### The frame that catches -/

/-- Frame `f` at index `i` is the innermost protected one at `floor` or above. -/
structure Innermost (fs : List Frame) (floor i : ℕ) (f : Frame) : Prop where
  at_eq : at? fs i = some f
  isProtected : f.isProtected = true
  floor_le : floor ≤ i
  above : ∀ j g, i < j → at? fs j = some g → g.isProtected = false

/-- The state taken back to frame `f` at index `i`. -/
def LuaState.unwound (s : LuaState) (i : ℕ) (f : Frame) : LuaState :=
  { s with
    frames := resize i {} s.frames
    vstack := resize f.base .nil s.vstack
    callMarks := resize f.markSp 0 s.callMarks }

/-- The error object, and the heap with its message in it. -/
def errorObject (h : Heap) : LuaError → Except String (Value × Heap)
  | .obj v => .ok (v, h)
  | .msg m => (h.intern (bytesOf m)).map fun p => (.str p.1, p.2)

/-- The error is a value, or its message has room in the arena. -/
def Heap.FitsError (h : Heap) : LuaError → Prop
  | .obj _ => True
  | .msg m => h.Fits (bytesOf m)

/-- The operand stack has room for the `n` results of a protected call, and for
as many as its caller wants. -/
def Frame.Room (f : Frame) (n : ℕ) : Prop :=
  f.base + n ≤ STACK_CAP ∧ (f.want = WANT_ALL ∨ f.base + f.want ≤ STACK_CAP)

/-- The machine is back at frame `f` of index `i`, the results of its protected
call being `vs`. -/
structure Caught (f : Frame) (i : ℕ) (vs : List Value) (s : LuaState) : Prop where
  fsp : s.fsp = i
  markSp : s.markSp = f.markSp
  stack : ∃ rest, rest.length = f.base ∧ s.vstack = (padTo f.want vs).reverse ++ rest

/-- What a handler returned, its results on the stack behind `base`. -/
def Returned (base : ℕ) (s : LuaState) : ExecResult → List Value → Prop
  | .normal, vs => vs = []
  | .ret v, vs => vs = [v]
  | .ret2 a b, vs => vs = [a, b]
  | .retN k, vs => s.vsp = base + k ∧ vs = (s.vstack.take k).reverse
  | _, _ => False

/-- The handler of an `xpcall` frame, called on the error object, returns with
the results `vs`, on the frames and marks it found. -/
def HandlerReturns (R : Rec) (s : LuaState) (e : LuaError) (i : ℕ) (f : Frame) (vs : List Value) :
    Prop :=
  ∀ h, f.errHandler = some h → ∀ v hp, errorObject s.toHeap e = .ok (v, hp) →
    ∃ r s2, R.call h 1 { ({ s with toHeap := hp } : LuaState).unwound i f with
        vstack := v :: resize f.base .nil s.vstack } = .ok r s2 ∧
      Returned f.base s2 r vs ∧ s2.fsp = i ∧ s2.markSp = f.markSp

/-- What a caught error gives: the error object of a `pcall`, the results of the
handler of an `xpcall`. -/
def caughtVals (f : Frame) (v : Value) (vs : List Value) : List Value :=
  .bool false :: (if f.errHandler = none then [v] else vs)

/-! ### Lists -/

theorem at?_lt {α : Type} {l : List α} {i : ℕ} {a : α} (h : at? l i = some a) : i < l.length := by
  unfold at? at h
  split at h
  · assumption
  · cases h

theorem padTo_fits {f : Frame} {vs : List Value} (h : f.Room vs.length) :
    f.base + (padTo f.want vs).length ≤ STACK_CAP := by
  rw [padTo_length]
  split_ifs with hw
  · exact h.1
  · exact h.2.resolve_left hw

/-! ### The error object -/

variable (R : Rec)

theorem exec_errorValue (e : LuaError) (s : LuaState) : R.exec (errorValue e) s =
    match errorObject s.toHeap e with
    | .ok (v, h) => .ok v { s with toHeap := h }
    | .error m => .error (.lua (.msg m)) s := by
  cases e with
  | obj v => rfl
  | msg m =>
    simp only [errorValue, errorObject, exec_bind, bind_apply, exec_intern]
    rcases s.toHeap.intern (bytesOf m) with m | ⟨r, h⟩ <;> rfl

theorem errorObject_ok_iff (h : Heap) (e : LuaError) :
    (∃ p, errorObject h e = .ok p) ↔ h.FitsError e := by
  cases e with
  | obj v => exact ⟨fun _ => trivial, fun _ => ⟨_, rfl⟩⟩
  | msg m =>
    rw [Heap.FitsError, ← intern_ok_iff, errorObject]
    rcases h.intern (bytesOf m) with m | p
    · constructor
      · rintro ⟨p, hp⟩
        cases hp
      · rintro ⟨p, hp⟩
        cases hp
    · exact ⟨fun _ => ⟨_, rfl⟩, fun _ => ⟨_, rfl⟩⟩

/-! ### Placing the results -/

theorem exec_placeWant {f : Frame} {vs : List Value} (s : LuaState) (h : f.Room vs.length) :
    R.exec (placeWant f.base f.want vs) s =
      .ok () { s with vstack := (padTo f.want vs).reverse ++ resize f.base .nil s.vstack } := by
  rw [placeWant, exec_bind, bind_ok (exec_placeVals R s _ _ h.1), exec_placeVals R _ _ _ (padTo_fits h)]
  simp

theorem exec_placeWant_full {base want : ℕ} {vs : List Value} (s : LuaState)
    (h : ¬ (base + vs.length ≤ STACK_CAP ∧ (want = WANT_ALL ∨ base + want ≤ STACK_CAP))) :
    ∃ s', R.exec (placeWant base want vs) s = .error (.fault .stack) s' := by
  rw [placeWant, exec_bind]
  by_cases h1 : base + vs.length ≤ STACK_CAP
  · rw [bind_ok (exec_placeVals R s _ _ h1)]
    refine ⟨_, exec_placeVals_full R _ _ _ ?_⟩
    rw [padTo_length]
    split_ifs with hw
    · exact absurd ⟨h1, .inl hw⟩ h
    · exact fun h2 => h ⟨h1, .inr h2⟩
  · exact ⟨_, bind_error (exec_placeVals_full R s _ _ h1) _⟩

/-! ### Unwinding -/

/-- Frames that are not protected are passed over. -/
theorem unwind_skip {s : LuaState} {floor i : ℕ} {f : Frame} (hf : Innermost s.frames floor i f)
    (e : LuaError) : ∀ n, i < n → n ≤ s.fsp →
      R.exec (unwindProtected floor n e) s = R.exec (unwindProtected floor (i + 1) e) s
  | 0, h, _ => absurd h (Nat.not_lt_zero i)
  | n + 1, h, hn => by
    by_cases hi : n = i
    · rw [hi]
    · have hlt : i < n := by omega
      have hfl := hf.floor_le
      obtain ⟨g, hg⟩ : ∃ g, at? s.frames n = some g := by
        unfold at?
        rw [if_pos (by simp only [Machine.fsp] at hn; omega)]
        exact ⟨_, List.getElem?_eq_getElem (by simp only [Machine.fsp] at hn; omega)⟩
      rw [← unwind_skip hf e n hlt (by omega)]
      conv_lhs => rw [unwindProtected]
      simp [bind_apply, hg, orFault, show ¬ n < floor by omega, hf.above n g hlt hg]

/-- The way back to the frame that catches, up to its results. -/
theorem unwind_at {s : LuaState} {floor i : ℕ} {f : Frame} (hf : Innermost s.frames floor i f)
    (e : LuaError) {v : Value} {hp : Heap} (hv : errorObject s.toHeap e = .ok (v, hp)) :
    R.exec (unwindProtected floor (i + 1) e) s =
      R.exec (match f.errHandler with
        | none => do
          pushVal (.bool false)
          pushVal v
          normalize f.base f.want
          pure (.resume f.retIp)
        | some h => do
          pushVal v
          match ← attempt (doCall h 1) with
          | .error e => do
            setFsp i
            setVsp f.base
            unwindProtected floor i e
          | .ok .shell => pure (.control .shell)
          | .ok .exit => pure (.control .exit)
          | .ok (.yield _) => err "attempt to yield across a protected call"
          | .ok r => do
            placeWant f.base f.want (← handlerVals r)
            pure (.resume f.retIp)) (({ s with toHeap := hp } : LuaState).unwound i f) := by
  rw [unwindProtected]
  have hfl := hf.floor_le
  simp only [exec_bind, exec_ite, exec_get, bind_apply, getMachine_apply, hf.at_eq, orFault, exec_pure,
    pure_apply, hf.isProtected, if_neg (show ¬ i < floor by omega), Bool.not_true, Bool.false_eq_true,
    if_false, exec_errorValue, hv, exec_setFsp, exec_setVsp, exec_setMarkSp]
  cases f.errHandler <;> rfl

/-- The results of a `pcall` frame, on the state unwound to it. -/
theorem pcall_caught_iff {u : LuaState} {f : Frame} {i : ℕ} (v : Value) (hu : u.vsp = f.base)
    (hi : u.fsp = i) (hm : u.markSp = f.markSp) :
    (∃ s', R.exec (do
        pushVal (.bool false)
        pushVal v
        normalize f.base f.want
        pure (Unwind.resume f.retIp)) u = .ok (.resume f.retIp) s' ∧
      Caught f i [.bool false, v] s') ↔ f.Room 2 := by
  by_cases h2 : f.base + 2 ≤ STACK_CAP
  · have h0 : u.vsp < STACK_CAP := by omega
    rw [exec_bind, bind_ok (exec_pushVal R u _ h0), exec_bind]
    set u1 : LuaState := { u with vstack := .bool false :: u.vstack } with hu1
    have h1 : u1.vsp < STACK_CAP := by
      simp only [hu1, Machine.vsp, List.length_cons] at hu ⊢
      omega
    rw [bind_ok (exec_pushVal R u1 _ h1), exec_bind]
    set u2 : LuaState := { u1 with vstack := v :: u1.vstack } with hu2
    have hs : u2.vstack = [.bool false, v].reverse ++ u.vstack := rfl
    have hl : u.vstack.length = f.base := hu
    have hroom : (f.want = WANT_ALL ∨ f.want ≤ 2 ∨ f.base + f.want ≤ STACK_CAP) ↔
        (f.want = WANT_ALL ∨ f.base + f.want ≤ STACK_CAP) := by omega
    rcases normalize_cases R u2 f.want hs with ⟨hw, hn⟩ | ⟨hw, s', he⟩
    · rw [hl] at hn hw
      rw [bind_ok hn]
      exact ⟨fun _ => ⟨h2, hroom.mp hw⟩, fun _ => ⟨_, rfl, hi, hm, u.vstack, hl, rfl⟩⟩
    · rw [hl] at he hw
      rw [bind_error he]
      refine ⟨?_, fun h => absurd (hroom.mpr h.2) hw⟩
      rintro ⟨s', h, -⟩
      cases h
  · refine ⟨?_, fun h => absurd h.1 h2⟩
    rintro ⟨s', h, -⟩
    simp only [exec_bind] at h
    obtain ⟨_, u1, h0, h⟩ := bind_eq_ok.mp h
    obtain ⟨_, u2, h1, -⟩ := bind_eq_ok.mp h
    by_cases hv : u.vsp < STACK_CAP
    · rw [exec_pushVal R u _ hv] at h0
      cases h0
      rw [exec_pushVal_full R _ _ (by simp only [Machine.vsp, List.length_cons] at hu ⊢; omega)] at h1
      cases h1
    · rw [exec_pushVal_full R u _ hv] at h0
      cases h0

/-- The results a handler returned, behind `false`. -/
theorem exec_handlerVals {base : ℕ} {s : LuaState} {r : ExecResult} {vs : List Value}
    (h : Returned base s r vs) (hc : base + (vs.length + 1) ≤ STACK_CAP) :
    ∃ top, R.exec (handlerVals r) s =
      .ok (.bool false :: vs) { s with vstack := top ++ s.vstack } := by
  cases r with
  | normal => exact ⟨[], by cases h; rfl⟩
  | ret v => exact ⟨[], by cases h; rfl⟩
  | ret2 a b => exact ⟨[], by cases h; rfl⟩
  | retN k =>
    obtain ⟨hk, rfl⟩ := h
    refine ⟨[.bool false], ?_⟩
    have hv : s.vstack.length = base + k := hk
    simp only [List.length_reverse, List.length_take] at hc
    rw [handlerVals, exec_bind, bind_ok (exec_pushVal R s _ (by omega)), exec_bind,
      bind_ok (exec_topVals R _ _ (by simp only [Machine.vsp, List.length_cons]; omega))]
    have ht : ((s.vstack.take k).reverse ++ [Value.bool false]).take k = (s.vstack.take k).reverse :=
      List.take_left' (by rw [List.length_reverse, List.length_take]; omega)
    simp [ht]
  | shell => exact h.elim
  | exit => exact h.elim
  | yield n => exact h.elim

/-- The results of an `xpcall` frame, its handler having returned `r`. -/
theorem xpcall_caught_iff {s : LuaState} {f : Frame} {i : ℕ} {r : ExecResult} {vs : List Value}
    (hr : Returned f.base s r vs) (hi : s.fsp = i) (hm : s.markSp = f.markSp) :
    (∃ s', R.exec (do
        placeWant f.base f.want (← handlerVals r)
        pure (Unwind.resume f.retIp)) s = .ok (.resume f.retIp) s' ∧
      Caught f i (.bool false :: vs) s') ↔ f.Room (vs.length + 1) := by
  simp only [exec_bind]
  by_cases hc : f.base + (vs.length + 1) ≤ STACK_CAP
  · obtain ⟨top, hv⟩ := exec_handlerVals R hr hc
    rw [bind_ok hv]
    by_cases hroom : f.Room (vs.length + 1)
    · rw [bind_ok (@exec_placeWant R f (.bool false :: vs) _ hroom)]
      refine ⟨fun _ => hroom, fun _ => ⟨_, rfl, hi, hm, _, ?_, rfl⟩⟩
      exact resize_length _ _ _
    · obtain ⟨s', he⟩ := @exec_placeWant_full R f.base f.want (.bool false :: vs)
        { s with vstack := top ++ s.vstack } hroom
      rw [bind_error he]
      refine ⟨?_, fun h => absurd h hroom⟩
      rintro ⟨s', h, -⟩
      cases h
  · refine ⟨?_, fun h => absurd h.1 hc⟩
    rintro ⟨s', h, -⟩
    obtain ⟨ws, u, h1, h⟩ := bind_eq_ok.mp h
    obtain ⟨_, w, h2, -⟩ := bind_eq_ok.mp h
    have hl : ws.length = vs.length + 1 := by
      cases r with
      | normal => cases hr; cases h1; rfl
      | ret v => cases hr; cases h1; rfl
      | ret2 a b => cases hr; cases h1; rfl
      | retN k =>
        obtain ⟨hk, rfl⟩ := hr
        rw [handlerVals, exec_bind] at h1
        obtain ⟨_, u1, h0, h1⟩ := bind_eq_ok.mp h1
        simp only [List.length_reverse, List.length_take] at hc
        rw [exec_pushVal_full R s _ (by simp only [Machine.vsp] at hk ⊢; omega)] at h0
        cases h0
      | shell => exact hr.elim
      | exit => exact hr.elim
      | yield n => exact hr.elim
    obtain ⟨s', he⟩ := @exec_placeWant_full R f.base f.want ws u
      (by rw [hl]; exact fun h => hc h.1)
    rw [he] at h2
    cases h2

/-! ### One turn of the loop -/

/-- A turn whose instruction fails is the unwinding of its error. -/
theorem turn_error (L : Lib) {s s1 : LuaState} {ip floor : ℕ} {ins : Instr} {e : LuaError}
    (hcode : s.code[ip]? = some ins) (herr : R.exec (execStep L (ip + 1) ins) s = .error (.lua e) s1) :
    R.exec (turn L ip floor) s = R.exec (do
      match ← unwindProtected floor s1.fsp e with
      | .resume ip => pure (.goto ip)
      | .control r => pure (.halt r)
      | .propagate => raise e) s1 := by
  have hc : catchLua (R.exec (execStep L (ip + 1) ins)) s = .ok (.error e) s1 := by
    rw [catchLua, herr]
  rw [turn, exec_bind, exec_get, bind_ok (getMachine_apply s), hcode]
  change (R.exec (attempt (execStep L (ip + 1) ins) >>= _)) s = _
  rw [exec_bind, exec_attempt, bind_ok hc]
  rfl

/-- `run_at` goes on where a turn of its loop ends. -/
theorem runAt_of_turn (L : Lib) {s s' : LuaState} {ip ip' floor : ℕ}
    (h : R.exec (turn L ip floor) s = .ok (.goto ip') s') :
    (R.next L).runAt ip floor s = R.runAt ip' floor s' := by
  change R.exec (runAt L ip floor) s = _
  rw [runAt, exec_bind, bind_ok h]
  simp only [doRunAt, exec_perform]
  rfl

/-- The unwinding catches the error at frame `f` with the results it should
give. -/
theorem unwind_caught_iff {s : LuaState} {floor i : ℕ} {e : LuaError} {f : Frame} {vs : List Value}
    (hf : Innermost s.frames floor i f) (hh : HandlerReturns R s e i f vs) {v : Value} {hp : Heap}
    (hv : errorObject s.toHeap e = .ok (v, hp)) :
    (∃ s', R.exec (unwindProtected floor (i + 1) e) s = .ok (.resume f.retIp) s' ∧
      Caught f i (caughtVals f v vs) s') ↔ f.Room (if f.errHandler = none then 2 else vs.length + 1) := by
  rw [unwind_at R hf e hv]
  set u := ({ s with toHeap := hp } : LuaState).unwound i f with hu
  have hvsp : u.vsp = f.base := resize_length _ _ _
  have hfsp : u.fsp = i := resize_length _ _ _
  have hmark : u.markSp = f.markSp := resize_length _ _ _
  cases hh' : f.errHandler with
  | none =>
    simp only [caughtVals, hh', if_true]
    exact pcall_caught_iff R v hvsp hfsp hmark
  | some h =>
    obtain ⟨r, s2, hcall, hr, hi, hm⟩ := hh h hh' v hp hv
    simp only [caughtVals, hh', reduceCtorEq, if_false]
    by_cases h1 : f.base + 1 ≤ STACK_CAP
    · rw [← xpcall_caught_iff R hr hi hm]
      have hpush := exec_pushVal R u v (by omega)
      rw [exec_bind, bind_ok hpush, exec_bind]
      have hatt : R.exec (attempt (doCall h 1)) { u with vstack := v :: u.vstack } =
          .ok (.ok r) s2 := by
        simp only [exec_attempt, doCall, exec_perform]
        change catchLua (R.call h 1) _ = _
        rw [catchLua]
        have : R.call h 1 { u with vstack := v :: u.vstack } = .ok r s2 := hcall
        rw [this]
      rw [bind_ok hatt]
      cases r <;> first | exact Iff.rfl | exact hr.elim
    · rw [exec_bind, bind_error (exec_pushVal_full R u v (by omega))]
      refine ⟨?_, fun hroom => absurd hroom.1 (by omega)⟩
      rintro ⟨s', h, -⟩
      cases h


/-- A machine about to read an undefined variable below a `pcall` frame. -/
def undefinedRead : LuaState where
  code := [.getVar 5]
  frames := [{ retIp := RET_PCALL, base := 1 }, { retIp := 7, want := 2, isProtected := true }]
  vstack := [.nil]

/-- The bytes of a string as one number. -/
def wordNat (b : List UInt8) : ℕ := b.foldl (fun n c => n * 256 + c.toNat) 1

theorem wordNat_snoc (b : List UInt8) (c : UInt8) : wordNat (b ++ [c]) = wordNat b * 256 + c.toNat := by
  rw [wordNat, List.foldl_append]
  rfl

theorem wordNat_pos (b : List UInt8) : 0 < wordNat b := by
  induction b using List.reverseRecOn with
  | nil => exact Nat.one_pos
  | append_singleton b c ih =>
    rw [wordNat_snoc]
    omega

/-- Different strings have different numbers. -/
theorem wordNat_inj {b c : List UInt8} : wordNat b = wordNat c ↔ b = c := by
  refine ⟨fun h => ?_, fun h => by rw [h]⟩
  induction b using List.reverseRecOn generalizing c with
  | nil =>
    rcases List.eq_nil_or_concat c with rfl | ⟨c, y, rfl⟩
    · rfl
    · rw [List.concat_eq_append, wordNat_snoc] at h
      have hpos := wordNat_pos c
      have hone : wordNat [] = 1 := rfl
      omega
  | append_singleton b x ih =>
    rw [wordNat_snoc] at h
    rcases List.eq_nil_or_concat c with rfl | ⟨c, y, rfl⟩
    · have hpos := wordNat_pos b
      have hone : wordNat [] = 1 := rfl
      omega
    · rw [List.concat_eq_append, wordNat_snoc] at h
      rw [List.concat_eq_append]
      have hx := x.toNat_lt
      have hy := y.toNat_lt
      rw [ih (c := c) (by omega), UInt8.toNat_inj.mp (show x.toNat = y.toNat by omega)]

/-- What `intern` goes by: the strings, as numbers, and where the next one goes. -/
structure Words where
  nums : List ℕ
  next : ℕ

def Heap.words (h : Heap) : Words := ⟨(h.strregs.map fun reg => wordNat reg.2).reverse, h.strNext⟩

/-- `intern`, on the numbers. -/
def Words.add (w : Words) (b : List UInt8) : Except String Words :=
  match wordNat b with
  | 0 => .ok w
  -- the number is worked out here, once
  | n + 1 =>
    if w.nums.any (Nat.beq (n + 1)) then .ok w
    else if w.nums.length ≥ MAX_STRINGS then .error "too many strings"
    else if w.next + b.length > STR_CAP then .error "string overflow"
    else .ok ⟨(n + 1) :: w.nums, w.next + b.length⟩

theorem words_add (h : Heap) (b : List UInt8) : h.words.add b = (h.intern b).map fun p => p.2.words := by
  have hfind : h.words.nums.any (Nat.beq (wordNat b)) = (h.strregs.find? fun reg => reg.2 = b).isSome := by
    rw [Heap.words, List.any_reverse, List.any_map, List.isSome_find?]
    congr 1
    funext reg
    rw [Function.comp_apply, Bool.eq_iff_iff, Nat.beq_eq, wordNat_inj, decide_eq_true_iff, eq_comm]
  have hlen : h.words.nums.length = h.strregs.length := by
    rw [Heap.words, List.length_reverse, List.length_map]
  obtain ⟨n, hn⟩ := Nat.exists_eq_add_one.mpr (wordNat_pos b)
  rw [Words.add, hn]
  dsimp only
  rw [← hn, hfind, hlen, Heap.intern]
  cases h.strregs.find? fun reg => reg.2 = b with
  | some reg => rfl
  | none =>
    dsimp only
    rw [if_neg (by simp)]
    by_cases hfull : h.strregs.length ≥ MAX_STRINGS
    · rw [if_pos hfull, if_pos hfull]
      rfl
    · rw [if_neg hfull, if_neg hfull]
      have hnext : h.words.next = h.strNext := rfl
      rw [hnext]
      by_cases hroom : h.strNext + b.length > STR_CAP
      · rw [if_pos hroom, if_pos hroom]
        rfl
      · rw [if_neg hroom, if_neg hroom]
        simp [Heap.words, Except.map]

/-- A string just stored is found again. -/
theorem intern_again {h h' : Heap} {b : List UInt8} {r : StrRef} (hi : h.intern b = .ok (r, h')) :
    h'.intern b = .ok (r, h') := by
  cases hf : h.strregs.find? (fun reg => reg.2 = b) with
  | some reg =>
    have hsame : h.intern b = .ok (strref reg.1 reg.2.length, h) := by rw [Heap.intern, hf]
    cases hi.symm.trans hsame
    exact hi
  | none =>
    rw [Heap.intern, hf] at hi
    dsimp only at hi
    split_ifs at hi
    cases hi
    rw [Heap.intern]
    have hfound : (h.strregs ++ [(h.strNext, b)]).find? (fun reg => reg.2 = b) = some (h.strNext, b) := by
      simp [List.find?_append, hf]
    rw [hfound]

/-- The error of storing the message `m`. -/
def messageError (w : Words) (m : String) : Option String :=
  match w.add (bytesOf m) with
  | .error m => some m
  | .ok _ => none

/-- The error that ends a loop appending its counter to itself within `n` rounds, when the arena has no room for its
message either. -/
def fillError : ℕ → Words → Int64 → Option String
  | 0, _, _ => none
  | n + 1, w, i =>
    match w.add (itoa i) with
    | .error m => messageError w m
    | .ok w =>
      if (itoa i ++ itoa i).length ≤ 512 ∧ i + 1 ≤ 300 then
        match w.add (itoa i ++ itoa i) with
        | .error m => messageError w m
        | .ok w => fillError n w (i + 1)
      else none

theorem intern_of_messageError {h : Heap} {m m' : String} (he : messageError h.words m = some m') :
    h.intern (bytesOf m) = .error m' := by
  rw [messageError, words_add] at he
  cases hi : h.intern (bytesOf m) with
  | error e =>
    rw [hi] at he
    cases he
    rfl
  | ok p =>
    rw [hi] at he
    cases he

/-! ### A loop that fills the arena -/

/-- The code of `for i=1,300 do local s = i..i end` from instruction 10 on, and what is behind it. -/
def loopCode : List Instr :=
  [.pushScope, .getVar 28770305, .getVar 28770305, .binOp .concat, .declareLocal [28835841] 1, .popScope,
    .forLoop false 10 28770305, .popScope, .ret 0]

/-- The loop's frame at counter `i`. -/
def loopFrame (i : Int64) : Frame where
  locals := [⟨28770305, .num i, NO_CELL⟩]
  ctrl0 := .num i
  ctrl1 := .num 300
  ctrl2 := .num 1

/-- The frames below the loop's: of the function, the `pcall` and the script. -/
def belowLoop : List Frame :=
  [{ retIp := RET_PCALL, want := WANT_ALL, base := 1 }, { retIp := 3, want := 1, isProtected := true },
    { retIp := RET_HALT }]

/-- In the loop at counter `i`, with the frames `fs` and the operands `vs` of its body. -/
def filling (b : LuaState) (h : Heap) (n : ℕ) (i : Int64) (fs : List Frame) (vs : List Value) : LuaState :=
  { b with toHeap := h, frames := fs ++ loopFrame i :: belowLoop, vstack := vs ++ [.func 0], steps := n }

/-- A turn whose instruction goes on, below the step limit. -/
theorem turn_goto (L : Lib) {s s' : LuaState} {ip ip' floor : ℕ} {ins : Instr} (hcode : s.code[ip]? = some ins)
    (hins : R.exec (execInstr L (ip + 1) ins) s = .ok (.goto ip') s') (hsteps : s'.steps < MAX_STEPS) :
    R.exec (turn L ip floor) s = .ok (.goto ip') { s' with steps := s'.steps + 1 } := by
  have hstep : R.exec (execStep L (ip + 1) ins) s = .ok (.goto ip') { s' with steps := s'.steps + 1 } := by
    rw [execStep, exec_bind, bind_ok hins]
    simp [countStep, bind_apply, Nat.not_lt.mpr hsteps]
  have hc : catchLua (R.exec (execStep L (ip + 1) ins)) s =
      .ok (.ok (.goto ip')) { s' with steps := s'.steps + 1 } := by
    rw [catchLua, hstep]
  rw [turn, exec_bind, exec_get, bind_ok (getMachine_apply s), hcode]
  change (R.exec (attempt (execStep L (ip + 1) ins) >>= _)) s = _
  rw [exec_bind, exec_attempt, bind_ok hc]
  rfl

section Filling
variable {b : LuaState} (hb : b.code.drop 10 = loopCode) {h h' h'' : Heap} {i i' : Int64} {n : ℕ}
  {fs fs' : List Frame} {vs vs' : List Value}
include hb

theorem loop_code {j : ℕ} {ins : Instr} (hj : loopCode[j]? = some ins) :
    (filling b h n i fs vs).code[10 + j]? = some ins := by
  change b.code[10 + j]? = some ins
  rw [← List.getElem?_drop, hb, hj]

/-- One turn of the loop. -/
theorem loop_turn {m j ip' : ℕ} {ins : Instr} (hj : loopCode[j]? = some ins)
    (hins : (interp bareLib m).exec (execInstr bareLib (10 + j + 1) ins) (filling b h n i fs vs) =
      .ok (.goto ip') (filling b h' n i' fs' vs')) (hn : n < MAX_STEPS) :
    (interp bareLib (m + 1)).runAt (10 + j) 1 (filling b h n i fs vs) =
      (interp bareLib m).runAt ip' 1 (filling b h' (n + 1) i' fs' vs') :=
  runAt_of_turn _ bareLib (turn_goto _ bareLib (loop_code hb hj) hins hn)

omit hb in
/-- A number appended to itself. -/
theorem exec_cat {s : LuaState} (hs : s.toHeap.Sound) {r : StrRef} (hi : s.toHeap.intern (itoa i) = .ok (r, h))
    (hshort : (itoa i ++ itoa i).length ≤ 512) : R.exec (binop bareLib .concat (.num i) (.num i)) s =
      R.exec (do pure (.str (← intern (itoa i ++ itoa i)))) { s with toHeap := h } := by
  have hbytes := (hs.intern hi).2
  have hfirst : R.exec (intern (itoa i)) s = .ok r { s with toHeap := h } := by rw [exec_intern, hi]
  have hagain : R.exec (intern (itoa i)) { s with toHeap := h } = .ok r { s with toHeap := h } := by
    rw [exec_intern]
    dsimp only
    rw [intern_again hi]
  rw [binop, concat, if_pos ⟨rfl, rfl⟩]
  simp only [stringOf]
  rw [exec_bind, bind_ok hfirst, exec_bind, bind_ok hagain, exec_bind, exec_get, bind_ok (getMachine_apply _)]
  dsimp only
  rw [hbytes, if_neg (Nat.not_lt.mpr hshort)]

omit hb in
/-- The instruction that appends the counter to itself is that call of `intern`. -/
theorem exec_body (hs : h.Sound) {r : StrRef} (hi : h.intern (itoa i) = .ok (r, h'))
    (hshort : (itoa i ++ itoa i).length ≤ 512) :
    R.exec (execInstr bareLib 14 (.binOp .concat)) (filling b h n i [{}] [.num i, .num i]) =
      R.exec (do
        pushVal (.str (← intern (itoa i ++ itoa i)))
        pure (.goto 14)) (filling b h' n i [{}] []) := by
  have hpop : ∀ vs, R.exec pop (filling b h n i [{}] (.num i :: vs)) = .ok (.num i) (filling b h n i [{}] vs) :=
    fun vs => exec_pop R _ rfl
  have hsound : (filling b h n i [{}] []).toHeap.Sound := hs
  rw [execInstr, exec_bind, bind_ok (hpop _), exec_bind, bind_ok (hpop _), exec_bind, bind_apply,
    exec_cat R hsound hi hshort, exec_bind, exec_bind, bind_apply, bind_apply, exec_intern, exec_intern]
  dsimp only [filling]
  cases h'.intern (itoa i ++ itoa i) with
  | ok p => rfl
  | error m => rfl

omit hb in
theorem exec_body_error {m : String} (hi : h.intern (itoa i) = .error m) :
    R.exec (execInstr bareLib 14 (.binOp .concat)) (filling b h n i [{}] [.num i, .num i]) =
      .error (.lua (.msg m)) (filling b h n i [{}] []) := by
  have hpop : ∀ vs, R.exec pop (filling b h n i [{}] (.num i :: vs)) = .ok (.num i) (filling b h n i [{}] vs) :=
    fun vs => exec_pop R _ rfl
  have hfirst : R.exec (intern (itoa i)) (filling b h n i [{}] []) =
      .error (.lua (.msg m)) (filling b h n i [{}] []) := by
    rw [exec_intern, show (filling b h n i [{}] []).toHeap = h from rfl, hi]
  have hcat : R.exec (binop bareLib .concat (.num i) (.num i)) (filling b h n i [{}] []) =
      .error (.lua (.msg m)) (filling b h n i [{}] []) := by
    rw [binop, concat, if_pos ⟨rfl, rfl⟩, stringOf, exec_bind, bind_error hfirst]
  rw [execInstr, exec_bind, bind_ok (hpop _), exec_bind, bind_ok (hpop _), exec_bind, bind_error hcat]

/-- The three turns of a round before its strings are made. -/
theorem fill_head (hn : n + 3 ≤ MAX_STEPS) (m : ℕ) : (interp bareLib (m + 3)).runAt 10 1 (filling b h n i [] []) =
    (interp bareLib m).runAt 13 1 (filling b h (n + 3) i [{}] [.num i, .num i]) := by
  calc (interp bareLib (m + 3)).runAt 10 1 (filling b h n i [] [])
      = (interp bareLib (m + 2)).runAt 11 1 (filling b h (n + 1) i [{}] []) :=
        @loop_turn b hb h h i i n [] _ [] _ (m + 2) 0 11 _ rfl rfl (by omega)
    _ = (interp bareLib (m + 1)).runAt 12 1 (filling b h (n + 2) i [{}] [.num i]) :=
        @loop_turn b hb h h i i (n + 1) _ _ _ _ (m + 1) 1 12 _ rfl rfl (by omega)
    _ = (interp bareLib m).runAt 13 1 (filling b h (n + 3) i [{}] [.num i, .num i]) :=
        @loop_turn b hb h h i i (n + 2) _ _ _ _ m 2 13 _ rfl rfl (by omega)

/-- A round whose strings have room. -/
theorem fill_round {r q : StrRef} (hs : h.Sound) (h1 : h.intern (itoa i) = .ok (r, h'))
    (hshort : (itoa i ++ itoa i).length ≤ 512) (h2 : h'.intern (itoa i ++ itoa i) = .ok (q, h'')) (hi : i + 1 ≤ 300)
    (hn : n + 7 ≤ MAX_STEPS) (m : ℕ) :
    (interp bareLib (m + 7)).runAt 10 1 (filling b h n i [] []) =
      (interp bareLib m).runAt 10 1 (filling b h'' (n + 7) (i + 1) [] []) := by
  have hcat : (interp bareLib (m + 3)).exec (execInstr bareLib 14 (.binOp .concat))
      (filling b h (n + 3) i [{}] [.num i, .num i]) = .ok (.goto 14) (filling b h'' (n + 3) i [{}] [.str q]) := by
    have hq : (interp bareLib (m + 3)).exec (intern (itoa i ++ itoa i)) (filling b h' (n + 3) i [{}] []) =
        .ok q (filling b h'' (n + 3) i [{}] []) := by
      rw [exec_intern, show (filling b h' (n + 3) i [{}] []).toHeap = h' from rfl, h2]
      rfl
    rw [exec_body _ hs h1 hshort, exec_bind, bind_ok hq]
    rfl
  have hloop : (interp bareLib m).exec (execInstr bareLib 17 (.forLoop false 10 28770305))
      (filling b h'' (n + 6) i [] []) = .ok (.goto 10) (filling b h'' (n + 6) (i + 1) [] []) := by
    have hnext : forNext (loopFrame i) = some (some (.num (i + 1))) := by
      simp [forNext, loopFrame, numPast, Int64.not_lt.mpr hi]
    rw [execInstr, execForLoop, exec_bind, bind_ok (exec_topFrame _ _ rfl), hnext]
    rfl
  calc (interp bareLib (m + 7)).runAt 10 1 (filling b h n i [] [])
      = (interp bareLib (m + 4)).runAt 13 1 (filling b h (n + 3) i [{}] [.num i, .num i]) :=
        fill_head hb (by omega) (m + 4)
    _ = (interp bareLib (m + 3)).runAt 14 1 (filling b h'' (n + 4) i [{}] [.str q]) :=
        @loop_turn b hb h h'' i i (n + 3) _ _ _ _ (m + 3) 3 14 _ rfl hcat (by omega)
    _ = (interp bareLib (m + 2)).runAt 15 1
          (filling b h'' (n + 5) i [{ locals := [⟨28835841, .str q, NO_CELL⟩] }] []) :=
        @loop_turn b hb h'' h'' i i (n + 4) _ _ _ _ (m + 2) 4 15 _ rfl rfl (by omega)
    _ = (interp bareLib (m + 1)).runAt 16 1 (filling b h'' (n + 6) i [] []) :=
        @loop_turn b hb h'' h'' i i (n + 5) _ _ _ _ (m + 1) 5 16 _ rfl rfl (by omega)
    _ = (interp bareLib m).runAt 10 1 (filling b h'' (n + 7) (i + 1) [] []) :=
        @loop_turn b hb h'' h'' i (i + 1) (n + 6) _ _ _ _ m 6 10 _ rfl hloop (by omega)
omit hb in
theorem filling_innermost : Innermost (filling b h n i [{}] vs).frames 1 1
    { retIp := 3, want := 1, isProtected := true } := by
  refine ⟨rfl, rfl, Nat.le_refl 1, fun j g hj hg => ?_⟩
  have hlt : j < 5 := at?_lt hg
  obtain rfl | rfl | rfl : j = 2 ∨ j = 3 ∨ j = 4 := by omega
  · cases hg
    rfl
  · cases hg
    rfl
  · cases hg
    rfl

/-- The instruction fails, and the arena has no room for the message: the error of storing it ends the loop. -/
theorem fail_turn {m m' : String}
    (hins : R.exec (execInstr bareLib 14 (.binOp .concat)) (filling b h n i [{}] [.num i, .num i]) =
      .error (.lua (.msg m)) (filling b h' n i [{}] [])) (hm : h'.intern (bytesOf m) = .error m') :
    R.exec (turn bareLib 13 1) (filling b h n i [{}] [.num i, .num i]) =
      .error (.lua (.msg m')) (filling b h' n i [{}] []) := by
  have herr : R.exec (execStep bareLib (13 + 1) (.binOp .concat)) (filling b h n i [{}] [.num i, .num i]) =
      .error (.lua (.msg m)) (filling b h' n i [{}] []) := by
    rw [execStep, exec_bind, bind_error hins]
  have hunwind : R.exec (unwindProtected 1 (1 + 1) (.msg m)) (filling b h' n i [{}] []) =
      .error (.lua (.msg m')) (filling b h' n i [{}] []) := by
    have hvalue : R.exec (errorValue (.msg m)) (filling b h' n i [{}] []) =
        .error (.lua (.msg m')) (filling b h' n i [{}] []) := by
      rw [exec_errorValue, errorObject, show (filling b h' n i [{}] []).toHeap = h' from rfl, hm]
      rfl
    have hf := @filling_innermost b h' i n []
    simp only [unwindProtected, exec_bind, exec_ite, exec_get, bind_apply, getMachine_apply, hf.at_eq, orFault,
      exec_pure, pure_apply, Nat.lt_irrefl, Bool.not_true, Bool.false_eq_true, if_false, hvalue]
  have hcode : (filling b h n i [{}] [.num i, .num i]).code[13]? = some (.binOp .concat) :=
    @loop_code b hb h i n _ _ 3 _ rfl
  rw [turn_error R bareLib hcode herr, exec_bind,
    bind_error ((unwind_skip R filling_innermost (.msg m) _ (by change 1 < 5; omega) (Nat.le_refl _)).trans hunwind)]

/-- A round whose strings have no room. -/
theorem fill_round_error {m m' : String} (hn : n + 3 ≤ MAX_STEPS) (k : ℕ)
    (hins : (interp bareLib k).exec (execInstr bareLib 14 (.binOp .concat))
      (filling b h (n + 3) i [{}] [.num i, .num i]) = .error (.lua (.msg m)) (filling b h' (n + 3) i [{}] []))
    (hm : h'.intern (bytesOf m) = .error m') :
    (interp bareLib (k + 4)).runAt 10 1 (filling b h n i [] []) =
      .error (.lua (.msg m')) (filling b h' (n + 3) i [{}] []) := by
  calc (interp bareLib (k + 4)).runAt 10 1 (filling b h n i [] [])
      = (interp bareLib (k + 1)).runAt 13 1 (filling b h (n + 3) i [{}] [.num i, .num i]) :=
        fill_head hb hn (k + 1)
    _ = .error (.lua (.msg m')) (filling b h' (n + 3) i [{}] []) := by
        change (interp bareLib k).exec (runAt bareLib 13 1) _ = _
        rw [runAt, exec_bind, bind_error (fail_turn _ hb hins hm)]

/-- A round ends the loop with the error, or leaves it to the next. -/
theorem fill_cases {k : ℕ} {m : String} (hs : h.Sound) (hn : n + 7 ≤ MAX_STEPS)
    (he : fillError (k + 1) h.words i = some m) :
    (∀ j, ∃ t, (interp bareLib (j + 4)).runAt 10 1 (filling b h n i [] []) = .error (.lua (.msg m)) t) ∨
      ∃ h', h'.Sound ∧ fillError k h'.words (i + 1) = some m ∧ ∀ j,
        (interp bareLib (j + 7)).runAt 10 1 (filling b h n i [] []) =
          (interp bareLib j).runAt 10 1 (filling b h' (n + 7) (i + 1) [] []) := by
  rw [fillError, words_add] at he
  cases h1 : h.intern (itoa i) with
  | error m0 =>
    rw [h1] at he
    exact .inl fun j =>
      ⟨_, fill_round_error hb (by omega) j (exec_body_error _ h1) (intern_of_messageError he)⟩
  | ok p =>
    obtain ⟨r, h'⟩ := p
    rw [h1] at he
    dsimp only [Except.map] at he
    split_ifs at he with hc
    obtain ⟨hshort, hi⟩ := hc
    rw [words_add] at he
    cases h2 : h'.intern (itoa i ++ itoa i) with
    | error m0 =>
      rw [h2] at he
      have hins : ∀ j, (interp bareLib j).exec (execInstr bareLib 14 (.binOp .concat))
          (filling b h (n + 3) i [{}] [.num i, .num i]) =
          .error (.lua (.msg m0)) (filling b h' (n + 3) i [{}] []) := by
        intro j
        have hq : (interp bareLib j).exec (intern (itoa i ++ itoa i)) (filling b h' (n + 3) i [{}] []) =
            .error (.lua (.msg m0)) (filling b h' (n + 3) i [{}] []) := by
          rw [exec_intern, show (filling b h' (n + 3) i [{}] []).toHeap = h' from rfl, h2]
        rw [exec_body _ hs h1 hshort, exec_bind, bind_error hq]
      exact .inl fun j => ⟨_, fill_round_error hb (by omega) j (hins j) (intern_of_messageError he)⟩
    | ok p =>
      obtain ⟨q, h''⟩ := p
      rw [h2] at he
      exact .inr ⟨h'', ((hs.intern h1).1.intern h2).1, he, fill_round hb hs h1 hshort h2 hi hn⟩

/-- The error that ends the loop. -/
theorem loop_error {m : String} : ∀ (k j : ℕ) {h : Heap} {i : Int64} {n : ℕ}, h.Sound →
    n + 7 * (k + 1) ≤ MAX_STEPS → fillError (k + 1) h.words i = some m →
    ∃ t, (interp bareLib (7 * k + j + 4)).runAt 10 1 (filling b h n i [] []) = .error (.lua (.msg m)) t := by
  intro k
  induction k with
  | zero =>
    intro j h i n hs hn he
    obtain hend | ⟨h', -, hnone, -⟩ := fill_cases hb hs (by omega) he
    · exact hend _
    · cases hnone
  | succ k ih =>
    intro j h i n hs hn he
    have hround : n + 7 ≤ MAX_STEPS := by omega
    obtain hend | ⟨h', hs', he', hrun⟩ := fill_cases hb hs hround he
    · exact hend _
    · have hrest : n + 7 + 7 * (k + 1) ≤ MAX_STEPS := by omega
      obtain ⟨t, ht⟩ := ih j hs' hrest he'
      refine ⟨t, ?_⟩
      rw [show 7 * (k + 1) + j + 4 = 7 * k + j + 4 + 7 by omega, hrun, ht]

end Filling

/-! ### Up to the loop -/

/-- `n` turns of the loop of `run_at` that go on, starting nothing again. -/
def hops (L : Lib) (floor : ℕ) : ℕ → ℕ → LuaState → Option (ℕ × LuaState)
  | 0, ip, s => some (ip, s)
  | n + 1, ip, s =>
    match Rec.stuck.exec (turn L ip floor) s with
    | .ok (.goto ip') s' => hops L floor n ip' s'
    | _ => none

theorem runAt_of_hops (L : Lib) {floor : ℕ} {ip' : ℕ} {s' : LuaState} : ∀ (n : ℕ) {ip : ℕ} {s : LuaState} (m : ℕ),
    hops L floor n ip s = some (ip', s') → (interp L (n + m)).runAt ip floor s = (interp L m).runAt ip' floor s'
  | 0, ip, s, m, h => by
    cases h
    rw [Nat.zero_add]
  | n + 1, ip, s, m, h => by
    rw [hops] at h
    cases ht : Rec.stuck.exec (turn L ip floor) s with
    | error e t => simp [ht] at h
    | ok next t =>
      cases next with
      | halt r => simp [ht] at h
      | goto ip1 =>
        rw [ht] at h
        have hturn : (interp L (n + m)).exec (turn L ip floor) s = .ok (.goto ip1) t := by
          rw [← ht]
          exact ((below_exec (below_stuck _) (turn L ip floor)).eq fun t' he => by rw [ht] at he; cases he).symm
        rw [show n + 1 + m = n + m + 1 by omega, ← runAt_of_hops L n m h, interp]
        exact runAt_of_turn _ L hturn

/-- `run_script` up to its `run_at`. -/
def loadScript (source : List UInt8) : LuaM ℕ := do
  registerBuiltins
  let first ← parseScript source
  let entry ← compile first
  pushFrame { retIp := RET_HALT, want := 0, base := (← get).vsp }
  pure entry

theorem run_of_load {source : List UInt8} {s t : LuaState} {entry : ℕ}
    (h : R.exec (loadScript source) s.reset = .ok entry t) :
    stopOf (run R source s) = stopOf (R.runAt entry t.fsp t) := by
  simp only [loadScript, exec_bind] at h
  obtain ⟨_, s1, h1, h⟩ := bind_eq_ok.mp h
  obtain ⟨first, s2, h2, h⟩ := bind_eq_ok.mp h
  obtain ⟨entry', s3, h3, h⟩ := bind_eq_ok.mp h
  obtain ⟨m, s4, h4, h⟩ := bind_eq_ok.mp h
  obtain ⟨_, s5, h5, h⟩ := bind_eq_ok.mp h
  cases h
  have hentry : R.exec (runEntry entry) t = R.runAt entry t.fsp t := by
    rw [runEntry, exec_bind, exec_get, bind_ok (getMachine_apply t), doRunAt, exec_perform]
    rfl
  rw [run, bind_ok (modify_apply LuaState.reset s), runScript, exec_bind, bind_ok h1, exec_bind, bind_ok h2, exec_bind,
    bind_ok h3, execScript, exec_bind, bind_ok h4, exec_bind, bind_ok h5, exec_bind]
  cases hr : R.runAt entry t.fsp t with
  | ok a u =>
    rw [bind_ok (hentry.trans hr)]
    rfl
  | error e u =>
    rw [bind_error (hentry.trans hr)]
    rfl

/-- Where the machine is `n` turns behind a loaded script. -/
def warm (n : ℕ) : EStateM.Result Stop LuaState ℕ → Option (ℕ × LuaState)
  | .ok entry s => if s.fsp = 1 then hops bareLib 1 n entry s else none
  | .error _ _ => none

theorem run_of_warm {n m ip : ℕ} {source : List UInt8} {s t : LuaState} {r : EStateM.Result Stop LuaState ℕ}
    (hr : (interp bareLib 2).exec (loadScript source) s.reset = r) (h : warm n r = some (ip, t)) :
    stopOf (run (interp bareLib (n + (m + 2))) source s) = stopOf ((interp bareLib (m + 2)).runAt ip 1 t) := by
  cases r with
  | error e u => cases h
  | ok entry u =>
    rw [warm] at h
    split_ifs at h with hfsp
    have hload : (interp bareLib (n + (m + 2))).exec (loadScript source) s.reset = .ok entry u := by
      rw [← hr]
      refine ((below_exec (interp_mono bareLib (by omega)) (loadScript source)).eq fun t' he => ?_).symm
      rw [hr] at he
      cases he
    rw [run_of_load _ hload, hfsp, runAt_of_hops bareLib n (m + 2) h]

/-- A loop that appends its counter to itself, in a protected call. -/
def fillingScript : List UInt8 := bytesOf "pcall(function() for i=1,300 do local s = i..i end end)"

/-- The machine in front of its loop. -/
def warmed : Option (ℕ × LuaState) :=
  warm 8 ((interp bareLib 2).exec (loadScript fillingScript) ({} : LuaState).reset)

/-- The strings of a heap, stored one after another. -/
def Heap.restored (h : Heap) : Except String Heap :=
  (h.strregs.map (·.2)).foldlM (fun h b => (h.intern b).map (·.2)) {}

theorem Heap.Sound.interns : ∀ (bs : List (List UInt8)) {h h' : Heap}, h.Sound →
    bs.foldlM (fun h b => (h.intern b).map (·.2)) h = .ok h' → h'.Sound
  | [], h, h', hs, he => by
    cases he
    exact hs
  | b :: bs, h, h', hs, he => by
    rw [List.foldlM_cons] at he
    cases hi : h.intern b with
    | error m =>
      rw [hi] at he
      cases he
    | ok p =>
      rw [hi] at he
      exact Heap.Sound.interns bs (hs.intern hi).1 he

/-- The machine is in front of the loop of `fillingScript`, with its strings where storing them in their order puts
them, and the loop fills the arena. -/
@[reducible] def AtLoop (ip : ℕ) (b : LuaState) : Prop :=
  (ip = 10 ∧ b.code.drop 10 = loopCode) ∧ (b.frames = loopFrame 1 :: belowLoop ∧ b.vstack = [.func 0] ∧ b.steps = 8) ∧
    b.restored.toOption.any (fun h => h.strregs = b.strregs ∧ h.strNext = b.strNext) = true ∧
    fillError 92 b.words 1 = some "too many strings"

theorem at_loop : warmed.any (fun p => AtLoop p.1 p.2) = true := by decide +kernel

theorem AtLoop.sound {ip : ℕ} {b : LuaState} (h : AtLoop ip b) : b.toHeap.Sound := by
  obtain ⟨-, -, hr, -⟩ := h
  cases he : b.restored with
  | error m => simp [he, Except.toOption] at hr
  | ok h' =>
    have hs' : h'.Sound := Heap.Sound.interns _ (Heap.sound_empty rfl rfl) he
    rw [he] at hr
    obtain ⟨hregs, hnext⟩ := of_decide_eq_true hr
    obtain ⟨a, p, hshow, hp⟩ := hs'
    exact ⟨a, p, ⟨hregs.symm.trans hshow.regs, hnext.symm.trans hshow.next⟩, hp⟩

theorem AtLoop.eq_filling {ip : ℕ} {b : LuaState} (h : AtLoop ip b) : filling b b.toHeap 8 1 [] [] = b := by
  obtain ⟨-, ⟨hf, hv, hs⟩, -⟩ := h
  have he : filling b b.toHeap 8 1 [] [] = { b with
    frames := loopFrame 1 :: belowLoop, vstack := [.func 0], steps := 8 } := rfl
  rw [he, ← hf, ← hv, ← hs]

end Lua
end Rustrapper

/-
# Compiling a script preserves its meaning

What a run of the interpreter does with a source text is what the text means:
where the evaluation of the parsed script ends, with whatever fuel, the
compiled code ends on the machine, with the same heap and output or the same
error, unless the machine gave up for want of room or steps (`run_preserved`).

A script is plain when it has no `goto` and no block of it declares a name
twice. Closures over variables, metamethods, protected calls and coroutines
are beyond what `Lua/Meaning` tells; a script that gets to one of them has no
meaning there, and nothing is said of it.
-/
import Rustrapper.Lua.Preserve
import Rustrapper.Lua.Writes

namespace Rustrapper
namespace Lua

open Effect

/-! ### Plain scripts -/

/-- No `goto`, and no block that declares a name twice. -/
structure Plain (first : Block) (funcs : List FuncDef) : Prop where
  gotos : Block.noGoto first
  names : (Block.declares first).Nodup
  tidy : Block.tidy first
  bodies : ∀ fd ∈ funcs, Block.noGoto fd.body ∧ (fd.params ++ Block.declares fd.body).Nodup ∧ Block.tidy fd.body

instance (first : Block) (funcs : List FuncDef) : Decidable (Plain first funcs) :=
  decidable_of_iff (Block.noGoto first ∧ (Block.declares first).Nodup ∧ Block.tidy first ∧
      ∀ fd ∈ funcs, Block.noGoto fd.body ∧ (fd.params ++ Block.declares fd.body).Nodup ∧ Block.tidy fd.body)
    ⟨fun ⟨h1, h2, h3, h4⟩ => ⟨h1, h2, h3, h4⟩, fun ⟨h1, h2, h3, h4⟩ => ⟨h1, h2, h3, h4⟩⟩

/-- The functions a script is evaluated with: those it mentions. -/
def Provides (first : Block) (funcs : List FuncDef) (prog : ℕ → Option FuncDef) : Prop :=
  ∀ fi fd, prog fi = some fd → funcs[fi]? = some fd ∧ Mentioned first funcs fi

theorem hosts_of_placed {C : Course} {ch : Chunks} {first : Block} {entry : ℕ} {c' : Compiler}
    {prog : ℕ → Option FuncDef} (hp : Placed ch first entry c') (hplain : Plain first ch.funcs)
    (hprog : Provides first ch.funcs prog) (hcode : C.b.code = c'.chunks.code)
    (hfuncs : C.b.funcs = c'.chunks.funcs) :
    Hosts C prog ⟨c'.chunks.code, c'.compiled⟩ (upCounts c'.chunks.funcs) where
  code := hcode.symm
  room := hcode ▸ hp.room
  func := by
    intro fi fd hfi
    obtain ⟨hfd, hm⟩ := hprog fi fd hfi
    obtain ⟨fd', hfd', hbody⟩ := hp.linked fi (hp.mentioned hm)
    obtain ⟨-, hnodup, htidy⟩ := hplain.bodies fd (List.mem_of_getElem? hfd)
    have he := unplaced_getElem? hp.funcs hfd hfd'
    have hb : fd'.body = fd.body := (congrArg FuncDef.body he :)
    refine ⟨fd', hfuncs ▸ hfd', (congrArg FuncDef.params he :), hb ▸ hbody, ?_, hnodup, htidy⟩
    rw [upCounts, List.getElem?_map, hfd']
    exact congrArg some (congrArg (fun fd : FuncDef => fd.upNames.length) he :)

/-! ### The script's own frame -/

/-- The frame of a script. -/
def scriptFrame (base : ℕ) : Frame := { retIp := RET_HALT, want := 0, base := base }

theorem padTo_zero (vs : List Value) : padTo 0 vs = [] := by
  simp [padTo, show (0 : ℕ) ≠ WANT_ALL by decide]

/-- The code of a script leads to the end of the script. -/
theorem leads_script {C : Course} {prog : ℕ → Option FuncDef} {im : Image} {ups : List ℕ} {first : Block}
    {entry n : ℕ} {st : List Value} {rest : List Frame} {mk : List ℕ} {h : Heap} (H : Hosts C prog im ups)
    (hbody : BodyAt im ups first entry) (hnames : (Block.declares first).Nodup) (htidy : Block.tidy first)
    (hu : Unprotected rest)
    (hy : C.sem (runMain C.L prog n first) (fun _ h' => ∀ t : LuaState, t.toHeap = h' → C.Q (.ok .normal t)) h) :
    C.leads entry st (scriptFrame st.length :: rest) mk h := by
  obtain ⟨m, hblock, hret⟩ := hbody
  have hcode : C.b.code[m]? = some (.ret 0) := by rw [← H.code]; exact hret
  have hback : ∀ (vs : List Value) {r a : ℕ} {bs : Bindings} {h'}, C.b.code[r]? = some (.ret a) →
      (a = WANT_ALL ∨ a = vs.length) → (∀ t : LuaState, t.toHeap = h' → C.Q (.ok .normal t)) →
      C.leads r (vs.reverse ++ st) (Course.withVars (scriptFrame st.length) bs :: rest) mk h' := by
    intro vs r a bs h' hr ha hq
    refine Course.retHalt hr (Course.unprotected_cons rfl hu) rfl ha rfl fun n => ?_
    have hnone : padTo (Course.withVars (scriptFrame st.length) bs).want vs = [] := padTo_zero vs
    rw [hnone]
    exact hq _ rfl
  have hr : Running { im with depth := 0, loop := none, ups := ups } (scriptFrame st.length)
      [scriptFrame st.length] rest st [[]] :=
    ⟨⟨show RET_HALT ≠ 0 by decide, rfl⟩, rfl, rfl, Course.unprotected_cons rfl hu, rfl, fun _ _ hl => by cases hl⟩
  refine (follows H n).block ⟨rfl, rfl⟩ hblock htidy hr
    (fresh_open (by simp [Distinct]) hnames) (Course.sem_mono (sem_bind.mp hy) fun fl h' hfl => ?_)
  cases fl with
  | next env' =>
    intro hns
    have hlen := congrArg List.length hns
    rw [length_addNames, length_scopeNames, length_scopeNames] at hlen
    cases env' with
    | nil => cases hlen
    | cons bs env' =>
      obtain rfl : env' = [] := List.length_eq_zero_iff.mp (by simpa using hlen)
      exact hback [] hcode (.inr rfl) hfl
  | brk env' => exact hfl.elim
  | ret vs => exact fun r a bs hr ha => hback vs hr ha hfl

/-! ### Runs -/

/-- A run ends with that heap and that error, or it gave up. -/
def EndsAs {α : Type} (h : Heap) (e : Option Stop) : EStateM.Result Stop LuaState α → Prop
  | .ok _ t => e = none ∧ t.toHeap = h
  | .error e' t => (e = some e' ∧ t.toHeap = h) ∨ GaveUp e'

/-- A run ends as an evaluation does, or it gave up. -/
def Accords {α : Type} : EStateM.Result Halt Heap (List Value) → EStateM.Result Stop LuaState α → Prop
  | .ok _ h, z => EndsAs h none z
  | .error .unknown _, _ => True
  | .error e h, z => EndsAs h (Course.stopFor e) z

section Runs
variable {α : Type} {h : Heap} {z : EStateM.Result Stop LuaState α} {r : EStateM.Result Halt Heap (List Value)}

theorem Accords.gaveUp {e : Stop} (he : GaveUp e) (t : LuaState) :
    Accords r (.error e t : EStateM.Result Stop LuaState α) := by
  cases r with
  | ok vs h => exact .inr he
  | error e h =>
    cases e with
    | unknown => trivial
    | error e => exact .inr he
    | abort f => exact .inr he

/-- The run of a script's code agrees with the evaluation of the script. -/
theorem script_accords (L : Lib) {prog : ℕ → Option FuncDef} {im : Image} {ups : List ℕ} {first : Block}
    {entry : ℕ} {t : LuaState} (hu : Unprotected t.frames) (hbody : BodyAt im ups first entry)
    (hnames : (Block.declares first).Nodup) (htidy : Block.tidy first) (n : ℕ)
    (H : ∀ Q hQ, Hosts ⟨L, t.fsp + 1, t, Q, hQ⟩ prog im ups) :
    ∃ m, ∀ k, m ≤ k → Accords (runMain L prog n first t.toHeap)
      ((interp L k).runAt entry (t.fsp + 1) { t with frames := scriptFrame t.vsp :: t.frames }) := by
  obtain ⟨r, hr⟩ : ∃ r, r = runMain L prog n first t.toHeap := ⟨_, rfl⟩
  rw [← hr]
  by_cases hun : ∃ h', r = .error .unknown h'
  · obtain ⟨h', rfl⟩ := hun
    exact ⟨0, fun _ _ => trivial⟩
  · have hQ : Tolerant (Accords r) := fun e u he => Accords.gaveUp he u
    refine leads_script (C := ⟨L, t.fsp + 1, t, _, hQ⟩) (h := t.toHeap) (H _ hQ) hbody hnames
      htidy hu (n := n) ?_ t.steps
    unfold Course.sem Wp
    change Post _ _ (runMain L prog n first t.toHeap)
    rw [← hr]
    cases r with
    | ok vs h' => exact fun u hu => ⟨rfl, hu⟩
    | error e h' =>
      cases e with
      | unknown => exact absurd ⟨h', rfl⟩ hun
      | error e => exact fun u hu => .inl ⟨rfl, hu⟩
      | abort f => exact fun u hu => .inl ⟨rfl, hu⟩

end Runs

/-! ### Loading -/

/-- No frame is opened or closed. -/
def SameFrames (m m' : Machine) : Prop := m'.frames = m.frames

section Loading
variable {α : Type}

theorem frames_fault (f : Fault) : Writes SameFrames (fault f : LuaM α) := .throw _

theorem frames_err (e : String) : Writes SameFrames (err e : LuaM α) := .throw _

theorem frames_modify {f : Machine → Machine} (h : ∀ m, (f m).frames = m.frames) :
    Writes SameFrames (modify f : LuaM PUnit) := .modify h

theorem frames_unwrap {x : LuaM α} (hx : Writes SameFrames x) : Writes SameFrames (unwrap x) := by
  refine hx.attempt.bind fun r => ?_
  cases r with
  | ok a => exact .pure a
  | error e => exact frames_fault _

theorem frames_intern (b : List UInt8) : Writes SameFrames (intern b) := by
  refine .get fun m => ?_
  cases m.toHeap.intern b with
  | error e => exact frames_err e m
  | ok p => exact Writes.bind (frames_modify fun m' => rfl) (fun _ => .pure p.1) m

theorem frames_rawSet (tid : ℕ) (k v : Value) : Writes SameFrames (rawSet tid k v) := by
  refine .bind (.get fun m => ?_) fun t => ?_
  · cases m.tbls[tid]? with
    | none => exact frames_fault _ m
    | some t => exact Writes.pure t m
  · cases slotSet t.slots k v with
    | error e => exact frames_err e
    | ok slots => exact frames_modify fun _ => rfl

theorem frames_newTable : Writes SameFrames newTable := by
  refine .get fun m => ?_
  by_cases h : m.tbls.length ≥ MAX_TABLES
  · rw [if_pos h]
    exact frames_err _ m
  · rw [if_neg h]
    exact ⟨rfl, trivial⟩

theorem frames_setGlobal (name : StrRef) (v : Value) : Writes SameFrames (setGlobal name v) :=
  frames_modify fun _ => rfl

theorem frames_addGlobal (name : String) (v : Value) : Writes SameFrames (addGlobal name v) :=
  (frames_unwrap (frames_intern _)).bind fun r => frames_setGlobal r v

theorem frames_addGlobals : ∀ gs : List (String × Value), Writes SameFrames (addGlobals gs)
  | [] => .pure ()
  | (name, v) :: gs => (frames_addGlobal name v).bind fun _ => frames_addGlobals gs

theorem frames_addFields (tid : ℕ) : ∀ fs : List (String × Value), Writes SameFrames (addFields tid fs)
  | [] => .pure ()
  | (_, v) :: fs => (frames_unwrap (frames_intern _)).bind fun r =>
      (frames_unwrap (frames_rawSet tid (.str r) v)).bind fun _ => frames_addFields tid fs

theorem frames_addLibrary (name : String) (fields : List (String × Value)) :
    Writes SameFrames (addLibrary name fields) :=
  (frames_unwrap (frames_intern _)).bind fun r => (frames_unwrap frames_newTable).bind fun tid =>
    (frames_addFields tid fields).bind fun _ => frames_setGlobal r (.table tid)

theorem frames_addDisks : Writes SameFrames addDisks := by
  refine (frames_intern _).attempt.bind fun r => ?_
  cases r with
  | error e => exact .pure ()
  | ok r =>
    refine .get fun m => ?_
    by_cases h : m.fetched.any (·.1 = r)
    · simp only [if_pos h]
      exact frames_modify (fun _ => rfl) m
    · simp only [if_neg h]
      by_cases hroom : m.fetched.length < MAX_FETCHED
      · simp only [if_pos hroom]
        exact frames_modify (fun _ => rfl) m
      · simp only [if_neg hroom]
        exact Writes.pure () m

theorem frames_registerBuiltins : Writes SameFrames registerBuiltins := by
  refine (frames_addGlobals _).bind fun _ => frames_addDisks.bind fun _ => (frames_addGlobals _).bind fun _ => ?_
  refine (frames_unwrap (frames_intern _)).bind fun version => (frames_addGlobal _ _).bind fun _ => ?_
  refine (frames_addGlobals _).bind fun _ => (frames_addLibrary _ _).bind fun _ => ?_
  refine (frames_addLibrary _ _).bind fun _ => (frames_addLibrary _ _).bind fun _ => ?_
  exact (frames_addLibrary _ _).bind fun _ => (frames_addLibrary _ _).bind fun _ => frames_addLibrary _ _

theorem frames_parseScript (src : List UInt8) : Writes SameFrames (parseScript src) := by
  refine .get fun m => ?_
  cases parseScriptWith (parserAt (src.length + 2)) (PState.new src m.toHeap m.toChunks) with
  | ok b p => exact ⟨rfl, trivial⟩
  | error e p => exact ⟨rfl, trivial⟩

end Loading

/-- Behind the built-in globals and the parser there is no frame. -/
theorem no_frames {source : List UInt8} {s s₁ : LuaState} {first : Block}
    (h : Rec.stuck.exec (do registerBuiltins; parseScript source) s.reset = .ok first s₁) : s₁.frames = [] := by
  have hw : Writes SameFrames (do registerBuiltins; parseScript source) :=
    frames_registerBuiltins.bind fun _ => frames_parseScript source
  have hf := hw.exec (R := Rec.stuck) (fun m => rfl) (fun hab hbc => hbc.trans hab) (steps_stuck fun m => rfl) s.reset
  rw [h] at hf
  exact hf

/-- What compiling leaves: the code and the functions. -/
theorem compile_ok {R : Rec} {first : Block} {s s' : LuaState} {entry : ℕ}
    (h : R.exec (compile first) s = .ok entry s') :
    ∃ c, compileScript first { chunks := s.toChunks } = .ok entry c ∧ s' = { s with toChunks := c.chunks } := by
  rw [compile, exec_bind, exec_get, bind_ok (getMachine_apply s)] at h
  cases hc : compileScript first { chunks := s.toChunks } with
  | ok entry' c =>
    simp only [hc] at h
    cases h
    exact ⟨c, rfl, rfl⟩
  | error e c =>
    simp only [hc] at h
    cases h

section Loaded
variable {source : List UInt8} {s s₁ s₂ : LuaState} {first : Block} {entry : ℕ}

/-- A run of a loaded script is the run of its code. -/
theorem run_loaded {R : Rec} (h₁ : R.exec (do registerBuiltins; parseScript source) s.reset = .ok first s₁)
    (h₂ : R.exec (compile first) s₁ = .ok entry s₂) (hfsp : s₂.fsp < MAX_FRAMES) :
    run R source s = (R.runAt entry (s₂.fsp + 1) >>= fun _ => pure ())
      { s₂ with frames := scriptFrame s₂.vsp :: s₂.frames } := by
  simp only [exec_bind] at h₁
  obtain ⟨_, s₀, h₀, h₁⟩ := bind_eq_ok.mp h₁
  have hpush : R.exec (pushFrame (scriptFrame s₂.vsp)) s₂ =
      .ok () { s₂ with frames := scriptFrame s₂.vsp :: s₂.frames } := exec_pushFrame _ _ _ hfsp
  rw [run, bind_ok (modify_apply LuaState.reset s), runScript, exec_bind, bind_ok h₀, exec_bind, bind_ok h₁, exec_bind,
    bind_ok h₂, execScript, exec_bind, exec_get, bind_ok (getMachine_apply s₂), exec_bind]
  change (R.exec (pushFrame (scriptFrame s₂.vsp)) >>= fun _ => _) s₂ = _
  have hentry (t : LuaState) : R.exec (runEntry entry) t = R.runAt entry t.fsp t := by
    rw [runEntry, exec_bind, exec_get, bind_ok (getMachine_apply t), doRunAt, exec_perform]
    rfl
  rw [bind_ok hpush, exec_bind, bind_apply, bind_apply, hentry]
  rfl

theorem EndsAs.discard {α : Type} {h : Heap} {e : Option Stop} {x : Exec α} {t : LuaState} (hx : EndsAs h e (x t)) :
    EndsAs h e ((x >>= fun _ => pure ()) t) := by
  rw [bind_apply]
  cases hr : x t with
  | ok a u =>
    rw [hr] at hx
    exact hx
  | error e' u =>
    rw [hr] at hx
    exact hx

theorem Accords.discard {α : Type} {r : EStateM.Result Halt Heap (List Value)} {x : Exec α} {t : LuaState}
    (hx : Accords r (x t)) : Accords r ((x >>= fun _ => pure ()) t) := by
  cases r with
  | ok vs h => exact EndsAs.discard hx
  | error e h =>
    cases e with
    | unknown => trivial
    | error e => exact EndsAs.discard hx
    | abort f => exact EndsAs.discard hx

end Loaded

/-- A script with a function, a loop and output. -/
def doublingScript : List UInt8 :=
  bytesOf "function double(n) return n + n end for i = 1, 3 do print(double(i)) end"

/-- What the parser makes of it. -/
def doublingParsed : Option (Block × LuaState) :=
  match Rec.stuck.exec (do registerBuiltins; parseScript doublingScript) ({} : LuaState).reset with
  | .ok first s => some (first, s)
  | .error _ _ => none

/-- Its one function. -/
def doublingProg (s : LuaState) (fi : ℕ) : Option FuncDef := if fi = 0 then s.funcs[0]? else none

/-- The output of an evaluation that ends. -/
def outputOf {α : Type} : EStateM.Result Halt Heap α → Option (List UInt8)
  | .ok _ h => some h.out
  | .error _ _ => none

/-- It is plain, prints three lines and compiles. -/
@[reducible] def DoublingWorks (first : Block) (s : LuaState) : Prop :=
  (Plain first s.funcs ∧ 0 ∈ Block.funcs first) ∧
    outputOf (runMain bareLib (doublingProg s) 20 first s.toHeap) = some (bytesOf "2\n4\n6\n") ∧
    (stopOf (Rec.stuck.exec (compile first) s)).isNone = true

theorem doubling_works : doublingParsed.any (fun p => DoublingWorks p.1 p.2) = true := by decide +kernel

end Lua
end Rustrapper

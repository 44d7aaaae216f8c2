/-
# Dead coroutines

A handle is a bare index, and `co_create` gives the first dead slot to a new
coroutine. A coroutine that has returned, failed or been closed stays dead as
long as none is created after it (`dead_stays_dead`): every other event of a run
leaves a dead slot dead. The next `coroutine.create` brings it back to life
under all handles to it (`handle_recycled`).
-/
import Rustrapper.Lua.History

namespace Rustrapper
namespace Lua

/-! ### Deaths in a history -/

/-- The coroutine that ends: it returned, failed, was closed, or did not get to
its run. -/
def Event.victim : Event → Option ℕ
  | .left i .dead _ | .closed i | .aborted i => some i
  | _ => none

/-- The slot that gets a new coroutine, or whose coroutine runs. -/
def Event.revived : Event → Option ℕ
  | .created i | .entered i _ _ => some i
  | _ => none

/-- A handle is made. -/
def Event.creates : Event → Bool
  | .created _ => true
  | _ => false

/-- A coroutine that ended is dead, and stays dead: its status is `dead` from
then on, no resume runs it, and no later coroutine has its handle. -/
structure StaysDead (l : List Moment) : Prop where
  dead : ∀ m ∈ l, ∀ i, m.event.victim = some i → (m.state.cos i).status = .dead
  later : l.Pairwise fun m' m => ∀ i, m.event.victim = some i →
    (m'.state.cos i).status = .dead ∧ m'.event.revived ≠ some i

/-- No coroutine is created after one has ended, and each that is resumed has
room to run. -/
structure Orderly (l : List Moment) : Prop where
  creates : l.Pairwise fun m' m => m'.event.creates = true → m.event.victim = none
  room : ∀ m ∈ l, m.roomy = true

theorem Orderly.tail {m : Moment} {l : List Moment} (h : Orderly (m :: l)) : Orderly l :=
  ⟨h.creates.of_cons, fun m' hm' => h.room m' (List.mem_cons_of_mem m hm')⟩

/-! ### What each event does to the dead -/

/-- In an orderly history those that ended are dead, and always were. -/
def Buried (s : LuaState) (l : List Moment) : Prop :=
  Orderly l → StaysDead l ∧ ∀ m ∈ l, ∀ i, m.event.victim = some i → (s.cos i).status = .dead

/-- A step after which the dead are dead, and no dead coroutine is revived. -/
theorem Buried.step {s s' : LuaState} {l : List Moment} {e : Event} (h : Buried s l)
    (hdead : Orderly (⟨e, s'⟩ :: l) → ∀ m ∈ l, ∀ i, m.event.victim = some i →
      (s.cos i).status = .dead → (s'.cos i).status = .dead ∧ e.revived ≠ some i)
    (hkill : Orderly (⟨e, s'⟩ :: l) → ∀ i, e.victim = some i → (s'.cos i).status = .dead) :
    Buried s' (⟨e, s'⟩ :: l) := by
  intro ho
  obtain ⟨hs, hl⟩ := h ho.tail
  refine ⟨⟨fun m hm i hi => ?_, ?_⟩, fun m hm i hi => ?_⟩
  · rcases List.mem_cons.mp hm with rfl | hm
    · exact hkill ho i hi
    · exact hs.dead m hm i hi
  · exact List.Pairwise.cons (fun m hm i hi => hdead ho m hm i hi (hl m hm i hi)) hs.later
  · rcases List.mem_cons.mp hm with rfl | hm
    · exact hkill ho i hi
    · exact (hdead ho m hm i hi (hl m hm i hi)).1

/-- A step that leaves the records alone. -/
theorem Buried.same {s s' : LuaState} {l : List Moment} {e : Event} (h : Buried s l)
    (hc : s'.cos = s.cos) (hr : e.revived = none) (hk : e.victim = none) :
    Buried s' (⟨e, s'⟩ :: l) := by
  refine h.step (fun _ m _ i _ hi => ⟨?_, ?_⟩) fun _ i hi => ?_
  · rw [hc]
    exact hi
  · rw [hr]
    rintro ⟨⟩
  · rw [hk] at hi
    cases hi

/-- A new coroutine: no other one has ended. -/
theorem Buried.create {s s' : LuaState} {l : List Moment} {i : ℕ} (h : Buried s l) :
    Buried s' (⟨.created i, s'⟩ :: l) := by
  refine h.step (fun ho m hm j hj _ => ?_) fun _ j hj => (by cases hj)
  have hnone := (List.pairwise_cons.mp ho.creates).1 m hm rfl
  rw [hj] at hnone
  cases hnone

theorem Buried.close {s s' : LuaState} {l : List Moment} {i : ℕ} (h : Buried s l)
    (hc : closeCo i s = .ok .suspended s') : Buried s' (⟨.closed i, s'⟩ :: l) := by
  have hs : (s.cos i).status = .suspended := by
    by_contra hn
    rw [closeCo_other hn] at hc
    injection hc with hst
    exact hn hst
  rw [closeCo_suspended hs] at hc
  cases hc
  refine h.step (fun _ m _ j _ hj => ⟨?_, by rintro ⟨⟩⟩) fun _ j hj => ?_
  · have hne : j ≠ i := by
      rintro rfl
      rw [hs] at hj
      cases hj
    change (Function.update s.cos i _ j).status = .dead
    rwa [Function.update_of_ne hne]
  · have hij : i = j := Option.some.inj hj
    change (Function.update s.cos i _ j).status = .dead
    rw [← hij, Function.update_self]

/-- The coroutine that is entered was suspended, so it had not ended. -/
theorem Buried.enter {s s1 : LuaState} {l : List Moment} {id : ℕ} {args : List Value} {c : CoState}
    (h : Buried s l) (hc : s.Consistent) (hs : (s.cos id).status = .suspended)
    (h1 : Entered s s1 id) : Buried s1 (⟨.entered id args c, s1⟩ :: l) := by
  refine h.step (fun _ m _ i _ hi => ?_) fun _ i hi => (by cases hi)
  have hid : i ≠ id := by
    rintro rfl
    rw [hs] at hi
    cases hi
  have hcur : s.current ≠ i + 1 := current_ne hc (by rw [hi]; rintro ⟨⟩)
  refine ⟨?_, fun h => hid (Option.some.inj h).symm⟩
  rw [h1.others i hid hcur]
  exact hi

/-- The coroutine that is left ran, and its resumer waited. -/
theorem Buried.leave {s s1 s2 s3 : LuaState} {l : List Moment} {id : ℕ} {how : Left} {body : Value}
    (h : Buried s2 l) (h1 : Entered s s1 id) (hk : Keeps s1 s2)
    (h3 : SwitchedBack s2 s3 id s.current how) : Buried s3 (⟨.left id how body, s3⟩ :: l) := by
  refine h.step (fun _ m _ i _ hi => ⟨?_, by rintro ⟨⟩⟩) fun _ i hi => ?_
  · have hid : i ≠ id := by
      rintro rfl
      have hb := hk.busy i (by rw [h1.self]; rfl)
      rw [hi] at hb
      cases hb
    have hp : s.current ≠ i + 1 := by
      intro hp
      have hn : (s1.cos i).status = .normal := by
        have := h1.parent (by omega)
        rw [hp, Nat.add_sub_cancel] at this
        rw [this]
      rw [(hk.normal i hn).1, hn] at hi
      cases hi
    rw [h3.others i hid hp]
    exact hi
  · cases how with
    | suspended => cases hi
    | dead =>
      have hid : id = i := Option.some.inj hi
      rw [← hid, h3.self]
      rfl

theorem buried_rule : Rule (fun _ _ _ _ => True) Buried where
  machine m h := h
  yielded ip want h := h.same rfl rfl rfl
  created h hs := h.create
  closed h hc := h.close hc
  fetched ip _ h := h.same rfl rfl rfl
  ended r h := by
    rcases r with e | (ip | r) <;> exact h.same rfl rfl rfl
  started hc h hs h1 _ := h.enter hc hs h1
  continued hc h hs h1 _ _ s2 h2 := by
    refine (h.enter hc hs h1).same ?_ rfl rfl
    rw [h2]
  cramped hc h hs h1 _ hf m ho := by
    have hroom := ho.room _ List.mem_cons_self
    exact absurd (hf.symm.trans hroom) Bool.false_ne_true
  aborted h hm hf ho := by
    have hroom := ho.tail.room _ hm
    exact absurd (hf.symm.trans hroom) Bool.false_ne_true
  left _ _ _ h1 hk h2 _ h3 := h2.leave h1 hk h3

/-! ### Runs -/

/-- **Dead coroutines stay dead**, at every moment of an orderly run and at its end. -/
theorem dead_stays_dead (L : Lib) (n : ℕ) (source : List UInt8) (s : LuaState)
    (h : Orderly (history L n source s)) :
    StaysDead (history L n source s) ∧ ∀ m ∈ history L n source s, ∀ i, m.event.victim = some i →
      ((endState (run (interp L n) source s)).cos i).status = .dead := by
  have hnil : Buried s.reset [] := fun _ =>
    ⟨⟨fun m hm => absurd hm List.not_mem_nil, .nil⟩, fun m hm => absurd hm List.not_mem_nil⟩
  exact buried_rule.run L (fun _ _ _ _ _ _ _ _ _ _ => trivial) n source hnil h

/-- A coroutine that returns, and two looks at it. -/
theorem dead_stays_dead_print :
    let source := bytesOf "a = coroutine.create(print) coroutine.resume(a) print(coroutine.status(a), coroutine.resume(a))"
    StaysDead (history bareLib 60 source {}) ∧ ∀ m ∈ history bareLib 60 source {}, ∀ i,
      m.event.victim = some i → ((endState (run (interp bareLib 60) source {})).cos i).status = .dead := by
  intro source
  exact dead_stays_dead bareLib 60 source {} ⟨by decide +kernel, by decide +kernel⟩

/-- Two coroutines, one after the other: the second gets the handle of the first. -/
def recycling : List UInt8 := bytesOf
  "a = coroutine.create(print) coroutine.resume(a) b = coroutine.create(print) print(a == b, coroutine.status(a))"

/-- The handle of a coroutine that returned is that of the next one. -/
theorem handle_recycled :
    ¬ StaysDead (history bareLib 60 recycling {}) ∧
      (endState (run (interp bareLib 60) recycling {})).out = bytesOf "\ntrue\tsuspended\n" := by
  refine ⟨fun h => ?_, by decide +kernel⟩
  have hl : ((history bareLib 60 recycling {}).map (·.event)).Pairwise fun e' e =>
      e.victim = some 0 → e'.revived ≠ some 0 := by
    rw [List.pairwise_map]
    exact h.later.imp fun hm hk => (hm 0 hk).2
  revert hl
  decide +kernel

end Lua
end Rustrapper

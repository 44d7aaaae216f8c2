/-
# Continuity of coroutines

A resume behind a yield goes on behind the `Call` that yielded, with the frames
and the stack below it as they were, and its arguments as the results
(`resume_continues`). The continuation passes through `yield_ip` and
`yield_want`, which only that `Call` sets. It is another one's where the yield
took another way: the body of the coroutine is `coroutine.yield` itself, or the
`Call` ran a machine that yielded (`stale_continuation`).
-/
import Rustrapper.Lua.Yield

namespace Rustrapper
namespace Lua

/-! ### Yields in a history -/

/-- Coroutine `i` fetches an instruction. -/
def Moment.fetches (i : ℕ) (m : Moment) : Bool :=
  match m.event with
  | .fetched _ => m.state.current = i + 1
  | _ => false

/-- The last instruction that coroutine `i` fetched. -/
def lastFetch (i : ℕ) (l : List Moment) : Option Moment := l.find? (·.fetches i)

/-- The last instruction of coroutine `i` was a `Call` with `want` results; `ip`
is the address behind it, and `t` the thread. -/
def Behind (i : ℕ) (l : List Moment) (t : Thread) (ip want : ℕ) : Prop :=
  ∃ addr sf a, lastFetch i l = some ⟨.fetched addr, sf⟩ ∧ sf.code[addr]? = some (.call a want) ∧
    ip = addr + 1 ∧ t = sf.behindCall a

/-- Coroutine `i` goes on behind its last `Call`, with the arguments as its
results. -/
def GoesOnWith (i : ℕ) (args : List Value) (m : Moment) (older : List Moment) : Prop :=
  ∃ ip want t, m.event = .continued i ip ∧ Behind i older t ip want ∧
    m.state.toThread = t.push (padTo want args)

/-- Every resume of a coroutine that has yielded goes on behind its yield. -/
def Continuous (l : List Moment) : Prop := ∀ m i args c s1 older,
  m :: ⟨.entered i args c, s1⟩ :: older <:+ l → c.started = true → GoesOnWith i args m older

/-- The moments before a yield: its `Call` is fetched, and saves the
continuation. -/
def yieldedDirectly : List Moment → Bool
  | ⟨.uncounted, _⟩ :: ⟨.yielded _ _, _⟩ :: ⟨.fetched _, _⟩ :: _ => true
  | _ => false

/-- Where a coroutine yields, its body is a function of the program, and its
`Call` ran no machine; and every coroutine that is resumed has room to run. -/
def straight : List Moment → Bool
  | [] => true
  | m :: l =>
    (match m.event with
      | .left _ .suspended body => body.isProgram && yieldedDirectly l
      | _ => true) && m.roomy && straight l

theorem straight_roomy : ∀ {l : List Moment}, straight l = true → Roomy l
  | [], _ => fun _ hm => absurd hm List.not_mem_nil
  | m :: l, h => by
    simp only [straight, Bool.and_eq_true] at h
    intro m' hm'
    rcases List.mem_cons.mp hm' with rfl | hm'
    · exact h.1.2
    · exact straight_roomy h.2 m' hm'

theorem straight_tail {m : Moment} {l : List Moment} (h : straight (m :: l) = true) :
    straight l = true := by
  simp only [straight, Bool.and_eq_true] at h
  exact h.2

theorem straight_left {i : ℕ} {body : Value} {s : LuaState} {l : List Moment}
    (h : straight (⟨.left i .suspended body, s⟩ :: l) = true) : body.isProgram = true ∧
      ∃ u ip want y addr sf rest,
        l = ⟨.uncounted, u⟩ :: ⟨.yielded ip want, y⟩ :: ⟨.fetched addr, sf⟩ :: rest := by
  simp only [straight, Bool.and_eq_true] at h
  refine ⟨h.1.1.1, ?_⟩
  have hy := h.1.1.2
  unfold yieldedDirectly at hy
  split at hy
  · exact ⟨_, _, _, _, _, _, _, rfl⟩
  · cases hy

/-! ### What each event does to the waiting coroutines -/

/-- The history goes on with a resume that has not started its coroutine again. -/
def NotEntering (e : Event) : Prop := ∀ i args c, e = .entered i args c → c.started = false

/-- The coroutines that yielded wait behind their last instructions. -/
structure Waiting (s : LuaState) (l : List Moment) : Prop where
  continuous : Continuous l
  head : ∀ m rest, l = m :: rest → NotEntering m.event
  behind : ∀ i, (s.cos i).status = .suspended → (s.cos i).started = true →
    Behind i l (s.threads (i + 1)) (s.cos i).ip (s.cos i).want

/-- In a straight history coroutines that yielded go on as they should. -/
def GoesStraight (s : LuaState) (l : List Moment) : Prop := straight l = true → Waiting s l

/-- Coroutine `i` waits as before. -/
def SameWait (s s' : LuaState) (i : ℕ) : Prop :=
  s'.cos i = s.cos i ∧ s'.threads (i + 1) = s.threads (i + 1)

theorem Continuous.cons {m : Moment} {l : List Moment} (h : Continuous l)
    (hl : ∀ m rest, l = m :: rest → NotEntering m.event) : Continuous (m :: l) := by
  intro m' i args c s1 older hs hc
  rcases List.suffix_cons_iff.mp hs with he | hs
  · injection he with _ he
    have hn := hl _ _ he.symm i args c rfl
    rw [hc] at hn
    cases hn
  · exact h m' i args c s1 older hs hc

theorem lastFetch_cons {i : ℕ} {m : Moment} (l : List Moment) (h : m.fetches i = false) :
    lastFetch i (m :: l) = lastFetch i l := by
  unfold lastFetch
  rw [List.find?_cons, h]

theorem Behind.cons {i : ℕ} {m : Moment} {l : List Moment} {t : Thread} {ip want : ℕ}
    (hb : Behind i l t ip want) (h : m.fetches i = false) : Behind i (m :: l) t ip want := by
  unfold Behind
  rw [lastFetch_cons l h]
  exact hb

/-- A step after which each coroutine that yielded waits as before, or behind
its last instruction. -/
theorem GoesStraight.step {s s' : LuaState} {l : List Moment} {e : Event} (h : GoesStraight s l)
    (he : NotEntering e)
    (hw : straight (⟨e, s'⟩ :: l) = true → ∀ i, (s'.cos i).status = .suspended →
      (s'.cos i).started = true → (SameWait s s' i ∧ (⟨e, s'⟩ : Moment).fetches i = false) ∨
        Behind i (⟨e, s'⟩ :: l) (s'.threads (i + 1)) (s'.cos i).ip (s'.cos i).want) :
    GoesStraight s' (⟨e, s'⟩ :: l) := by
  intro hs
  have hl := h (straight_tail hs)
  refine ⟨hl.continuous.cons hl.head, fun m rest hm => ?_, fun i hi hst => ?_⟩
  · cases hm
    exact he
  · rcases hw hs i hi hst with ⟨⟨hc, ht⟩, hf⟩ | hb
    · rw [hc] at hi hst ⊢
      rw [ht]
      exact (hl.behind i hi hst).cons hf
    · exact hb

/-- A step that leaves the coroutines alone. -/
theorem GoesStraight.same {s s' : LuaState} {l : List Moment} {e : Event} (h : GoesStraight s l)
    (hc : s'.cos = s.cos) (ht : s'.threads = s.threads) (he : NotEntering e)
    (hf : ∀ i, (⟨e, s'⟩ : Moment).fetches i = false) : GoesStraight s' (⟨e, s'⟩ :: l) :=
  h.step he fun _ i _ _ => .inl ⟨⟨by rw [hc], by rw [ht]⟩, hf i⟩

/-- A coroutine that is not suspended fetches an instruction. -/
theorem GoesStraight.fetch {s : LuaState} {l : List Moment} (h : GoesStraight s l)
    (hc : s.Consistent) (ip : ℕ) : GoesStraight s (⟨.fetched ip, s⟩ :: l) := by
  refine h.step (by rintro i args c ⟨⟩) fun _ i hi _ => .inl ⟨⟨rfl, rfl⟩, ?_⟩
  have hne : s.current ≠ i + 1 := current_ne hc (by rw [hi]; rintro ⟨⟩)
  exact decide_eq_false hne

/-- A new coroutine has not yielded. -/
theorem GoesStraight.create {s s' : LuaState} {l : List Moment} {i : ℕ} {f : Value}
    (h : GoesStraight s l) (hs : takeSlot f s = .ok (some i) s') :
    GoesStraight s' (⟨.created i, s'⟩ :: l) := by
  refine h.step (by rintro j args c ⟨⟩) fun _ j hj hst => .inl ⟨?_, rfl⟩
  rcases takeSlot_cases f s with hn | ⟨k, t, ht, -, rfl⟩
  · rw [hn] at hs
    cases hs
  · rw [ht] at hs
    cases hs
    have hne : j ≠ i := by
      rintro rfl
      change (Function.update s.cos j _ j).started = true at hst
      rw [Function.update_self] at hst
      cases hst
    exact ⟨Function.update_of_ne hne _ _, Function.update_of_ne (by omega) _ _⟩

theorem GoesStraight.close {s s' : LuaState} {l : List Moment} {i : ℕ} (h : GoesStraight s l)
    (hc : closeCo i s = .ok .suspended s') : GoesStraight s' (⟨.closed i, s'⟩ :: l) := by
  have hs : (s.cos i).status = .suspended := by
    by_contra hn
    rw [closeCo_other hn] at hc
    injection hc with hst
    exact hn hst
  rw [closeCo_suspended hs] at hc
  cases hc
  refine h.step (by rintro j args c ⟨⟩) fun _ j hj _ => .inl ⟨?_, rfl⟩
  have hne : j ≠ i := by
    rintro rfl
    change (Function.update s.cos j _ j).status = .suspended at hj
    rw [Function.update_self] at hj
    cases hj
  exact ⟨Function.update_of_ne hne _ _, rfl⟩

/-- A switch to a coroutine leaves those alone that wait. -/
theorem sameWait_entered {s s1 : LuaState} {id i : ℕ} (h1 : Entered s s1 id)
    (hi : (s1.cos i).status = .suspended) : SameWait s s1 i := by
  have hid : i ≠ id := by
    rintro rfl
    rw [h1.self] at hi
    cases hi
  have hcur : s.current ≠ i + 1 := by
    intro hc
    have hp := h1.parent (by omega)
    rw [hc, Nat.add_sub_cancel] at hp
    rw [hp] at hi
    cases hi
  exact ⟨h1.others i hid hcur, h1.threads (i + 1) (Ne.symm hcur) (by omega)⟩

/-- A coroutine that yielded goes on. -/
theorem GoesStraight.continue {s s1 s2 : LuaState} {l : List Moment} {id : ℕ} {args : List Value}
    (h : GoesStraight s l) (hs : (s.cos id).status = .suspended) (h1 : Entered s s1 id)
    (hst : (s.cos id).started = true)
    (h2 : s2 = { s1 with vstack := (padTo (s.cos id).want args).reverse ++ s1.vstack }) :
    GoesStraight s2 (⟨.continued id (s.cos id).ip, s2⟩ ::
      ⟨.entered id args (s.entering id), s1⟩ :: l) := by
  intro ho
  have hl := h (straight_tail (straight_tail ho))
  have hent : Continuous (⟨.entered id args (s.entering id), s1⟩ :: l) := hl.continuous.cons hl.head
  refine ⟨fun m i args' c t older hsuf hc => ?_, ?_, fun i hi hi' => ?_⟩
  · rcases List.suffix_cons_iff.mp hsuf with he | hsuf
    · cases he
      have hthread : s1.toThread = s.threads (id + 1) := congrArg Machine.toThread h1.machine
      refine ⟨_, _, _, rfl, hl.behind id hs hst, ?_⟩
      show s2.toThread = _
      rw [h2, ← hthread]
      rfl
    · exact hent m i args' c t older hsuf hc
  · rintro m rest he i args' c hm
    cases he
    cases hm
  · have hw : SameWait s s1 i := sameWait_entered h1 (by rw [h2] at hi; exact hi)
    have hcos : s2.cos i = s.cos i := by rw [h2, ← hw.1]
    have hth : s2.threads (i + 1) = s.threads (i + 1) := by rw [h2, ← hw.2]
    rw [hcos] at hi hi' ⊢
    rw [hth]
    exact ((hl.behind i hi hi').cons rfl).cons rfl

/-- A coroutine is left: when it yields, it waits behind its last `Call`. -/
theorem GoesStraight.leave {s s2 s3 : LuaState} {l : List Moment} {id : ℕ} {how : Left}
    {body : Value} (h : GoesStraight s2 l) (hQ : how = .suspended → Waits id body s2 l)
    (h3 : SwitchedBack s2 s3 id s.current how) :
    GoesStraight s3 (⟨.left id how body, s3⟩ :: l) := by
  refine h.step (by rintro j args c ⟨⟩) fun hstr i hi _ => ?_
  by_cases hid : i = id
  · subst hid
    rw [h3.self] at hi ⊢
    cases how with
    | dead => cases hi
    | suspended =>
      obtain ⟨hbody, u, ip, want, y, addr, sf, rest, hl⟩ := straight_left hstr
      obtain ⟨hcur, a, hcode, hip, ht⟩ := hQ rfl hbody (straight_roomy (straight_tail hstr)) _ _ _ _ _ hl
      refine .inr ⟨addr, sf, a, ?_, hcode, hip, ?_⟩
      · have hf : (⟨.fetched addr, sf⟩ : Moment).fetches i = true := decide_eq_true hcur
        rw [lastFetch_cons _ rfl, hl, lastFetch_cons _ rfl, lastFetch_cons _ rfl, lastFetch, List.find?_cons, hf]
      · rw [h3.saved, ht]
  · have hp : s.current ≠ i + 1 := by
      intro hp
      have hr := h3.resumer (by omega)
      rw [hp, Nat.add_sub_cancel] at hr
      rw [hr] at hi
      cases hi
    exact .inl ⟨⟨h3.others i hid hp, h3.threads (i + 1) (Ne.symm hp) (by omega)⟩, rfl⟩

theorem straight_rule : Rule Waits GoesStraight where
  machine m h := fun hs => ⟨(h hs).continuous, (h hs).head, (h hs).behind⟩
  yielded ip want h := h.same rfl rfl (by rintro i args c ⟨⟩) fun _ => rfl
  created h hs := h.create hs
  closed h hc := h.close hc
  fetched ip hc h := h.fetch hc ip
  ended r h := by
    rcases r with e | (ip | r) <;> exact h.same rfl rfl (by rintro i args c ⟨⟩) fun _ => rfl
  started hc h hs h1 hst := by
    refine h.step ?_ fun _ i hi _ => .inl ⟨sameWait_entered h1 hi, rfl⟩
    rintro i args c he
    cases he
    exact hst
  continued hc h hs h1 hst _ s2 h2 := h.continue hs h1 hst h2
  cramped hc h hs h1 _ hf m ho := by
    have hroom := straight_roomy ho _ List.mem_cons_self
    exact absurd (hf.symm.trans hroom) Bool.false_ne_true
  aborted h hm hf ho := by
    have hroom := straight_roomy (straight_tail ho) _ hm
    exact absurd (hf.symm.trans hroom) Bool.false_ne_true
  left _ _ _ _ _ h2 hQ h3 := h2.leave hQ h3

/-! ### Runs -/

/-- **Continuity of coroutines**: in a straight run every resume behind a yield
goes on behind it. -/
theorem resume_continues (L : Lib) (n : ℕ) (source : List UInt8) (s : LuaState)
    (h : straight (history L n source s) = true) : Continuous (history L n source s) := by
  have hnil : GoesStraight s.reset [] := fun _ => {
    continuous := fun m i args c s1 older hs => absurd hs.length_le (by simp)
    head := fun m rest he => (by cases he)
    behind := fun i hi => (by cases hi) }
  exact (straight_rule.run L (fun n => coBody_waits (logger_yields L n) (logger_homes L n)) n source
    hnil h).continuous

/-- A coroutine that yields its argument and prints that of its second resume. -/
theorem resume_continues_print :
    let source := bytesOf "co = coroutine.create(function(a) local b = coroutine.yield(a) print(b) end) coroutine.resume(co, 1) coroutine.resume(co, 2)"
    Continuous (history bareLib 60 source {}) ∧
      (endState (run (interp bareLib 60) source {})).out = bytesOf "2\n" := by
  intro source
  exact ⟨resume_continues bareLib 60 source {} (by decide +kernel), by decide +kernel⟩

/-- The body of the coroutine is `coroutine.yield`: no `Call` saves its
continuation. -/
def yieldingBody : List UInt8 := bytesOf
  "print(1) co = coroutine.create(coroutine.yield) coroutine.resume(co) print(2) coroutine.resume(co)"

/-- A resume of a coroutine that never fetched an instruction. -/
def goesOnUnfetched : List Moment → Bool
  | _ :: ⟨.entered i _ c, _⟩ :: older => c.started && (lastFetch i older).isNone
  | _ => false

theorem Continuous.fetched {l : List Moment} (h : Continuous l) : l.tails.any goesOnUnfetched = false := by
  rw [List.any_eq_false]
  intro t ht hg
  unfold goesOnUnfetched at hg
  split at hg
  · rename_i m i args c s1 older
    rw [Bool.and_eq_true] at hg
    obtain ⟨ip, want, th, -, ⟨addr, sf, a, hf, -⟩, -⟩ := h m i args c s1 older ((List.mem_tails _ _).mp ht) hg.1
    rw [hf] at hg
    cases hg.2
  · cases hg

/-- The second resume starts the main script again, in the coroutine. -/
theorem stale_continuation : ¬ Continuous (history bareLib 60 yieldingBody {}) ∧
    (endState (run (interp bareLib 60) yieldingBody {})).out = bytesOf "1\n2\n1\n2\n" := by
  refine ⟨fun h => ?_, by decide +kernel⟩
  have hf := h.fetched
  revert hf
  decide +kernel

end Lua
end Rustrapper

/-
# `gsub` and `gmatch`

Both go through the successive matches of a pattern. The iterator of
`string.gmatch` yields once for each, whatever happens between its steps as long
as that leaves it and its strings alone; `string.gsub` with the replacement `%0`
puts each match back. So it returns its subject, with the number of times the
iterator yields (`gsub_gmatch_agree`).
-/
import Rustrapper.Lua.Substitution

namespace Rustrapper
namespace Lua
namespace Pattern

open Search.Successive Effect

/-! ### The matches an iterator yields -/

/-- What happens between the steps of an iterator leaves it and its strings alone. -/
structure Leaves (id : ℕ) (r p : StrRef) (s t : LuaState) : Prop where
  iterator : t.gmatches[id]? = s.gmatches[id]?
  subject : t.strBytes r = s.strBytes r
  pattern : t.strBytes p = s.strBytes p

/-- The iterator yields `n` times before it is exhausted. -/
inductive Enumerates (R : Rec) (id : ℕ) (r p : StrRef) : LuaState → ℕ → Prop
  | exhausted {s t u : LuaState} (hl : Leaves id r p s t) (h : R.exec (gmatchAdvance id) t = .ok 0 u) :
      Enumerates R id r p s 0
  | yields {s t u : LuaState} {n k : ℕ} (hl : Leaves id r p s t) (h : R.exec (gmatchAdvance id) t = .ok (k + 1) u)
      (rest : Enumerates R id r p u n) : Enumerates R id r p s (n + 1)

section Iterator
variable {R : Rec} {id : ℕ} {r p : StrRef} {s t u : LuaState} {subject pattern : List UInt8} {pos n : ℕ}

/-- Interning a string keeps the bytes of a reference, unless it named nothing and the string has some. -/
theorem strBytes_intern {h h' : Heap} {b : List UInt8} {ref : StrRef} (hi : h.intern b = .ok (ref, h'))
    (hb : h.strBytes r = [] → b = []) : h'.strBytes r = h.strBytes r := by
  unfold Heap.intern at hi
  cases hf : h.strregs.find? fun reg => reg.2 = b with
  | some reg =>
    rw [hf] at hi
    cases hi
    rfl
  | none =>
    rw [hf] at hi
    dsimp only at hi
    split_ifs at hi
    cases hi
    unfold Heap.strBytes at hb ⊢
    rw [List.find?_append]
    cases hr : h.strregs.find? fun reg => strref reg.1 reg.2.length = r with
    | some reg => rfl
    | none =>
      rw [hb (by rw [hr]; rfl), Option.none_or, List.find?_singleton]
      split_ifs <;> rfl

/-- The values of a match are empty where the subject or the pattern is. -/
theorem values_empty {m : GmatchMatch} (hm : gmFind subject pattern pos = some m) (he : subject = [] ∨ pattern = []) :
    ∀ v ∈ m.values, (subject.take v.2).drop v.1 = [] := by
  intro v hv
  rcases he with rfl | rfl
  · simp
  · rw [gmFind, if_pos rfl] at hm
    obtain rfl := Option.some.inj hm
    rw [GmatchMatch.values, if_pos rfl, List.mem_singleton] at hv
    simp [hv]

/-- A step that yields moves the iterator behind the match and keeps its strings. -/
theorem advance_yields {st : GmatchState} {k : ℕ} (hst : t.gmatches[id]? = some st)
    (h : R.exec (gmatchAdvance id) t = .ok (k + 1) u) :
    st.done = false ∧ ∃ m, gmFind (t.strBytes st.subject) (t.strBytes st.pattern) st.pos = some m ∧
      u.gmatches[id]? = some (behind st m (t.strBytes st.subject).length) ∧
      u.strBytes st.subject = t.strBytes st.subject ∧ u.strBytes st.pattern = t.strBytes st.pattern := by
  have hid := (List.getElem?_eq_some_iff.mp hst).1
  cases hd : st.done with
  | true =>
    rw [exec_gmatchAdvance_done hst hd] at h
    cases h
  | false =>
    by_cases hfit : FitBuffers (t.strBytes st.subject) (t.strBytes st.pattern)
    swap
    · rw [exec_gmatchAdvance_long hst hd hfit] at h
      cases h
    rw [exec_gmatchAdvance hst hd hfit] at h
    cases hm : gmFind (t.strBytes st.subject) (t.strBytes st.pattern) st.pos with
    | none =>
      rw [hm] at h
      cases h
    | some m =>
      rw [hm, Option.elim_some, exec_bind] at h
      refine ⟨rfl, m, rfl, ?_⟩
      -- what is pushed are slices, empty where a string of the iterator is
      have hstay := Stays.bind (f := fun _ => pure m.values.length) (@stays_pushSlices R
        (fun u => u.gmatches[id]? = some (behind st m (t.strBytes st.subject).length) ∧
          u.strBytes st.subject = t.strBytes st.subject ∧ u.strBytes st.pattern = t.strBytes st.pattern)
        (fun b => t.strBytes st.subject = [] ∨ t.strBytes st.pattern = [] → b = []) (t.strBytes st.subject)
        (fun _ _ _ h => h)
        (fun u b ref h hP hu hb => ⟨(strBytes_intern_le hb st.subject).2 ▸ hu.1,
          (strBytes_intern hb fun he => hP (.inl (hu.2.1 ▸ he))).trans hu.2.1,
          (strBytes_intern hb fun he => hP (.inr (hu.2.2 ▸ he))).trans hu.2.2⟩)
        m.values fun v hv he => values_empty hm he v hv) (fun _ => .pure _)
        { t with gmatches := t.gmatches.set id (behind st m (t.strBytes st.subject).length) }
        ⟨List.getElem?_set_self hid, rfl, rfl⟩
      have hu : endState (EStateM.Result.ok (k + 1) u : EStateM.Result Stop LuaState ℕ) = u := rfl
      rw [← h] at hu
      rw [← hu]
      exact hstay

/-- A step that does not yield finds nothing. -/
theorem advance_exhausted {st : GmatchState} (hst : t.gmatches[id]? = some st) (hd : st.done = false)
    (hfit : FitBuffers (t.strBytes st.subject) (t.strBytes st.pattern)) (h : R.exec (gmatchAdvance id) t = .ok 0 u) :
    gmFind (t.strBytes st.subject) (t.strBytes st.pattern) st.pos = none := by
  rw [exec_gmatchAdvance hst hd hfit] at h
  cases hm : gmFind (t.strBytes st.subject) (t.strBytes st.pattern) st.pos with
  | none => rfl
  | some m =>
    rw [hm, Option.elim_some, exec_bind] at h
    obtain ⟨_, v, -, hlen⟩ := bind_eq_ok.mp h
    rw [exec_pure, pure_apply] at hlen
    injection hlen with hlen
    exact absurd (List.length_eq_zero_iff.mp hlen) (values_ne_nil m)

/-- **The iterator yields once for each of the successive matches.** -/
theorem enumerates_length (hn : Enumerates R id r p s n) (hr : s.strBytes r = subject) (hp : s.strBytes p = pattern)
    (hfit : FitBuffers subject pattern) {st : GmatchState} (hst : s.gmatches[id]? = some st) (hs : st.subject = r)
    (hpt : st.pattern = p) : (st.done = true → n = 0) ∧
      (st.done = false → st.pos ≤ subject.length → n = (allMatches subject pattern st.pos).length) := by
  induction hn generalizing st with
  | @exhausted s t u hl h =>
    refine ⟨fun _ => rfl, fun hd _ => ?_⟩
    have ht := hl.iterator.trans hst
    have hsub : t.strBytes st.subject = subject := by rw [hs, hl.subject, hr]
    have hpat : t.strBytes st.pattern = pattern := by rw [hpt, hl.pattern, hp]
    have hnone := advance_exhausted ht hd (by rwa [hsub, hpat]) h
    rw [hsub, hpat] at hnone
    rw [allMatches, successive_of_none hnone]
    rfl
  | @yields s t u n k hl h rest ih =>
    have ht := hl.iterator.trans hst
    have hsub : t.strBytes st.subject = subject := by rw [hs, hl.subject, hr]
    have hpat : t.strBytes st.pattern = pattern := by rw [hpt, hl.pattern, hp]
    obtain ⟨hd, m, hm, hg, hus, hup⟩ := advance_yields ht h
    rw [hsub, hpat] at hm
    rw [hsub] at hg hus
    rw [hpat] at hup
    rw [hs] at hus
    rw [hpt] at hup
    refine ⟨fun hd' => ?_, fun _ hpos => ?_⟩
    · rw [hd] at hd'
      cases hd'
    obtain ⟨h1, h2, h3⟩ := behind_inside hpos hm
    obtain ⟨hdone, hmore⟩ := ih hus hup hg (h1.trans hs) (h2.trans hpt)
    rw [allMatches_cons hpos hm, List.length_cons]
    -- the iterator is done exactly when the loop has left the subject
    have hresume : (behind st m subject.length).done = true ∧ subject.length < m.resume ∨
        (behind st m subject.length).done = false ∧ (behind st m subject.length).pos = m.resume := by
      unfold behind GmatchMatch.resume
      split_ifs with hlt hend
      · exact .inr ⟨hd, rfl⟩
      · exact .inl ⟨rfl, hend⟩
      · exact .inr ⟨hd, rfl⟩
    rcases hresume with ⟨hb, hgt⟩ | ⟨hb, hat⟩
    · rw [hdone hb, allMatches, successive_of_gt hgt]
      rfl
    · have hle := h3.resolve_left (by simp [hb])
      rw [hmore hb hle, hat]

end Iterator

/-! ### Matches put back -/

section Whole
variable {R : Rec} {L : Lib} {subject pattern : List UInt8} {s t : LuaState} {m : GmatchMatch} {q : StrRef} {n : ℕ}
  {ms : List GmatchMatch} {ws : List Answered}

/-- `%0` is the match. -/
theorem replacement_whole (hq : s.strBytes q = [37, 48]) {a : Option (List UInt8)}
    (h : R.exec (replacement L subject (.str q) m) s = .ok a t) :
    a = some (part subject m.mstart m.mend) ∧ t = s := by
  have hexpand : expandRepl subject m [37, 48] [] =
      slice subject m.mstart m.mend >>= fun src => appendTo REPL_CAP [] src := by
    simp [expandRepl, capRef, isDigit]
  rw [replacement, exec_bind, exec_get, bind_ok (getMachine_apply s), exec_bind] at h
  obtain ⟨b, u, hb, h1⟩ := bind_eq_ok.mp h
  rw [hq, hexpand, exec_bind] at hb
  obtain ⟨src, u1, hslice, h2⟩ := bind_eq_ok.mp hb
  obtain ⟨rfl, rfl⟩ := slice_ok hslice
  obtain ⟨rfl, rfl⟩ := appendTo_ok h2
  cases h1
  exact ⟨rfl, rfl⟩

/-- Asking for `%0` changes nothing. -/
theorem asked_whole (h : Asked R (replacement L subject (.str q)) n ms s ws t) (hq : s.strBytes q = [37, 48]) :
    t = s ∧ ∀ w ∈ ws, w.2 = some (part subject w.1.mstart w.1.mend) := by
  induction h with
  | none => exact ⟨rfl, by simp⟩
  | full => exact ⟨rfl, by simp⟩
  | step hm _ ih =>
    obtain ⟨rfl, rfl⟩ := replacement_whole hq hm
    obtain ⟨rfl, hrest⟩ := ih hq
    refine ⟨rfl, fun w hw => ?_⟩
    rcases List.mem_cons.mp hw with rfl | hw
    · rfl
    · exact hrest w hw

theorem length_replaced {ws : List Answered} (h : ∀ w ∈ ws, w.2.isSome = true) : (replaced ws).length = ws.length := by
  induction ws with
  | nil => rfl
  | cons w ws ih =>
    rw [length_replaced_cons, if_pos (h w (by simp)), ih fun w hw => h w (List.mem_cons_of_mem _ hw), List.length_cons,
      Nat.add_comm]

theorem length_allMatches_le : (allMatches subject pattern 0).length ≤ subject.length + 1 :=
  length_successive_le (fun _ h => resume_gt h) 0

/-- `asUsize` of the default limit. -/
theorem default_limit {bits : ℕ} (hb : bits = 32 ∨ bits = 64) : STR_CAP + 1 ≤ asUsize bits Int64.maxValue := by
  rcases hb with rfl | rfl <;> decide

/-- **`gsub` and `gmatch` go through the same matches**: `string.gsub(s, p, "%0")` returns the string with the
bytes of `s`, and the number of times the iterator `string.gmatch(s, p)` yields. -/
theorem gsub_gmatch_agree (R : Rec) (L : Lib) {bits : ℕ} (hb : bits = 32 ∨ bits = 64) {s s' t u : LuaState}
    {r p q : StrRef} {res : ExecResult} {id n : ℕ} (hq : s.strBytes q = [37, 48])
    (hgsub : R.exec (stringGsubF L bits [.str r, .str p, .str q]) s = .ok res u)
    (hr : s'.strBytes r = s.strBytes r) (hp : s'.strBytes p = s.strBytes p)
    (hgmatch : R.exec (stringGmatchF bits [.str r, .str p]) s' = .ok (.ret (.gmatch id)) t)
    (hn : Enumerates R id r p t n) :
    ∃ ref v, R.exec (intern (s.strBytes r)) s = .ok ref v ∧ res = .ret2 (.str ref) (.num (.ofNat n)) := by
  obtain ⟨maxN, hmax, hfit, hall⟩ := stringGsubF_ok hgsub
  obtain ⟨ws, w, ref, v, hasked, hintern, rfl⟩ := gsubAll_ok hall
  obtain ⟨rfl, hsame⟩ := asked_whole hasked hq
  -- every match is put back
  have hrebuilt : rebuilt (w.strBytes r) 0 ws = w.strBytes r :=
    rebuilt_kept hasked.prefix fun x hx => by rw [hsame x hx]; rfl
  rw [hrebuilt] at hintern
  refine ⟨ref, v, hintern, ?_⟩
  -- and every match is counted
  obtain ⟨hlen, hsome⟩ := hasked.length_eq fun m s a t hm => replacement_text rfl hm
  have hlimit : STR_CAP + 1 ≤ maxN := by
    rw [← Option.some.inj hmax]
    exact default_limit hb
  have hcount : (replaced ws).length = (allMatches (w.strBytes r) (w.strBytes p) 0).length := by
    have hle := @length_allMatches_le (w.strBytes r) (w.strBytes p)
    have hcap := hfit.1
    rw [length_replaced hsome, hlen]
    omega
  -- the iterator starts at the first byte
  by_cases hok : ∃ init, ([] : List Value).length ≤ 1 ∧ initOf [] = some init ∧
      validGmatchPattern (s'.strBytes p) = true ∧ s'.gmatches.length < MAX_GMATCH
  swap
  · obtain ⟨e, he⟩ := @exec_gmatch_error R bits s' r p [] hok
    rw [he] at hgmatch
    cases hgmatch
  obtain ⟨init, hshort, hinit, hvalid, hg⟩ := hok
  rw [exec_gmatch hshort hinit hvalid hg] at hgmatch
  injection hgmatch with hret ht
  injection hret with hret
  injection hret with hid
  obtain rfl : 1 = init := Option.some.inj hinit
  have hzero : startOf bits 1 (s'.strBytes r).length = 0 := by
    unfold startOf
    simp
  rw [hzero] at ht
  subst hid ht
  have hst : (s'.gmatches ++ [GmatchState.mk r p 0 false])[s'.gmatches.length]? = some ⟨r, p, 0, false⟩ := by simp
  obtain ⟨-, hyields⟩ := enumerates_length hn hr hp hfit hst rfl rfl
  rw [hcount, hyields rfl (Nat.zero_le _)]

/-- A state that holds `ab`, `b*` and `%0`. -/
def starStrings : LuaState where
  strregs := [(0, [97, 98]), (2, [98, 42]), (4, [37, 48])]
  strNext := 6

/-- The state behind `n` steps of the iterator of `string.gmatch("ab", "b*")`. -/
def behindSteps : ℕ → LuaState
  | 0 => endState (Rec.stuck.exec (stringGmatchF 64 [.str (strref 0 2), .str (strref 2 2)]) starStrings)
  | n + 1 => endState (Rec.stuck.exec (gmatchAdvance 0) (behindSteps n))

/-- On `ab` with `b*`: an empty match, `b`, and an empty match at the end. -/
theorem gsub_gmatch_agree_star : ∃ ref v,
    Rec.stuck.exec (intern (starStrings.strBytes (strref 0 2))) starStrings = .ok ref v ∧
      (.ret2 (.str (strref 0 2)) (.num 3) : ExecResult) = .ret2 (.str ref) (.num (.ofNat 3)) := by
  have hleaves : ∀ s, Leaves 0 (strref 0 2) (strref 2 2) s s := fun s => ⟨rfl, rfl, rfl⟩
  have hgsub := @of_returned _ (Rec.stuck.exec (stringGsubF bareLib 64
    [.str (strref 0 2), .str (strref 2 2), .str (strref 4 2)]) starStrings)
    (.ret2 (.str (strref 0 2)) (.num 3)) (by decide +kernel)
  have hgmatch := @of_returned _ (Rec.stuck.exec (stringGmatchF 64 [.str (strref 0 2), .str (strref 2 2)]) starStrings)
    (.ret (.gmatch 0)) (by decide +kernel)
  have hstep : ∀ n k, returned (Rec.stuck.exec (gmatchAdvance 0) (behindSteps n)) = some k →
      Rec.stuck.exec (gmatchAdvance 0) (behindSteps n) = .ok k (behindSteps (n + 1)) := fun n k h => of_returned h
  have hn : Enumerates Rec.stuck 0 (strref 0 2) (strref 2 2) (behindSteps 0) 3 :=
    .yields (hleaves _) (hstep 0 1 (by decide +kernel))
      (.yields (hleaves _) (hstep 1 1 (by decide +kernel))
        (.yields (hleaves _) (hstep 2 1 (by decide +kernel)) (.exhausted (hleaves _) (hstep 3 0 (by decide +kernel)))))
  exact gsub_gmatch_agree Rec.stuck bareLib (.inr rfl) (by decide) hgsub rfl rfl hgmatch hn

end Whole

end Pattern
end Lua
end Rustrapper

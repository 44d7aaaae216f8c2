/-
# Substitution

What `string.gsub` computes: it asks the replacement for the successive matches
of the pattern, until as many are replaced as its limit says (`Asked`), and puts
the answers between the bytes it copies (`rebuilt`). The search is started again
behind each match, and a `^` is looked for there, not at the start of the
subject. So an anchored substitution replaces one match at the start only where
no match that follows is given a replacement (`anchored_substitution`).
-/
import Rustrapper.Search.Successive
import Rustrapper.Lua.Ranges
import Rustrapper.Lua.Run

namespace Rustrapper
namespace Lua
namespace Pattern

open Search.Backtrack Search.Successive Effect

/-! ### Successive matches -/

/-- Where the search goes on behind a match. -/
def GmatchMatch.resume (m : GmatchMatch) : ℕ := if m.mend > m.mstart then m.mend else m.mstart + 1

/-- The matches of a pattern from a position on. -/
def allMatches (subject pattern : List UInt8) (pos : ℕ) : List GmatchMatch :=
  successive (gmFind subject pattern) GmatchMatch.resume subject.length pos

/-- The bytes from `i` to `j`. -/
def part (b : List UInt8) (i j : ℕ) : List UInt8 := (b.take j).drop i

section Matches
variable {subject pattern : List UInt8} {pos : ℕ} {m : GmatchMatch}

theorem resume_gt (hm : gmFind subject pattern pos = some m) : pos < m.resume := by
  obtain ⟨h1, h2, -⟩ := (gmFind_within hm).1
  dsimp only at h1 h2
  unfold GmatchMatch.resume
  split_ifs <;> omega

theorem allMatches_cons (hpos : pos ≤ subject.length) (hm : gmFind subject pattern pos = some m) :
    allMatches subject pattern pos = m :: allMatches subject pattern m.resume :=
  successive_cons (fun _ h => resume_gt h) hpos hm

theorem of_allMatches_eq_cons {ms : List GmatchMatch} (h : allMatches subject pattern pos = m :: ms) :
    pos ≤ subject.length ∧ gmFind subject pattern pos = some m ∧ ms = allMatches subject pattern m.resume :=
  of_successive_eq_cons (fun _ h => resume_gt h) h

theorem part_append {i j k : ℕ} (hij : i ≤ j) (hjk : j ≤ k) : part subject i j ++ part subject j k = part subject i k := by
  unfold part
  rw [List.drop_take, List.drop_take, List.drop_take, show k - i = (j - i) + (k - j) by omega, List.take_add,
    List.drop_drop, show i + (j - i) = j by omega]

theorem part_append_drop {i j : ℕ} (hij : i ≤ j) : part subject i j ++ subject.drop j = subject.drop i := by
  unfold part
  rw [List.drop_take, show j = i + (j - i) by omega, ← List.drop_drop, show i + (j - i) - i = j - i by omega,
    List.take_append_drop]

end Matches

/-! ### Asking the replacement -/

/-- A match and what the replacement gives for it. -/
abbrev Answered := GmatchMatch × Option (List UInt8)

/-- The replacement is asked for the matches in order until `n` are replaced. -/
inductive Asked (R : Rec) (ask : GmatchMatch → LuaM (Option (List UInt8))) :
    ℕ → List GmatchMatch → LuaState → List Answered → LuaState → Prop
  | none {n : ℕ} {s : LuaState} : Asked R ask n [] s [] s
  | full {ms : List GmatchMatch} {s : LuaState} : Asked R ask 0 ms s [] s
  | step {n : ℕ} {m : GmatchMatch} {ms : List GmatchMatch} {s t u : LuaState} {a : Option (List UInt8)} {ws : List Answered}
      (h : R.exec (ask m) s = .ok a t) (rest : Asked R ask (if a.isSome then n else n + 1) ms t ws u) :
      Asked R ask (n + 1) (m :: ms) s ((m, a) :: ws) u

/-- The matches that are replaced, and by what. -/
def replaced (ws : List Answered) : List (GmatchMatch × List UInt8) := ws.filterMap fun w => w.2.map fun b => (w.1, b)

/-- The subject from a position on, with the answers in it. -/
def rebuilt (subject : List UInt8) : ℕ → List Answered → List UInt8
  | pos, [] => subject.drop pos
  | pos, (m, a) :: ws =>
    part subject pos m.mstart ++ a.getD (part subject m.mstart m.mend) ++ part subject m.mend m.resume ++
      rebuilt subject m.resume ws

section Spec
variable {R : Rec} {ask : GmatchMatch → LuaM (Option (List UInt8))} {subject pattern : List UInt8} {s t : LuaState}
  {m : GmatchMatch} {maxN : ℕ}

theorem slice_ok {i j : ℕ} {b : List UInt8} (h : R.exec (slice subject i j) s = .ok b t) :
    b = part subject i j ∧ t = s := by
  rw [slice, exec_ite] at h
  split_ifs at h
  · cases h
    exact ⟨rfl, rfl⟩
  · cases h

theorem appendTo_ok {cap : ℕ} {out b out' : List UInt8} (h : R.exec (appendTo cap out b) s = .ok out' t) :
    out' = out ++ b ∧ t = s := by
  rw [appendTo, exec_ite] at h
  split_ifs at h
  · cases h
  · cases h
    exact ⟨rfl, rfl⟩

theorem putAnswer_ok {out out' : List UInt8} {a : Option (List UInt8)}
    (h : R.exec (putAnswer subject m out a) s = .ok out' t) :
    out' = out ++ a.getD (part subject m.mstart m.mend) ∧ t = s := by
  cases a with
  | some b => exact appendTo_ok h
  | none =>
    rw [putAnswer, exec_bind] at h
    obtain ⟨b, u, hb, hout⟩ := bind_eq_ok.mp h
    obtain ⟨rfl, rfl⟩ := slice_ok hb
    exact appendTo_ok hout

/-- **One match of `string.gsub`**: the replacement is asked, and its answer put behind the bytes copied. -/
theorem gsubStep_ok {g g' : Gsub} (hm : m.mstart ≤ m.mend) (h : R.exec (gsubStep ask subject g m) s = .ok g' t) :
    ∃ a, R.exec (ask m) s = .ok a t ∧ g'.pos = m.resume ∧ g'.count = g.count + (if a.isSome then 1 else 0) ∧
      g'.out = g.out ++ (part subject g.pos m.mstart ++ a.getD (part subject m.mstart m.mend) ++
        part subject m.mend m.resume) := by
  rw [gsubStep, exec_bind] at h
  obtain ⟨before, s1, hb, h1⟩ := bind_eq_ok.mp h
  rw [exec_bind] at h1
  obtain ⟨out1, s2, ho1, h2⟩ := bind_eq_ok.mp h1
  rw [exec_bind] at h2
  obtain ⟨a, s3, ha, h3⟩ := bind_eq_ok.mp h2
  rw [exec_bind] at h3
  obtain ⟨out2, s4, ho2, h4⟩ := bind_eq_ok.mp h3
  obtain ⟨rfl, rfl⟩ := slice_ok hb
  obtain ⟨rfl, rfl⟩ := appendTo_ok ho1
  obtain ⟨rfl, rfl⟩ := putAnswer_ok ho2
  have hcount : (if a.isSome then g.count + 1 else g.count) = g.count + (if a.isSome then 1 else 0) := by
    split_ifs <;> rfl
  rw [exec_ite] at h4
  by_cases hlt : m.mend > m.mstart
  · rw [if_pos hlt] at h4
    cases h4
    have hresume : m.resume = m.mend := if_pos hlt
    refine ⟨a, ha, hresume.symm, hcount, ?_⟩
    have hnil : part subject m.mend m.mend = [] := by simp [part]
    rw [hresume, hnil, List.append_nil]
    simp only [List.append_assoc]
  · rw [if_neg hlt, exec_bind] at h4
    obtain ⟨out3, s5, ho3, h5⟩ := bind_eq_ok.mp h4
    obtain ⟨rfl, rfl⟩ := appendTo_ok ho3
    cases h5
    have hresume : m.resume = m.mstart + 1 := if_neg hlt
    have hend : m.mend = m.mstart := by omega
    have hone : (subject.drop m.mstart).take 1 = part subject m.mend m.resume := by
      rw [hresume, hend, part, List.drop_take, Nat.add_sub_cancel_left]
    refine ⟨a, ha, hresume.symm, hcount, ?_⟩
    rw [hone]
    simp only [List.append_assoc]

theorem length_replaced_cons (m : GmatchMatch) (a : Option (List UInt8)) (ws : List Answered) :
    (replaced ((m, a) :: ws)).length = (if a.isSome then 1 else 0) + (replaced ws).length := by
  cases a with
  | none => simp [replaced]
  | some b => simp [replaced, Nat.add_comm]

/-- **The loop of `string.gsub`** asks for the matches in order, and has put the answers between the bytes it copies. -/
theorem gsubLoop_ok : ∀ {fuel : ℕ} {g g' : Gsub} {s t : LuaState}, subject.length + 1 - g.pos < fuel →
    g.count ≤ maxN → R.exec (gsubLoop ask subject pattern maxN fuel g) s = .ok g' t →
      ∃ ws, Asked R ask (maxN - g.count) (allMatches subject pattern g.pos) s ws t ∧
        g'.out ++ subject.drop g'.pos = g.out ++ rebuilt subject g.pos ws ∧ g'.count = g.count + (replaced ws).length
  | 0, _, _, _, _, hf, _, _ => by omega
  | fuel + 1, g, g', s, t, hf, hc, h => by
    rw [gsubLoop, exec_ite] at h
    split_ifs at h with hg
    · cases hm : gmFind subject pattern g.pos with
      | none =>
        rw [hm] at h
        cases h
        have hnil : allMatches subject pattern g.pos = [] := successive_of_none hm
        exact ⟨[], hnil ▸ .none, rfl, rfl⟩
      | some m =>
        rw [hm] at h
        dsimp only at h
        rw [exec_bind] at h
        obtain ⟨g1, s1, hstep, hloop⟩ := bind_eq_ok.mp h
        have hspan := (gmFind_within hm).1.2.1
        obtain ⟨a, ha, hpos, hcount, hout⟩ := gsubStep_ok hspan hstep
        have hgt := resume_gt hm
        have hle : (if a.isSome then 1 else 0) ≤ 1 := by split_ifs <;> omega
        obtain ⟨ws, hasked, hrest, hn⟩ := gsubLoop_ok (by omega) (by omega) hloop
        refine ⟨(m, a) :: ws, ?_, ?_, ?_⟩
        · rw [allMatches_cons hg.2 hm, show maxN - g.count = maxN - g.count - 1 + 1 by omega]
          refine .step ha ?_
          rw [hpos] at hasked
          have hleft : (if a.isSome then maxN - g.count - 1 else maxN - g.count - 1 + 1) = maxN - g1.count := by
            rw [hcount]
            split_ifs <;> omega
          rwa [hleft]
        · rw [hrest, hout, rebuilt, hpos]
          simp only [List.append_assoc]
        · rw [hn, hcount, length_replaced_cons]
          omega
    · cases h
      refine ⟨[], ?_, rfl, rfl⟩
      by_cases hcount : g.count < maxN
      · have hnil : allMatches subject pattern g.pos = [] := successive_of_gt (not_le.mp fun hp => hg ⟨hcount, hp⟩)
        exact hnil ▸ .none
      · rw [show maxN - g.count = 0 by omega]
        exact .full

/-- **`string.gsub` substitutes**: what it returns is rebuilt from the answers. -/
theorem gsubAll_ok {res : ExecResult} (h : R.exec (gsubAll ask subject pattern maxN) s = .ok res t) :
    ∃ ws u ref v, Asked R ask maxN (allMatches subject pattern 0) s ws u ∧
      R.exec (intern (rebuilt subject 0 ws)) u = .ok ref v ∧ res = .ret2 (.str ref) (.num (.ofNat (replaced ws).length)) := by
  rw [gsubAll, exec_bind] at h
  obtain ⟨g, s1, hloop, h1⟩ := bind_eq_ok.mp h
  rw [exec_bind] at h1
  obtain ⟨out, s2, hout, h2⟩ := bind_eq_ok.mp h1
  rw [exec_bind] at h2
  obtain ⟨ref, v, hintern, h3⟩ := bind_eq_ok.mp h2
  rw [exec_bind] at h3
  obtain ⟨_, s4, -, h4⟩ := bind_eq_ok.mp h3
  rw [exec_bind] at h4
  obtain ⟨_, s5, -, h5⟩ := bind_eq_ok.mp h4
  obtain ⟨rfl, rfl⟩ := appendTo_ok hout
  obtain ⟨ws, hasked, hrebuilt, hcount⟩ := gsubLoop_ok (g := ⟨0, 0, []⟩) (by dsimp only; omega) (Nat.zero_le _) hloop
  rw [hrebuilt] at hintern
  rw [Nat.zero_add] at hcount
  cases h5
  rw [hcount]
  exact ⟨ws, _, ref, v, hasked, hintern, rfl⟩

end Spec

/-! ### What is kept -/

section Kept
variable {R : Rec} {ask : GmatchMatch → LuaM (Option (List UInt8))} {subject pattern : List UInt8} {s t : LuaState}
  {m : GmatchMatch} {pos n : ℕ} {ms : List GmatchMatch} {ws : List Answered}

/-- The matches the replacement is asked for are the first ones. -/
theorem Asked.prefix (h : Asked R ask n ms s ws t) : ws.map Prod.fst <+: ms := by
  induction h with
  | none => exact List.nil_prefix
  | full => exact List.nil_prefix
  | step _ _ ih => exact List.cons_prefix_cons.mpr ⟨rfl, ih⟩

/-- Where the replacement gives something for every match, it is asked until the limit is reached. -/
theorem Asked.length_eq (hask : ∀ m s a t, R.exec (ask m) s = .ok a t → a.isSome = true) (h : Asked R ask n ms s ws t) :
    ws.length = min n ms.length ∧ ∀ w ∈ ws, w.2.isSome = true := by
  induction h with
  | none => simp
  | full => simp
  | step hm _ ih =>
    have ha := hask _ _ _ _ hm
    rw [if_pos ha] at ih
    refine ⟨by rw [List.length_cons, List.length_cons, ih.1]; omega, fun w hw => ?_⟩
    rcases List.mem_cons.mp hw with rfl | hw
    · exact ha
    · exact ih.2 w hw

theorem mem_allMatches (h : m ∈ allMatches subject pattern pos) : pos ≤ m.mstart := by
  generalize hms : allMatches subject pattern pos = ms at h
  induction ms generalizing pos with
  | nil => cases h
  | cons m' ms ih =>
    obtain ⟨-, hm, hrest⟩ := of_allMatches_eq_cons hms
    rcases List.mem_cons.mp h with rfl | h
    · exact (gmFind_within hm).1.1
    · exact (resume_gt hm).le.trans (ih hrest.symm h)

/-- Matches that are kept, or replaced by what they match, leave the subject as it is. -/
theorem rebuilt_kept (hw : ws.map Prod.fst <+: allMatches subject pattern pos)
    (h : ∀ w ∈ ws, w.2.getD (part subject w.1.mstart w.1.mend) = part subject w.1.mstart w.1.mend) :
    rebuilt subject pos ws = subject.drop pos := by
  induction ws generalizing pos with
  | nil => rfl
  | cons w ws ih =>
    obtain ⟨m, a⟩ := w
    rw [List.map_cons] at hw
    obtain ⟨rest, hrest⟩ := hw
    obtain ⟨-, hm, hms⟩ := of_allMatches_eq_cons hrest.symm
    obtain ⟨h1, h2, -⟩ := (gmFind_within hm).1
    dsimp only at h1 h2
    have h3 : m.mend ≤ m.resume := by
      unfold GmatchMatch.resume
      split_ifs <;> omega
    rw [rebuilt, ih ⟨rest, hms⟩ fun w hw => h w (List.mem_cons_of_mem _ hw), h (m, a) (by simp), part_append h1 h2,
      part_append (h1.trans h2) h3, part_append_drop (h1.trans (h2.trans h3))]

end Kept

/-! ### Calls -/

/-- The limit of a call of `string.gsub`. -/
def limitOf (bits : ℕ) : List Value → Option ℕ
  | [] => some (asUsize bits Int64.maxValue)
  | v :: _ => (wholeOf v).map fun n => if n < 0 then 0 else asUsize bits n

section Calls
variable {R : Rec} {L : Lib} {bits : ℕ} {s t : LuaState} {r p : StrRef} {repl : Value} {more : List Value}

theorem limitArg_ok {n : ℕ} (h : R.exec (limitArg bits more) s = .ok n t) : limitOf bits more = some n ∧ t = s := by
  cases more with
  | nil =>
    cases h
    exact ⟨rfl, rfl⟩
  | cons v more =>
    rw [limitArg, exec_bind] at h
    obtain ⟨k, u, hk, h1⟩ := bind_eq_ok.mp h
    unfold toIntegerForFormat at hk
    cases hv : wholeOf v with
    | none =>
      rw [hv] at hk
      cases hk
    | some k' =>
      rw [hv] at hk
      cases hk
      cases h1
      exact ⟨by rw [limitOf, hv]; rfl, rfl⟩

/-- A call of `string.gsub` that returns has checked its arguments. -/
theorem stringGsubF_ok {res : ExecResult}
    (h : R.exec (stringGsubF L bits (.str r :: .str p :: repl :: more)) s = .ok res t) :
    ∃ maxN, limitOf bits more = some maxN ∧ FitBuffers (s.strBytes r) (s.strBytes p) ∧
      R.exec (gsubAll (replacement L (s.strBytes r) repl) (s.strBytes r) (s.strBytes p) maxN) s = .ok res t := by
  rw [stringGsubF, exec_ite] at h
  split_ifs at h with hlen
  · cases h
  rw [exec_bind, exec_get, bind_ok (getMachine_apply s), exec_bind] at h
  obtain ⟨maxN, u, hlimit, h1⟩ := bind_eq_ok.mp h
  obtain ⟨hmax, rfl⟩ := limitArg_ok hlimit
  rw [exec_ite] at h1
  split_ifs at h1 with hv hfit
  · cases h1
  · cases h1
  exact ⟨maxN, hmax, ⟨by omega, by omega⟩, h1⟩

/-- A string or a number replaces every match. -/
theorem replacement_text (hr : isText repl = true) {subject : List UInt8} {m : GmatchMatch} {a : Option (List UInt8)}
    (h : R.exec (replacement L subject repl m) s = .ok a t) : a.isSome = true := by
  have hbytes : ∀ v, isText v = true → R.exec (replBytes L v) s = .ok a t → a.isSome = true := fun v hv h => by
    have hdo : replBytes L v = (do
        let r ← valueToString L v
        let b ← appendTo REPL_CAP [] ((← get).strBytes r)
        pure (some b)) := by
      cases v <;> first | rfl | cases hv
    rw [hdo, exec_bind] at h
    obtain ⟨_, _, -, h1⟩ := bind_eq_ok.mp h
    rw [exec_bind] at h1
    obtain ⟨_, _, -, h2⟩ := bind_eq_ok.mp h1
    rw [exec_bind] at h2
    obtain ⟨_, _, -, h3⟩ := bind_eq_ok.mp h2
    cases h3
    rfl
  cases repl with
  | str q =>
    rw [replacement, exec_bind] at h
    obtain ⟨_, _, -, h1⟩ := bind_eq_ok.mp h
    rw [exec_bind] at h1
    obtain ⟨_, _, -, h2⟩ := bind_eq_ok.mp h1
    cases h2
    rfl
  | num n => exact hbytes (.num n) rfl h
  | float f => exact hbytes (.float f) rfl h
  | _ => cases hr

/-! ### Anchored substitution -/

/-- One match at most is replaced, and only one at the first byte; all bytes behind it are copied. -/
def ReplacesFirst (subject : List UInt8) (ws : List Answered) (out : List UInt8) : Prop :=
  replaced ws = [] ∧ out = subject ∨
    ∃ m b, replaced ws = [(m, b)] ∧ m.mstart = 0 ∧ out = b ++ subject.drop m.mend

theorem anchored_mstart {subject pattern : List UInt8} {pos : ℕ} {m : GmatchMatch} (ha : anchored pattern = true)
    (h : gmFind subject pattern pos = some m) : m.mstart = pos := by
  obtain ⟨i, hi, hat⟩ := gmFind_eq_some_iff.mp h
  rw [gmAt_eq_trace] at hat
  obtain ⟨e, -, rfl⟩ := Option.map_eq_some_iff.mp hat
  rcases hi.allowed.2 with h | ⟨h, -⟩
  · exact h
  · simp [ha] at h

theorem replaced_eq_nil {ws : List Answered} (h : ∀ w ∈ ws, w.2 = none) : replaced ws = [] := by
  rw [replaced, List.filterMap_eq_nil_iff]
  intro w hw
  rw [h w hw]
  rfl

theorem mem_replaced {ws : List Answered} {m : GmatchMatch} {b : List UInt8} (h : (m, some b) ∈ ws) :
    (m, b) ∈ replaced ws := List.mem_filterMap.mpr ⟨_, h, rfl⟩

/-- Only the first match is replaced exactly when nothing is given for those that follow. -/
theorem replacesFirst_iff {subject pattern : List UInt8} {ws : List Answered} (ha : anchored pattern = true)
    (hw : ws.map Prod.fst <+: allMatches subject pattern 0) :
    ReplacesFirst subject ws (rebuilt subject 0 ws) ↔ ∀ w ∈ ws.tail, w.2 = none := by
  cases ws with
  | nil => exact iff_of_true (.inl ⟨rfl, rfl⟩) (by simp)
  | cons w ws =>
    obtain ⟨m, a⟩ := w
    have hfirst := hw
    rw [List.map_cons] at hw
    obtain ⟨rest, hrest⟩ := hw
    dsimp only [List.cons_append] at hrest
    obtain ⟨-, hm, hms⟩ := of_allMatches_eq_cons hrest.symm
    have hstart := anchored_mstart ha hm
    have hgt := resume_gt hm
    have htail : ws.map Prod.fst <+: allMatches subject pattern m.resume := ⟨rest, hms⟩
    rw [List.tail_cons]
    constructor
    · -- a match that follows begins behind the first byte
      intro h w hwm
      obtain ⟨m', a'⟩ := w
      cases a' with
      | none => rfl
      | some b' =>
        have hin := mem_replaced (List.mem_cons_of_mem (m, a) hwm)
        have hlater := mem_allMatches (htail.subset (List.mem_map_of_mem hwm))
        dsimp only at hlater
        rcases h with ⟨hnil, -⟩ | ⟨m₀, b, hone, hzero, -⟩
        · rw [hnil] at hin
          cases hin
        · rw [hone, List.mem_singleton] at hin
          obtain ⟨rfl, -⟩ := Prod.mk.inj hin
          omega
    · intro h
      have hnone : replaced ws = [] := replaced_eq_nil h
      have hkept : ∀ w ∈ ws, w.2.getD (part subject w.1.mstart w.1.mend) = part subject w.1.mstart w.1.mend :=
        fun w hwm => by rw [h w hwm]; rfl
      cases a with
      | none =>
        refine .inl ⟨?_, ?_⟩
        · rw [replaced, List.filterMap_cons, Option.map_none]
          exact hnone
        · refine (rebuilt_kept hfirst fun w hwm => ?_).trans List.drop_zero
          rcases List.mem_cons.mp hwm with rfl | hwm
          · rfl
          · exact hkept w hwm
      | some b =>
        refine .inr ⟨m, b, ?_, hstart, ?_⟩
        · rw [replaced, List.filterMap_cons, Option.map_some]
          exact congrArg _ hnone
        · have hend : m.mend ≤ m.resume := by
            unfold GmatchMatch.resume
            have := (gmFind_within hm).1.2.1
            dsimp only at this
            split_ifs <;> omega
          have hempty : part subject 0 m.mstart = [] := by simp [hstart, part]
          rw [rebuilt, rebuilt_kept htail hkept, hempty, List.nil_append, Option.getD_some, List.append_assoc,
            part_append_drop hend]

/-- **An anchored substitution** replaces only a match at the first byte exactly when the replacement gives
nothing for the matches that follow; a string or a number, exactly when none follows or one is the limit. -/
theorem anchored_substitution (R : Rec) (L : Lib) (bits : ℕ) {s t : LuaState} {r p : StrRef} {repl : Value}
    {more : List Value} {res : ExecResult} (ha : anchored (s.strBytes p) = true)
    (h : R.exec (stringGsubF L bits (.str r :: .str p :: repl :: more)) s = .ok res t) :
    ∃ maxN ws u ref v, limitOf bits more = some maxN ∧
      Asked R (replacement L (s.strBytes r) repl) maxN (allMatches (s.strBytes r) (s.strBytes p) 0) s ws u ∧
      R.exec (intern (rebuilt (s.strBytes r) 0 ws)) u = .ok ref v ∧
      res = .ret2 (.str ref) (.num (.ofNat (replaced ws).length)) ∧
      (ReplacesFirst (s.strBytes r) ws (rebuilt (s.strBytes r) 0 ws) ↔ ∀ w ∈ ws.tail, w.2 = none) ∧
      (isText repl = true → (ReplacesFirst (s.strBytes r) ws (rebuilt (s.strBytes r) 0 ws) ↔
        maxN ≤ 1 ∨ (allMatches (s.strBytes r) (s.strBytes p) 0).length ≤ 1)) := by
  obtain ⟨maxN, hmax, -, hall⟩ := stringGsubF_ok h
  obtain ⟨ws, u, ref, v, hasked, hintern, hres⟩ := gsubAll_ok hall
  have hiff := replacesFirst_iff ha hasked.prefix
  refine ⟨maxN, ws, u, ref, v, hmax, hasked, hintern, hres, hiff, fun htext => hiff.trans ?_⟩
  obtain ⟨hlen, hsome⟩ := hasked.length_eq fun m s a t hm => replacement_text htext hm
  constructor
  · intro hnone
    have htail : ws.tail = [] := List.eq_nil_iff_forall_not_mem.mpr fun w hw => by
      have := hsome w (List.mem_of_mem_tail hw)
      rw [hnone w hw] at this
      cases this
    have := congrArg List.length htail
    rw [List.length_tail, List.length_nil] at this
    omega
  · intro hle w hw
    have : ws.tail.length = 0 := by
      rw [List.length_tail]
      omega
    rw [List.length_eq_zero_iff.mp this] at hw
    cases hw

/-! ### The anchor at every restart -/

/-- The value of a run that has one. -/
def returned {α : Type} : EStateM.Result Stop LuaState α → Option α
  | .ok a _ => some a
  | .error _ _ => none

theorem of_returned {α : Type} {x : EStateM.Result Stop LuaState α} {a : α} (h : returned x = some a) :
    x = .ok a (endState x) := by
  cases x with
  | ok b t =>
    cases h
    rfl
  | error e t => cases h

/-- A state that holds `aaa`, `^a` and `b`. -/
def anchoredStrings : LuaState where
  strregs := [(0, [97, 97, 97]), (3, [94, 97]), (5, [98])]
  strNext := 6

/-- `string.gsub("aaa", "^a", "b")` replaces three matches. -/
theorem every_restart_replaced : ¬ ∀ (s t : LuaState) (r p q ref : StrRef) (n : Int64),
    anchored (s.strBytes p) = true →
      Rec.stuck.exec (stringGsubF bareLib 64 [.str r, .str p, .str q]) s = .ok (.ret2 (.str ref) (.num n)) t → n ≤ 1 := by
  intro h
  have hrun := @of_returned _ (Rec.stuck.exec (stringGsubF bareLib 64
    [.str (strref 0 3), .str (strref 3 2), .str (strref 5 1)]) anchoredStrings)
    (.ret2 (.str (strref 6 3)) (.num 3)) (by decide +kernel)
  have hle := h _ _ _ _ _ _ _ (by decide) hrun
  revert hle
  decide

/-- On that call. -/
theorem anchored_substitution_letters : ∃ res t,
    Rec.stuck.exec (stringGsubF bareLib 64 [.str (strref 0 3), .str (strref 3 2), .str (strref 5 1)]) anchoredStrings =
      .ok res t ∧
    ∃ maxN ws u ref v, limitOf 64 [] = some maxN ∧
      Asked Rec.stuck (replacement bareLib (anchoredStrings.strBytes (strref 0 3)) (.str (strref 5 1))) maxN
        (allMatches (anchoredStrings.strBytes (strref 0 3)) (anchoredStrings.strBytes (strref 3 2)) 0)
        anchoredStrings ws u ∧
      Rec.stuck.exec (intern (rebuilt (anchoredStrings.strBytes (strref 0 3)) 0 ws)) u = .ok ref v ∧
      res = .ret2 (.str ref) (.num (.ofNat (replaced ws).length)) ∧
      (ReplacesFirst (anchoredStrings.strBytes (strref 0 3)) ws (rebuilt (anchoredStrings.strBytes (strref 0 3)) 0 ws) ↔
        ∀ w ∈ ws.tail, w.2 = none) ∧
      (isText (.str (strref 5 1)) = true →
        (ReplacesFirst (anchoredStrings.strBytes (strref 0 3)) ws (rebuilt (anchoredStrings.strBytes (strref 0 3)) 0 ws) ↔
          maxN ≤ 1 ∨ (allMatches (anchoredStrings.strBytes (strref 0 3)) (anchoredStrings.strBytes (strref 3 2)) 0).length ≤ 1)) := by
  have hrun := @of_returned _ (Rec.stuck.exec (stringGsubF bareLib 64
    [.str (strref 0 3), .str (strref 3 2), .str (strref 5 1)]) anchoredStrings)
    (.ret2 (.str (strref 6 3)) (.num 3)) (by decide +kernel)
  exact ⟨_, _, hrun, anchored_substitution Rec.stuck bareLib 64 (by decide) hrun⟩

end Calls

end Pattern
end Lua
end Rustrapper

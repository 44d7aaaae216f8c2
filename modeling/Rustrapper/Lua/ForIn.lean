/-
# Traversals of a table that loses entries

The generic `for` over a table: `ForInPrep`, `ForInNext` and `ForInAdvance`
around a body that takes entries out of the table and adds none. The loop is a
cursor on the keys (`Store/Cursor.lean`): `ForInAdvance` keeps its position when
another key stands there, as one that moved down when the current entry was
removed. No entry is visited twice. Where an iteration removes two entries of
those visited so far, itself included, entries behind the cursor move past it
and are missed; where every iteration is calm, none is
(`traversal_under_removal`).
-/
import Rustrapper.Lua.Slots
import Rustrapper.Store.Cursor

namespace Rustrapper
namespace Lua

open Store

/-! ### The loop's instructions -/

/-- The keys of a table, in the order of its slots. -/
def keysAt (s : Machine) (tid : ℕ) : List Value := ((s.tbls[tid]?).map fun t => Assoc.keys t.slots).getD []

/-- Equal keys are the same, and none occurs twice. -/
def DistinctKeys (ks : List Value) : Prop := ks.Nodup ∧ ∀ a ∈ ks, ∀ b ∈ ks, valEq a b = true ↔ a = b

/-- A control value that counts `n`. -/
def Counts (n : ℕ) (v : Value) : Prop := ∃ c : Int64, v = .num c ∧ c.toInt = n

/-- The frame on top is that of a loop over table `tid`, at position `i`. -/
def AtPos (tid i : ℕ) (s : Machine) : Prop :=
  ∃ f fs, s.frames = f :: fs ∧ Counts tid f.ctrl0 ∧ Counts i f.ctrl1

/-- The same, while the body runs for key `k`. -/
def AtKey (tid i : ℕ) (k : Value) (s : Machine) : Prop :=
  ∃ f fs, s.frames = f :: fs ∧ Counts tid f.ctrl0 ∧ Counts i f.ctrl1 ∧ f.ctrl2 = k

theorem counts_ofNat {n : ℕ} (h : n < 2 ^ 63) : Counts n (.num (Int64.ofNat n)) :=
  ⟨_, rfl, Int64.toInt_ofNat_of_lt h⟩

theorem Counts.unique {n m : ℕ} {v : Value} (h : Counts n v) (h' : Counts m v) : n = m := by
  obtain ⟨c, rfl, hc⟩ := h
  obtain ⟨d, hd, hd'⟩ := h'
  obtain rfl := Value.num.inj hd
  exact Int.ofNat_inj.mp (hc.symm.trans hd')

theorem keysAt_eq {s : Machine} {tid : ℕ} {t : TableRec} (ht : s.tbls[tid]? = some t) :
    keysAt s tid = Assoc.keys t.slots := by rw [keysAt, ht]; rfl

theorem getElem?_keys (slots : List (Value × Value)) (i : ℕ) :
    (Assoc.keys slots)[i]? = slots[i]?.map Prod.fst := List.getElem?_map

section Instructions
variable {R : Rec} {L : Lib} {s : LuaState} {tid i ip a : ℕ}

theorem exec_forInCtrl (R : Rec) (s : LuaState) {n : ℕ} {v : Value} (h : Counts n v) :
    R.exec (forInCtrl v) s = .ok n s := by
  obtain ⟨c, rfl, hc⟩ := h
  rw [forInCtrl, hc]
  rfl

theorem pushVals_run {vs : List Value} {w : LuaState} (h : R.exec (pushVals vs) s = .ok () w) :
    w = { s with vstack := vs.reverse ++ s.vstack } := by
  rcases pushVals_cases R s vs with ⟨-, he⟩ | ⟨-, he⟩
  · rw [he] at h
    cases h
    rfl
  · rw [he] at h
    cases h

theorem topFrame_run {f : Frame} {w : LuaState} (h : R.exec topFrame s = .ok f w) :
    ∃ fs, s.frames = f :: fs ∧ w = s := by
  cases hf : s.frames with
  | nil =>
    rw [topFrame, exec_bind, exec_get, bind_apply, getMachine_apply] at h
    dsimp only at h
    rw [hf] at h
    cases h
  | cons g fs =>
    rw [exec_topFrame R s hf] at h
    cases h
    exact ⟨fs, rfl, rfl⟩

/-- `ForInNext` leaves the loop behind the last slot, and else hands over the key and the value of
the slot at its position. -/
theorem forInNext_ok {n : Next} {t : LuaState} (hs : AtPos tid i s.toMachine)
    (h : R.exec (execInstr L ip (.forInNext a)) s = .ok n t) :
    ((keysAt s.toMachine tid)[i]? = none ∧ n = .goto a ∧ t = s) ∨
      ∃ k v, (keysAt s.toMachine tid)[i]? = some k ∧ n = .goto ip ∧ t.vstack = v :: k :: s.vstack ∧
        keysAt t.toMachine tid = keysAt s.toMachine tid ∧ AtKey tid i k t.toMachine := by
  obtain ⟨f, fs, hs, h0, h1⟩ := hs
  obtain ⟨c, hc, -⟩ := id h0
  rw [execInstr, execForInNext, exec_bind, bind_ok (exec_topFrame R s hs), hc] at h
  dsimp only at h
  rw [← hc, exec_bind, bind_ok (exec_forInCtrl R s h0), exec_bind, bind_ok (exec_forInCtrl R s h1),
    exec_bind, bind_eq_ok] at h
  obtain ⟨t', w, htable, h⟩ := h
  obtain ⟨ht, rfl⟩ := tableRec_ok R htable
  rw [keysAt_eq ht, getElem?_keys]
  cases hslot : t'.slots[i]? with
  | none =>
    rw [hslot] at h
    cases h
    exact .inl ⟨rfl, rfl, rfl⟩
  | some p =>
    rw [hslot] at h
    dsimp only at h
    rw [exec_bind, bind_ok (exec_setTopFrame R _ hs), exec_bind, bind_eq_ok] at h
    obtain ⟨_, w, hpush, hend⟩ := h
    obtain rfl := pushVals_run hpush
    cases hend
    exact .inr ⟨p.1, p.2, rfl, rfl, rfl, keysAt_eq ht, _, fs, rfl, h0, h1, rfl⟩

/-- `ForInAdvance` moves the cursor. -/
theorem forInAdvance_ok {n : Next} {k : Value} {w : LuaState} (hs : AtKey tid i k s.toMachine)
    (hi : i + 1 < 2 ^ 63) (hk : ∀ j ∈ keysAt s.toMachine tid, valEq j k = true ↔ j = k)
    (h : R.exec (execInstr L ip (.forInAdvance a)) s = .ok n w) :
    n = .goto a ∧ keysAt w.toMachine tid = keysAt s.toMachine tid ∧
      AtPos tid (Cursor.advance i k (keysAt s.toMachine tid)) w.toMachine := by
  obtain ⟨f, fs, hs, h0, h1, h2⟩ := hs
  obtain ⟨c, hc, -⟩ := id h0
  rw [execInstr, execForInAdvance, exec_bind, bind_ok (exec_topFrame R s hs), hc] at h
  dsimp only at h
  rw [← hc, exec_bind, bind_ok (exec_forInCtrl R s h0), exec_bind, bind_ok (exec_forInCtrl R s h1),
    exec_bind, bind_eq_ok] at h
  obtain ⟨t', u, htable, h⟩ := h
  obtain ⟨ht, rfl⟩ := tableRec_ok R htable
  rw [keysAt_eq ht] at hk ⊢
  cases hslot : t'.slots[i]? with
  | none =>
    have hget : (Assoc.keys t'.slots)[i]? = none := by rw [getElem?_keys, hslot]; rfl
    rw [hslot] at h
    cases h
    rw [Cursor.advance_of_none hget]
    exact ⟨rfl, keysAt_eq ht, f, fs, hs, h0, h1⟩
  | some p =>
    have hget : (Assoc.keys t'.slots)[i]? = some p.1 := by rw [getElem?_keys, hslot]; rfl
    have hp := hk p.1 (List.mem_of_getElem? hget)
    rw [hslot] at h
    dsimp only at h
    rw [Cursor.advance_of_some hget]
    by_cases he : p.1 = k
    · rw [if_pos he]
      rw [h2, if_pos (hp.mpr he), exec_bind, bind_ok (exec_setTopFrame R _ hs)] at h
      cases h
      exact ⟨rfl, keysAt_eq ht, _, fs, rfl, h0, counts_ofNat hi⟩
    · rw [if_neg he]
      rw [h2, if_neg (fun hv => he (hp.mp hv))] at h
      cases h
      exact ⟨rfl, keysAt_eq ht, f, fs, hs, h0, h1⟩

end Instructions

/-! ### Runs of the loop -/

/-- The body went from `s` to the `ForInAdvance` in `s'`: the loop's frame is on top again with its
control values, and the table has lost keys, if anything. -/
def Removes (tid : ℕ) (s s' : LuaState) : Prop :=
  (∃ f fs f' fs', s.frames = f :: fs ∧ s'.frames = f' :: fs' ∧ f'.ctrl0 = f.ctrl0 ∧
    f'.ctrl1 = f.ctrl1 ∧ f'.ctrl2 = f.ctrl2) ∧
    (keysAt s'.toMachine tid).Sublist (keysAt s.toMachine tid)

theorem Removes.atKey {tid i : ℕ} {k : Value} {s s' : LuaState} (h : Removes tid s s')
    (hs : AtKey tid i k s.toMachine) : AtKey tid i k s'.toMachine := by
  obtain ⟨⟨f, fs, f', fs', hf, hf', e0, e1, e2⟩, -⟩ := h
  obtain ⟨g, gs, hg, h0, h1, h2⟩ := hs
  obtain ⟨rfl, rfl⟩ := List.cons.inj (hg.symm.trans hf)
  exact ⟨f', fs', hf', e0.symm ▸ h0, e1.symm ▸ h1, e2.trans h2⟩

/-- Iterations of a loop over table `tid`, each from its `ForInNext` on: the key handed over, the
position, and the keys of the table before and behind the body. `loop` is the address of `ForInNext`,
`body` the one behind it and `exit` the one behind the loop. -/
inductive ForInRun (R : Rec) (L : Lib) (tid loop body exit : ℕ) :
    LuaState → List (Cursor.Visit Value) → LuaState → Prop
  | stop (s : LuaState) : ForInRun R L tid loop body exit s [] s
  | visit {s t u w s' : LuaState} {i ip : ℕ} {k v : Value} {vs : List (Cursor.Visit Value)}
      (hpos : AtPos tid i s.toMachine)
      (hnext : R.exec (execInstr L body (.forInNext exit)) s = .ok (.goto body) t)
      (hkey : t.vstack = v :: k :: s.vstack) (hbody : Removes tid t u)
      (hadvance : R.exec (execInstr L ip (.forInAdvance loop)) u = .ok (.goto loop) w)
      (rest : ForInRun R L tid loop body exit w vs s') :
      ForInRun R L tid loop body exit s
        (⟨k, i, keysAt s.toMachine tid, keysAt u.toMachine tid⟩ :: vs) s'

section Runs
variable {R : Rec} {L : Lib} {s : LuaState} {tid loop body exit : ℕ}

theorem AtPos.unique {i j : ℕ} (h : AtPos tid i s.toMachine) (h' : AtPos tid j s.toMachine) : i = j := by
  obtain ⟨f, fs, hf, -, h1⟩ := h
  obtain ⟨g, gs, hg, -, h1'⟩ := h'
  obtain ⟨rfl, rfl⟩ := List.cons.inj (hf.symm.trans hg)
  exact h1.unique h1'

theorem DistinctKeys.sublist {l l' : List Value} (h : DistinctKeys l) (hl : l'.Sublist l) :
    DistinctKeys l' :=
  ⟨h.1.sublist hl, fun a ha b hb => h.2 a (hl.subset ha) b (hl.subset hb)⟩

/-- **The loop is a walk of a cursor** over the keys. -/
theorem ForInRun.walk {vs : List (Cursor.Visit Value)} {s' : LuaState} {i : ℕ}
    (hr : ForInRun R L tid loop body exit s vs s') (hne : body ≠ exit) (hpos : AtPos tid i s.toMachine)
    (hk : DistinctKeys (keysAt s.toMachine tid)) (hlen : (keysAt s.toMachine tid).length ≤ TABLE_SLOTS) :
    ∃ j, Cursor.Walk (keysAt s.toMachine tid) i vs (keysAt s'.toMachine tid) j ∧
      AtPos tid j s'.toMachine := by
  induction hr generalizing i with
  | stop s => exact ⟨i, .stop _ i, hpos⟩
  | @visit s t u w s' i' ip k v vs hpos' hnext hkey hbody hadvance _ ih =>
    obtain rfl := hpos'.unique hpos
    rcases forInNext_ok hpos hnext with ⟨-, he, -⟩ | ⟨k', v', hget, -, hkey', hkeys, hat⟩
    · exact absurd (Next.goto.inj he) hne
    · obtain ⟨-, hcons⟩ := List.cons.inj (hkey.symm.trans hkey')
      obtain ⟨rfl, -⟩ := List.cons.inj hcons
      have hsub := hbody.2
      rw [hkeys] at hsub
      have hmem : k ∈ keysAt s.toMachine tid := List.mem_of_getElem? hget
      obtain ⟨hlt, -⟩ := List.getElem?_eq_some_iff.mp hget
      have hi : i' + 1 < 2 ^ 63 := by
        unfold TABLE_SLOTS at hlen
        omega
      have hdistinct : ∀ j ∈ keysAt u.toMachine tid, valEq j k = true ↔ j = k :=
        fun j hj => hk.2 j (hsub.subset hj) k hmem
      obtain ⟨-, hkeys', hpos''⟩ := forInAdvance_ok (hbody.atKey hat) hi hdistinct hadvance
      rw [← hkeys'] at hsub hpos'' ⊢
      obtain ⟨j, hwalk, hj⟩ := ih hpos'' (hk.sublist hsub) (hsub.length_le.trans hlen)
      exact ⟨j, .visit hget hsub hwalk, hj⟩

/-- `ForInPrep` over `pairs(t)` or over a table starts at the first slot. -/
theorem forInPrep_ok {ip : ℕ} {s₀ : LuaState} {first second : Value} {rest : List Value} {n : Next}
    (hs : s₀.vstack = second :: first :: rest)
    (ht : first = .table tid ∨ first = .native 3 ∧ second = .table tid) (htid : tid < 2 ^ 63)
    (h : R.exec (execInstr L ip .forInPrep) s₀ = .ok n s) :
    AtPos tid 0 s.toMachine ∧ keysAt s.toMachine tid = keysAt s₀.toMachine tid := by
  rw [execInstr, exec_bind, execForInPrep, exec_bind, bind_assoc, bind_ok (exec_pop R s₀ hs), exec_bind,
    bind_assoc, bind_ok (exec_pop R _ rfl), exec_bind, bind_assoc, bind_eq_ok] at h
  obtain ⟨f, t, htop, h⟩ := h
  obtain ⟨fs, hf, rfl⟩ := topFrame_run htop
  rcases ht with rfl | ⟨rfl, rfl⟩
  · dsimp only at h
    rw [bind_ok (exec_setTopFrame R _ hf)] at h
    cases h
    exact ⟨⟨_, fs, rfl, counts_ofNat htid, 0, rfl, rfl⟩, rfl⟩
  · change (R.exec (setTopFrame _) >>= _) _ = _ at h
    rw [bind_ok (exec_setTopFrame R _ hf)] at h
    cases h
    exact ⟨⟨_, fs, rfl, counts_ofNat htid, 0, rfl, rfl⟩, rfl⟩

end Runs

/-- A loop over table 0, whose keys are `ks`. -/
def looping (stack : List Value) (i : Int64) (key : Value) (ks : List Int64) : LuaState where
  vstack := stack
  frames := [{ ctrl0 := .num 0, ctrl1 := .num i, ctrl2 := key }]
  tbls := [{ slots := ks.map fun k => (.num k, .num 7) }]

/-- One iteration of such a loop, by evaluation. -/
theorem looping_visit {i j k : Int64} {n : ℕ} {key : Value} {ks left : List Int64}
    {vs : List (Cursor.Visit Value)} {s : LuaState} (hi : i.toInt = n)
    (hnext : Rec.stuck.exec (execInstr bareLib 1 (.forInNext 9)) (looping [] i key ks) =
      .ok (.goto 1) (looping [.num 7, .num k] i (.num k) ks))
    (hleft : left.Sublist ks)
    (hadvance : Rec.stuck.exec (execInstr bareLib 8 (.forInAdvance 0)) (looping [] i (.num k) left) =
      .ok (.goto 0) (looping [] j (.num k) left))
    (rest : ForInRun Rec.stuck bareLib 0 0 1 9 (looping [] j (.num k) left) vs s) :
    ForInRun Rec.stuck bareLib 0 0 1 9 (looping [] i key ks)
      (⟨.num k, n, ks.map .num, left.map .num⟩ :: vs) s := by
  have hkeys : ∀ (stack : List Value) (i : Int64) (key : Value) (ks : List Int64),
      keysAt (looping stack i key ks).toMachine 0 = ks.map .num := by
    intro stack i key ks
    rw [keysAt_eq rfl, Assoc.keys, List.map_map]
    rfl
  have hpos : AtPos 0 n (looping [] i key ks).toMachine := ⟨_, [], rfl, ⟨0, rfl, rfl⟩, i, rfl, hi⟩
  have hbody : Removes 0 (looping [.num 7, .num k] i (.num k) ks) (looping [] i (.num k) left) := by
    refine ⟨⟨_, [], _, [], rfl, rfl, rfl, rfl, rfl⟩, ?_⟩
    rw [hkeys, hkeys]
    exact hleft.map _
  have h := ForInRun.visit hpos hnext rfl hbody hadvance rest
  rwa [hkeys, hkeys] at h

/-- The state before `for k, v in pairs(t)` over the keys `ks`. -/
def beforeLoop (ks : List Int64) : LuaState where
  vstack := [.table 0, .native 3]
  frames := [{}]
  tbls := [{ slots := ks.map fun k => (.num k, .num 7) }]

end Lua
end Rustrapper

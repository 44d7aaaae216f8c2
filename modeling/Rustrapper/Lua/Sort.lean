/-
# table.sort with any comparator

`table.sort` takes a value out of its slot into a local of the Rust code and
moves slots up while the comparator, any script function, may fail. Its loops
go through the steps of an insertion sort in place (`Sort/Insertion.lean`),
where a comparison is whatever a call of the comparator does from a state of
the run.
-/
import Rustrapper.Lua.ListKeys
import Rustrapper.Sort.Insertion

namespace Rustrapper
namespace Lua

open Sort.Insertion Store.Sequence

/-! ### States of a run -/

/-- How a computation ends. -/
def Ends {α : Type} (ok : α → LuaState → Prop) (error : Stop → LuaState → Prop) :
    EStateM.Result Stop LuaState α → Prop
  | .ok a s => ok a s
  | .error e s => error e s

theorem Ends.bind {α β : Type} {P : α → LuaState → Prop} {Q : β → LuaState → Prop} {E : Stop → LuaState → Prop}
    {x : Exec α} {f : α → Exec β} {s : LuaState} (hx : Ends P E (x s)) (hf : ∀ a t, P a t → Ends Q E (f a t)) :
    Ends Q E ((x >>= f) s) := by
  rw [bind_apply]
  cases h : x s with
  | ok a t =>
    rw [h] at hx
    exact hf a t hx
  | error e t =>
    rw [h] at hx
    exact hx

/-- The table has the keys it had, and these values. -/
def AtWork (tid : ℕ) (t : TableRec) (vals : List Value) (s : LuaState) : Prop :=
  ∃ slots, s.tbls[tid]? = some { t with slots := slots } ∧ Store.Assoc.keys slots = Store.Assoc.keys t.slots ∧
    slots.map Prod.snd = vals

/-- A set of states that `table.sort` does not leave: comparisons and its own writes stay in it, and
comparisons leave the table alone. -/
structure Harmless (R : Rec) (comp : Option Value) (tid : ℕ) (I : LuaState → Prop) : Prop where
  stays : ∀ s a b, I s → I (endState (R.exec (sortLess comp a b) s))
  table : ∀ s a b, I s → (endState (R.exec (sortLess comp a b) s)).tbls[tid]? = s.tbls[tid]?
  writes : ∀ s t slots, I s → s.tbls[tid]? = some t → I (s.withSlots tid t slots)

/-- What a comparison can answer in the states of a set. -/
def Compares (R : Rec) (comp : Option Value) (I : LuaState → Prop) (a b : Value) : Except Stop Bool → Prop
  | .ok r => ∃ s s', I s ∧ R.exec (sortLess comp a b) s = .ok r s'
  | .error e => ∃ s s', I s ∧ R.exec (sortLess comp a b) s = .error e s'

section Slots
variable {R : Rec} {s : LuaState} {tid : ℕ} {t : TableRec} {vals : List Value}

theorem exec_setSlots (slots : List (Value × Value)) :
    R.exec (setSlots tid t slots) s = .ok () (s.withSlots tid t slots) := by
  rw [setSlots, exec_modify, bind_apply]
  rfl

theorem AtWork.slotValue (h : AtWork tid t vals s) (i : ℕ) :
    R.exec (slotValue tid i) s = .ok (vals[i]?.getD .nil) s := by
  obtain ⟨slots, ht, -, rfl⟩ := h
  rw [Lua.slotValue, exec_bind, bind_ok (exec_tableRec R ht), List.getElem?_map]
  rfl

theorem map_snd_modify (slots : List (Value × Value)) (i : ℕ) (v : Value) :
    (slots.modify i fun p => (p.1, v)).map Prod.snd = (slots.map Prod.snd).set i v := by
  induction slots generalizing i with
  | nil => simp
  | cons p slots ih =>
    cases i with
    | zero => rfl
    | succ i => simp [ih]

theorem keys_modify (slots : List (Value × Value)) (i : ℕ) (v : Value) :
    Store.Assoc.keys (slots.modify i fun p => (p.1, v)) = Store.Assoc.keys slots := by
  induction slots generalizing i with
  | nil => simp
  | cons p slots ih =>
    cases i with
    | zero => rfl
    | succ i => simp [ih]

theorem AtWork.setSlotValue (h : AtWork tid t vals s) (i : ℕ) (v : Value) :
    ∃ slots u, s.tbls[tid]? = some u ∧ R.exec (setSlotValue tid i v) s = .ok () (s.withSlots tid u slots) ∧
      AtWork tid t (vals.set i v) (s.withSlots tid u slots) := by
  obtain ⟨slots, ht, hk, rfl⟩ := h
  refine ⟨_, _, ht, ?_, _, withSlots_tbl ht _, ?_, map_snd_modify slots i v⟩
  · rw [Lua.setSlotValue, exec_bind, bind_ok (exec_tableRec R ht), exec_setSlots]
  · rw [keys_modify, hk]

end Slots

/-! ### The loops -/

section Loops
variable {R : Rec} {comp : Option Value} {I : LuaState → Prop} {s : LuaState} {tid : ℕ} {t : TableRec}
  {vals : List Value}

/-- The inner loop goes through the steps of an insertion. -/
theorem sortShift_ends (hc : Harmless R comp tid I) (x : Value) (j : ℕ) (hI : I s) (hw : AtWork tid t vals s)
    (hj : j < vals.length) :
    Ends (fun k s' => I s' ∧ ∃ m, AtWork tid t m s' ∧ Shift (Compares R comp I) x j vals k m none)
      (fun e s' => I s' ∧ ∃ k m, AtWork tid t m s' ∧ Shift (Compares R comp I) x j vals k m (some e))
      (R.exec (sortShift comp tid x j) s) := by
  induction j generalizing s vals with
  | zero => exact ⟨hI, vals, hw, .bottom vals⟩
  | succ j ih =>
    have hy : vals[j]? = some vals[j] := List.getElem?_eq_getElem (by omega)
    have hstays := hc.stays s x vals[j] hI
    have htable := hc.table s x vals[j] hI
    rw [sortShift, exec_bind, bind_ok (hw.slotValue j), hy, Option.getD_some, exec_bind, bind_apply]
    cases he : R.exec (sortLess comp x vals[j]) s with
    | error e s₁ =>
      rw [he] at hstays htable
      have hw₁ : AtWork tid t vals s₁ := by
        obtain ⟨slots, ht, hrest⟩ := hw
        exact ⟨slots, htable.trans ht, hrest⟩
      exact ⟨hstays, j + 1, vals, hw₁, .fail hy ⟨s, s₁, hI, he⟩⟩
    | ok r s₁ =>
      rw [he] at hstays htable
      have hw₁ : AtWork tid t vals s₁ := by
        obtain ⟨slots, ht, hrest⟩ := hw
        exact ⟨slots, htable.trans ht, hrest⟩
      cases r with
      | false => exact ⟨hstays, vals, hw₁, .stop hy ⟨s, s₁, hI, he⟩⟩
      | true =>
        obtain ⟨slots, u, hu, hset, hw₂⟩ := @AtWork.setSlotValue R _ _ _ _ hw₁ (j + 1) vals[j]
        have hI₂ := hc.writes s₁ u slots hstays hu
        have hrest := ih hI₂ hw₂ (by rw [List.length_set]; omega)
        have hstep : ∀ {k m o}, Shift (Compares R comp I) x j (vals.set (j + 1) vals[j]) k m o →
            Shift (Compares R comp I) x (j + 1) vals k m o := fun h => .move hy ⟨s, s₁, hI, he⟩ h
        dsimp only
        rw [if_pos rfl, exec_bind, bind_ok (hw₁.slotValue j), hy, Option.getD_some, exec_bind, bind_ok hset]
        cases hr : R.exec (sortShift comp tid x j) (s₁.withSlots tid u slots) with
        | ok k s' =>
          rw [hr] at hrest
          obtain ⟨hI', m, hm, hs⟩ := hrest
          exact ⟨hI', m, hm, hstep hs⟩
        | error e s' =>
          rw [hr] at hrest
          obtain ⟨hI', k, m, hm, hs⟩ := hrest
          exact ⟨hI', k, m, hm, hstep hs⟩

/-- The outer loop goes through the steps of an insertion sort. -/
theorem sortLoop_ends (hc : Harmless R comp tid I) {n i : ℕ} (hn : n = vals.length - i) (hI : I s)
    (hw : AtWork tid t vals s) :
    Ends (fun _ s' => I s' ∧ ∃ m, AtWork tid t m s' ∧ Run (Compares R comp I) i vals m none)
      (fun e s' => I s' ∧ ∃ k x m, AtWork tid t m s' ∧ Run (Compares R comp I) i vals m (some ⟨e, k, x⟩))
      (R.exec (sortLoop comp tid n i) s) := by
  induction n generalizing s vals i with
  | zero => exact ⟨hI, vals, hw, .done (by omega)⟩
  | succ n ih =>
    have hx : vals[i]? = some vals[i] := List.getElem?_eq_getElem (by omega)
    rw [sortLoop, exec_bind, bind_ok (hw.slotValue i), hx, Option.getD_some, exec_bind, bind_apply]
    have hshift := sortShift_ends hc vals[i] i hI hw (by omega)
    cases hr : R.exec (sortShift comp tid vals[i] i) s with
    | error e s₁ =>
      rw [hr] at hshift
      obtain ⟨hI₁, k, m, hm, hs⟩ := hshift
      exact ⟨hI₁, k, vals[i], m, hm, .raised hx hs⟩
    | ok k s₁ =>
      rw [hr] at hshift
      obtain ⟨hI₁, m, hm, hs⟩ := hshift
      obtain ⟨slots, u, hu, hset, hw₂⟩ := @AtWork.setSlotValue R _ _ _ _ hm k vals[i]
      have hI₂ := hc.writes s₁ u slots hI₁ hu
      have hlen : (m.set k vals[i]).length = vals.length := (hs.perm hx).length_eq
      have hrest := ih (i := i + 1) (by omega) hI₂ hw₂
      dsimp only
      rw [exec_bind, bind_ok hset]
      cases hr' : R.exec (sortLoop comp tid n (i + 1)) (s₁.withSlots tid u slots) with
      | ok a s' =>
        rw [hr'] at hrest
        obtain ⟨hI', m', hm', hrun⟩ := hrest
        exact ⟨hI', m', hm', .insert hx hs hrun⟩
      | error e s' =>
        rw [hr'] at hrest
        obtain ⟨hI', k', x, m', hm', hrun⟩ := hrest
        exact ⟨hI', k', x, m', hm', .insert hx hs hrun⟩

theorem numberSlots_length (i : ℕ) (vs : List Value) : (numberSlots i vs).length = vs.length := by
  induction vs generalizing i with
  | nil => rfl
  | cons v vs ih => rw [numberSlots, List.length_cons, ih, List.length_cons]

/-- **`table.sort`** goes through an insertion sort of the slots' values; behind it all slots get new
keys. -/
theorem sortTable_ends (hc : Harmless R comp tid I) (hI : I s) (ht : s.tbls[tid]? = some t) :
    Ends (fun r s' => r = .normal ∧ I s' ∧ ∃ m, s'.tbls[tid]? = some { t with slots := numberSlots 0 m } ∧
        Run (Compares R comp I) 1 (t.slots.map Prod.snd) m none)
      (fun e s' => ∃ k x m, AtWork tid t m s' ∧
        Run (Compares R comp I) 1 (t.slots.map Prod.snd) m (some ⟨e, k, x⟩))
      (R.exec (sortTable comp tid) s) := by
  have hw : AtWork tid t (t.slots.map Prod.snd) s := ⟨t.slots, ht, rfl, rfl⟩
  have hloop := @sortLoop_ends R comp I s tid t _ hc (t.slots.length - 1) 1 (by rw [List.length_map]) hI hw
  rw [sortTable, exec_bind, bind_ok (exec_tableRec R ht), exec_bind, bind_apply]
  cases hr : R.exec (sortLoop comp tid (t.slots.length - 1) 1) s with
  | error e s₁ =>
    rw [hr] at hloop
    exact hloop.2
  | ok a s₁ =>
    rw [hr] at hloop
    obtain ⟨hI₁, m, ⟨slots, ht₁, -, hvals⟩, hrun⟩ := hloop
    have hlen : slots.length = t.slots.length := by
      have hlen := congrArg List.length hvals
      rwa [List.length_map, hrun.perm.length_eq, List.length_map] at hlen
    have hrekey : rekeySlots t.slots.length slots = numberSlots 0 m := by
      rw [rekeySlots, ← hlen, List.take_length, List.drop_length, List.append_nil, hvals]
    dsimp only
    rw [exec_bind, bind_ok (exec_tableRec R ht₁), exec_bind, bind_ok (exec_setSlots _), hrekey]
    exact ⟨rfl, hc.writes s₁ _ _ hI₁ ht₁, m, withSlots_tbl ht₁ _, hrun⟩

end Loops

/-! ### Comparators that leave the table alone -/

section Stays
variable {α β : Type} {R : Rec} {J : LuaState → Prop}

/-- A computation stays in a set of states, however it ends. -/
def Stays (J : LuaState → Prop) (x : Exec α) : Prop := ∀ s, J s → J (endState (x s))

theorem Stays.bind {x : Exec α} {f : α → Exec β} (hx : Stays J x) (hf : ∀ a, Stays J (f a)) : Stays J (x >>= f) := by
  intro s hs
  have hx := hx s hs
  rw [bind_apply]
  cases h : x s with
  | ok a t =>
    rw [h] at hx
    exact hf a t hx
  | error e t =>
    rw [h] at hx
    exact hx

theorem Stays.pure (a : α) : Stays J (Pure.pure a) := fun _ hs => hs

theorem Stays.throw (e : Stop) : Stays J (throw e : Exec α) := fun _ hs => hs

theorem Stays.getMachine : Stays J getMachine := fun _ hs => hs

theorem Stays.catchLua {x : Exec α} (hx : Stays J x) : Stays J (catchLua x) := by
  intro s hs
  have hx := hx s hs
  unfold Lua.catchLua
  cases h : x s with
  | ok a t =>
    rw [h] at hx
    exact hx
  | error e t =>
    rw [h] at hx
    cases e <;> exact hx

variable (hJ : ∀ s vs d, J s → J { s with vstack := vs, mmDepth := d })
include hJ

theorem stays_enterMM : Stays J (R.exec enterMM) := by
  intro s hs
  rw [enterMM, exec_bind, exec_get, bind_ok (getMachine_apply s), exec_ite]
  split_ifs
  · exact hs
  · exact hJ s s.vstack _ hs

theorem stays_pushVal (v : Value) : Stays J (R.exec (pushVal v)) := by
  intro s hs
  by_cases h : s.vsp < STACK_CAP
  · rw [exec_pushVal R s v h]
    exact hJ s _ s.mmDepth hs
  · rw [exec_pushVal_full R s v h]
    exact hs

theorem stays_leaveMM : Stays J (R.exec leaveMM) := by
  intro s hs
  rw [leaveMM, exec_modify, bind_apply]
  exact hJ s s.vstack _ hs

theorem stays_setVsp (n : ℕ) : Stays J (R.exec (setVsp n)) := by
  intro s hs
  rw [exec_setVsp]
  exact hJ s _ s.mmDepth hs

/-- A comparison stays where the comparator does. -/
theorem stays_sortLess {c : Value} (hcall : Stays J (R.exec (callValue c 2))) (a b : Value) :
    Stays J (R.exec (sortLess (some c) a b)) := by
  rw [sortLess, exec_bind, exec_get]
  refine Stays.getMachine.bind fun m => ?_
  rw [exec_bind]
  refine (stays_enterMM hJ).bind fun _ => ?_
  rw [exec_bind]
  refine (stays_pushVal hJ a).bind fun _ => ?_
  rw [exec_bind]
  refine (stays_pushVal hJ b).bind fun _ => ?_
  rw [exec_bind, exec_attempt]
  refine hcall.catchLua.bind fun r => ?_
  rw [exec_bind]
  refine (stays_leaveMM hJ).bind fun _ => ?_
  rw [exec_bind]
  refine Stays.bind ?_ fun r => ?_
  · cases r with
    | ok r => exact .pure r
    | error e => exact .throw _
  rw [exec_bind]
  refine Stays.bind ?_ fun v => ?_
  · cases r with
    | retN n =>
      rw [firstResult, exec_ite]
      split_ifs
      · rw [vstackAt, exec_bind, exec_get]
        refine Stays.getMachine.bind fun m => ?_
        cases at? m.vstack _ with
        | none => exact .throw _
        | some v => exact .pure v
      · exact .pure _
    | _ => exact .pure _
  rw [exec_bind]
  exact (stays_setVsp hJ _).bind fun _ => .pure _

end Stays

/-- **A comparator that leaves the table alone is harmless.** -/
theorem Harmless.of_call {R : Rec} {c : Value} {tid : ℕ} {I : LuaState → Prop}
    (hstack : ∀ s vs d, I s → I { s with vstack := vs, mmDepth := d })
    (hcall : ∀ s, I s → I (endState (R.exec (callValue c 2) s)) ∧
      (endState (R.exec (callValue c 2) s)).tbls[tid]? = s.tbls[tid]?)
    (hwrites : ∀ s t slots, I s → s.tbls[tid]? = some t → I (s.withSlots tid t slots)) :
    Harmless R (some c) tid I := by
  have hstays : ∀ o, ∀ a b, Stays (fun s => I s ∧ s.tbls[tid]? = o) (R.exec (sortLess (some c) a b)) := by
    intro o a b
    apply stays_sortLess
    · exact fun s vs d hs => ⟨hstack s vs d hs.1, hs.2⟩
    · exact fun s hs => ⟨(hcall s hs.1).1, (hcall s hs.1).2.trans hs.2⟩
  exact ⟨fun s a b hs => (hstays _ a b s ⟨hs, rfl⟩).1, fun s a b hs => (hstays _ a b s ⟨hs, rfl⟩).2, hwrites⟩

/-! ### Values by key -/

/-- The values at the keys `1 .. n` of a table. -/
def listAt (s : LuaState) (tid n : ℕ) : List Value :=
  (List.range n).map fun m => slotGet (((s.tbls[tid]?).map TableRec.slots).getD []) (.num (Int64.ofNat (m + 1)))

section ByKey
variable {s : LuaState} {tid n : ℕ} {t : TableRec} {slots : List (Value × Value)}
  {l : List (Option ℕ × Value)} {vals m : List Value}

theorem listAt_eq (ht : s.tbls[tid]? = some t) (hv : Views t.slots l) (hn : n < 2 ^ 63) :
    listAt s tid n = (List.range n).map fun i => (Store.Assoc.get l (some i)).getD .nil := by
  unfold listAt
  rw [ht]
  refine List.map_congr_left fun i hi => ?_
  have hlt := List.mem_range.mp hi
  change slotGet t.slots _ = _
  rw [hv.get, atKey, toInt_ofNat_succ (by omega), if_neg (by omega), show ((i : ℤ) + 1).toNat - 1 = i by omega]
  rfl

/-- Slots with the same keys are entries with the same numbers. -/
theorem Views.of_keys (hv : Views t.slots l) (hk : Store.Assoc.keys slots = Store.Assoc.keys t.slots) :
    ∃ l', Views slots l' ∧ Store.Assoc.keys l' = Store.Assoc.keys l := by
  generalize t.slots = old at hv hk
  induction hv generalizing slots with
  | nil =>
    obtain rfl := List.map_eq_nil_iff.mp hk
    exact ⟨[], .nil, rfl⟩
  | @cons p e old l he _ ih =>
    cases slots with
    | nil => cases hk
    | cons q slots =>
      rw [Store.Assoc.keys_cons, Store.Assoc.keys_cons] at hk
      obtain ⟨hq, hk⟩ := List.cons.inj hk
      obtain ⟨l', hv', hk'⟩ := ih hk
      refine ⟨(e.1, q.2) :: l', .cons ⟨hq ▸ he.1, rfl⟩ hv', ?_⟩
      rw [Store.Assoc.keys_cons, Store.Assoc.keys_cons, hk']

/-- With the keys of a list, the values by key are those of the slots. -/
theorem AtWork.listAt_perm (hw : AtWork tid t m s) (hl : IsList t.slots l vals) (hu : Unnamed l) :
    (listAt s tid vals.length).Perm m := by
  obtain ⟨slots, ht, hk, rfl⟩ := hw
  obtain ⟨l', hv', hk'⟩ := hl.views.of_keys hk
  have hlen := hl.length_le
  have hh := hl.holds.of_keys hk' .nil
  have hu' : Unnamed l' := by
    unfold Unnamed
    rw [hk']
    exact hu
  rw [listAt_eq ht hv' (by omega), hv'.values]
  exact (hh.values_perm hu').symm

/-- Numbered slots hold their values in order. -/
theorem listAt_numberSlots (ht : s.tbls[tid]? = some { t with slots := numberSlots 0 m }) (hm : m.length < 2 ^ 63) :
    listAt s tid m.length = m := by
  rw [listAt_eq ht (views_number (by simpa using hm)) hm]
  apply List.ext_getElem?
  intro i
  rw [List.getElem?_map]
  by_cases hi : i < m.length
  · rw [List.getElem?_range hi, Option.map_some, get_number, if_pos (Nat.zero_le i), Nat.sub_zero,
      List.getElem?_eq_getElem hi]
    rfl
  · rw [List.getElem?_eq_none (by simpa using hi), List.getElem?_eq_none (by omega)]
    rfl

end ByKey

/-! ### No value is lost -/

section Values
variable (R : Rec) (comp : Option Value) (I : LuaState → Prop) (tid : ℕ)

/-- The values by key are a rearrangement of `vals` whether the call returns or fails; where it returns
and the comparator is a strict weak order on them, they are sorted and equal ones keep their order. -/
def KeepsValues (vals : List Value) : EStateM.Result Stop LuaState ExecResult → Prop :=
  Ends (fun _ s' => (listAt s' tid vals.length).Perm vals ∧
      ∀ lt, WeakOrderOn lt {v | v ∈ vals} → Answers (Compares R comp I) lt {v | v ∈ vals} →
        Sorted lt (listAt s' tid vals.length) ∧ SameOrder lt vals (listAt s' tid vals.length))
    fun _ s' => (listAt s' tid vals.length).Perm vals

theorem KeepsValues.perm {R : Rec} {comp : Option Value} {I : LuaState → Prop} {tid : ℕ} {vals : List Value}
    {r : EStateM.Result Stop LuaState ExecResult} (h : KeepsValues R comp I tid vals r) :
    (listAt (endState r) tid vals.length).Perm vals := by
  cases r with
  | ok a s => exact h.1
  | error e s => exact h

/-- Where the call returns, values that are equal in the comparator's order stand in the slots in the
order of their keys; where a comparison fails, the slot that is to get the value taken out holds it. -/
def SlotsInOrder (t : TableRec) (vals : List Value) : EStateM.Result Stop LuaState ExecResult → Prop :=
  Ends (fun _ _ => ∀ lt, WeakOrderOn lt {v | v ∈ vals} → Answers (Compares R comp I) lt {v | v ∈ vals} →
      SameOrder lt vals (t.slots.map Prod.snd))
    fun e s' => ∃ k x m, AtWork tid t m s' ∧
      Run (Compares R comp I) 1 (t.slots.map Prod.snd) m (some ⟨e, k, x⟩) ∧ m[k]? = some x

end Values

section Main
variable {R : Rec} {comp : Value} {I : LuaState → Prop} {s : LuaState} {tid : ℕ} {t : TableRec}
  {l : List (Option ℕ × Value)} {vals : List Value}

end Main

/-! ### Comparators that are functions of two values -/

/-- Every call answers by a function of the two values on top of the stack, which may fail. -/
def Rec.comparing (f : Value → Value → Except String Bool) : Rec :=
  { Rec.stuck with
    call := fun _ _ s =>
      match s.vstack with
      | b :: a :: _ => match f a b with
        | .ok r => .ok (.ret (.bool r)) s
        | .error m => .error (.lua (.msg m)) s
      | _ => .error (.fault .stack) s }

theorem harmless_comparing (f : Value → Value → Except String Bool) (id tid : ℕ) :
    Harmless (Rec.comparing f) (some (.native id)) tid fun _ => True := by
  refine .of_call (fun _ _ _ _ => trivial) (fun s _ => ⟨trivial, ?_⟩) fun _ _ _ _ _ => trivial
  have hcall : (Rec.comparing f).exec (callValue (.native id) 2) s = (Rec.comparing f).call (.native id) 2 s := by
    have hnone : (Rec.comparing f).exec (callee (.native id)) s = .ok none s := rfl
    rw [callValue, exec_bind, bind_ok hnone]
    exact congrFun (exec_perform _ (.call (.native id) 2)) s
  have hsame : endState ((Rec.comparing f).call (.native id) 2 s) = s := by
    unfold Rec.comparing
    dsimp only
    split
    · split <;> rfl
    · rfl
  rw [hcall, hsame]

/-- Compare numbers; comparing 1 with 2 fails. -/
def exceptOneTwo : Value → Value → Except String Bool
  | .num x, .num y => if x = 1 ∧ y = 2 then .error "no" else .ok (x < y)
  | _, _ => .ok false

/-- `t = {2, 3, 1}`. -/
def twoThreeOne : LuaState where
  tbls := [{ slots := numberSlots 0 [.num 2, .num 3, .num 1] }]

end Lua
end Rustrapper

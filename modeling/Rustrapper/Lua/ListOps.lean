/-
# Insertion, removal and sorting by key

`table.insert(t, pos, v)`, `table.remove(t, pos)` and `table.sort(t)` on a table
that holds a list at the keys `1 .. n`, in any order of the slots, and any
other entries. They number the slots behind a place anew, so they do by key
what they are for exactly when the slots in front of the place are those of
the keys in front and the others stand in order with no other entry between
them (`list_operations_by_key`).
-/
import Rustrapper.Lua.Sort

namespace Rustrapper
namespace Lua

open Store.Sequence Sort.Insertion

/-! ### What the operations are for -/

/-- The sequence with `v` put at `pos`; a position outside it changes nothing. -/
def insertedAt (vals : List Value) (pos : Int64) (v : Value) : List Value :=
  if 1 ≤ pos.toInt then vals.insertIdx (pos.toInt.toNat - 1) v else vals

/-- The sequence without the value at `pos`; a position outside it changes nothing. -/
def erasedAt (vals : List Value) (pos : Int64) : List Value :=
  if 1 ≤ pos.toInt then vals.eraseIdx (pos.toInt.toNat - 1) else vals

/-- A call raises an error and changes nothing, or it changes the slots of one table. -/
def RaisesOr (s : LuaState) (tid : ℕ) (t : TableRec) (P : ExecResult → List (Value × Value) → Prop) :
    EStateM.Result Stop LuaState ExecResult → Prop
  | .error (.lua _) s' => s' = s
  | .error _ _ => False
  | .ok r s' => ∃ slots, s' = s.withSlots tid t slots ∧ P r slots

/-- `table.insert` by key. -/
def InsertsByKey (s : LuaState) (tid : ℕ) (t : TableRec) (vals : List Value) (pos : Int64) (v : Value) :
    EStateM.Result Stop LuaState ExecResult → Prop :=
  RaisesOr s tid t fun r slots => r = .normal ∧ Becomes t.slots slots (insertedAt vals pos v)

/-- `table.remove` by key. -/
def RemovesByKey (s : LuaState) (tid : ℕ) (t : TableRec) (vals : List Value) (pos : Int64) :
    EStateM.Result Stop LuaState ExecResult → Prop :=
  RaisesOr s tid t fun r slots => r = .ret (atKey (seqAt vals) pos) ∧ Becomes t.slots slots (erasedAt vals pos)

/-- `table.sort` by key, in the default order. -/
def SortsByKey (s : LuaState) (tid : ℕ) (t : TableRec) (vals : List Value) :
    EStateM.Result Stop LuaState ExecResult → Prop :=
  RaisesOr s tid t fun r slots => r = .normal ∧ ∃ vs : List Value, vs.Perm vals ∧
    (WeakOrderOn (fun a b => defaultLess s.toHeap a b = true) {v | v ∈ vals} →
      Sorted (fun a b => defaultLess s.toHeap a b = true) vs) ∧ Becomes t.slots slots vs

section Common
variable {R : Rec} {s : LuaState} {tid : ℕ} {t : TableRec}

theorem withSlots_inj (ht : s.tbls[tid]? = some t) {slots slots' : List (Value × Value)}
    (h : s.withSlots tid t slots = s.withSlots tid t slots') : slots = slots' := by
  have he := congrArg (fun s : LuaState => s.tbls[tid]?) h
  rw [withSlots_tbl ht, withSlots_tbl ht] at he
  exact congrArg TableRec.slots (Option.some.inj he)

theorem withSlots_self (ht : s.tbls[tid]? = some t) : s.withSlots tid t t.slots = s := by
  unfold LuaState.withSlots
  obtain ⟨hlt, hget⟩ := List.getElem?_eq_some_iff.mp ht
  have hset : s.tbls.set tid t = s.tbls := by rw [← hget, List.set_getElem_self]
  rw [hset]

theorem raisesOr_ok_iff (ht : s.tbls[tid]? = some t) {P : ExecResult → List (Value × Value) → Prop}
    {r : ExecResult} {slots : List (Value × Value)} :
    RaisesOr s tid t P (.ok r (s.withSlots tid t slots)) ↔ P r slots := by
  constructor
  · rintro ⟨slots', he, hp⟩
    exact withSlots_inj ht he ▸ hp
  · exact fun hp => ⟨slots, rfl, hp⟩

end Common

/-! ### Insertion -/

section Insert
variable {R : Rec} {s : LuaState} {tid bits : ℕ} {t : TableRec} {l : List (Option ℕ × Value)} {vals : List Value}

theorem exec_insertPos (ht : s.tbls[tid]? = some t) (pos : Int64) (v : Value) :
    R.exec (insertPos bits tid pos v) s =
      if pos.toInt < 1 ∨ asUsize bits pos > t.slots.length + 1 then
        .error (.lua (.msg "wrong position for insert")) s
      else if t.slots.length ≥ TABLE_SLOTS then .error (.lua (.msg "table full")) s
      else if asUsize bits pos = 0 then .error (.fault .index) s
      else .ok .normal (s.withSlots tid t (insertSlots t.slots (asUsize bits pos - 1) v)) := by
  rw [insertPos, exec_bind, bind_ok (exec_tableRec R ht), exec_ite, exec_ite, exec_ite]
  split_ifs
  · rfl
  · rfl
  · rfl
  · rw [exec_bind, bind_ok (exec_setSlots _)]
    rfl

/-- What becomes of a list when a value is put at a place of its slots. -/
theorem becomes_insertSlots_iff (hl : IsList t.slots l vals) {i : ℕ} (hi : i ≤ t.slots.length) (pos : Int64) (v : Value)
    (hpos : pos.toInt ≤ vals.length + 1 → 1 ≤ pos.toInt ∧ i = pos.toInt.toNat - 1) (h1 : 1 ≤ pos.toInt) :
    Becomes t.slots (insertSlots t.slots i v) (insertedAt vals pos v) ↔
      (pos.toInt ≤ vals.length + 1 ∧ Aligned l vals (pos.toInt.toNat - 1)) ∨
        (vals.length + 1 < pos.toInt ∧ i = t.slots.length ∧ v = .nil) := by
  have hlen := hl.length_le
  have hll := hl.views.length
  have hsplice : insertSlots t.slots i v = t.slots.take i ++ numberSlots i (v :: (l.drop i).map Prod.snd) := by
    rw [insertSlots, List.map_drop, List.map_drop, hl.views.values]
  have hws : i + (v :: (l.drop i).map Prod.snd).length ≤ 64 := by
    rw [List.length_cons, List.length_map, List.length_drop]
    omega
  have hvs : (insertedAt vals pos v).length ≤ 64 := by
    unfold insertedAt
    rw [if_pos h1, List.length_insertIdx]
    split_ifs <;> omega
  rw [hsplice]
  rcases le_or_gt pos.toInt (vals.length + 1) with hn | hn
  · obtain ⟨-, rfl⟩ := hpos hn
    have hins : insertedAt vals pos v = vals.insertIdx (pos.toInt.toNat - 1) v := if_pos h1
    have hiff := insertAt_iff hl.holds hl.values (i := pos.toInt.toNat - 1) (by omega) v
    rw [hl.becomes_iff hws hvs]
    · rw [hins]
      refine hiff.trans ⟨fun ha => .inl ⟨hn, ha⟩, ?_⟩
      rintro (⟨-, ha⟩ | ⟨hcon, -⟩)
      · exact ha
      · omega
    · intro h
      rw [hins] at h
      exact hl.sameNamed (hiff.mp h).unnamed hws
  · have hins : insertedAt vals pos v = vals := by
      unfold insertedAt
      rw [if_pos h1, List.insertIdx_of_length_lt (by omega)]
    have hiff := insertAt_unchanged_iff hl.holds hl.values (i := i) (by omega) v
    rw [hl.becomes_iff hws hvs]
    · rw [hins]
      refine hiff.trans ⟨fun ⟨hi, hv⟩ => .inr ⟨hn, hi.trans hll.symm, hv⟩, ?_⟩
      rintro (⟨hcon, -⟩ | ⟨-, hi, hv⟩)
      · omega
      · exact ⟨hi.trans hll, hv⟩
    · intro h p hp
      rw [hins] at h
      obtain ⟨hi, -⟩ := hiff.mp h
      have hdrop : l.drop i = [] := by rw [hi, List.drop_length]
      rw [hdrop, hi, ← hll, List.take_length]
      refine List.mem_append.trans ⟨fun hm => ?_, .inl⟩
      rcases hm with hm | hm
      · exact hm
      · obtain rfl := List.mem_singleton.mp hm
        exact absurd hp ((keyOf_num (by omega)).not_none (by omega))

/-- **`table.insert` by key**, exactly when it fails, when the slots are aligned with the keys, or when
the value is a `nil` behind all slots. -/
theorem insertsByKey_iff (hb : bits = 32 ∨ bits = 64) (ht : s.tbls[tid]? = some t) (hl : IsList t.slots l vals)
    (pos : Int64) (v : Value) :
    InsertsByKey s tid t vals pos v (R.exec (tableInsert bits [.table tid, .num pos, v]) s) ↔
      t.slots.length ≥ TABLE_SLOTS ∨ pos.toInt < 1 ∨ asUsize bits pos > t.slots.length + 1 ∨
        (pos.toInt ≤ vals.length + 1 ∧ Aligned l vals (pos.toInt.toNat - 1)) ∨
        (vals.length + 1 < pos.toInt ∧ asUsize bits pos = t.slots.length + 1 ∧ v = .nil) := by
  have hlen := hl.length_le
  change InsertsByKey s tid t vals pos v (R.exec (insertPos bits tid pos v) s) ↔ _
  rw [exec_insertPos ht]
  by_cases h1 : pos.toInt < 1 ∨ asUsize bits pos > t.slots.length + 1
  · rw [if_pos h1]
    refine iff_of_true rfl ?_
    rcases h1 with h1 | h1
    · exact .inr (.inl h1)
    · exact .inr (.inr (.inl h1))
  rw [if_neg h1]
  by_cases h2 : t.slots.length ≥ TABLE_SLOTS
  · rw [if_pos h2]
    exact iff_of_true rfl (.inl h2)
  rw [if_neg h2]
  obtain ⟨hpos, hsize⟩ := not_or.mp h1
  have hcast : pos.toInt ≤ vals.length + 1 → asUsize bits pos = pos.toInt.toNat := by
    intro hn
    exact asUsize_of_small hb (by omega) (by omega)
  by_cases h3 : asUsize bits pos = 0
  · rw [if_pos h3]
    refine iff_of_false id ?_
    rintro (h | h | h | ⟨h, -⟩ | ⟨-, h, -⟩)
    · exact h2 h
    · exact hpos h
    · exact hsize h
    · have := hcast h
      omega
    · omega
  rw [if_neg h3]
  refine (raisesOr_ok_iff ht).trans ?_
  rw [and_iff_right rfl, becomes_insertSlots_iff hl (by omega) pos v _ (by omega)]
  · constructor
    · rintro (h | ⟨hn, hi, hv⟩)
      · exact .inr (.inr (.inr (.inl h)))
      · exact .inr (.inr (.inr (.inr ⟨hn, by omega, hv⟩)))
    · rintro (h | h | h | h | ⟨hn, hi, hv⟩)
      · exact absurd h h2
      · exact absurd h hpos
      · exact absurd h hsize
      · exact .inl h
      · exact .inr ⟨hn, by omega, hv⟩
  · intro hn
    have := hcast hn
    exact ⟨by omega, by omega⟩

end Insert

/-! ### Removal -/

section Remove
variable {R : Rec} {s : LuaState} {tid bits : ℕ} {t : TableRec} {l : List (Option ℕ × Value)} {vals : List Value}

theorem exec_removePos (ht : s.tbls[tid]? = some t) (pos : ℕ) :
    R.exec (removePos tid pos) s =
      if pos < 1 ∨ pos > t.slots.length then .error (.lua (.msg "position out of bounds")) s
      else .ok (.ret ((t.slots[pos - 1]?.map Prod.snd).getD .nil))
        (s.withSlots tid t (removeSlots t.slots (pos - 1))) := by
  rw [removePos, exec_bind, bind_ok (exec_tableRec R ht), exec_ite]
  split_ifs
  · rfl
  · rw [exec_bind, bind_ok (exec_setSlots _)]
    rfl

theorem exec_tableRemove (ht : s.tbls[tid]? = some t) (pos : Int64) :
    R.exec (tableRemove bits [.table tid, .num pos]) s =
      if t.slots.length = 0 then .ok (.ret .nil) s else R.exec (removePos tid (asUsize bits pos)) s := by
  change R.exec (tableRec tid >>= _) s = _
  rw [exec_bind, bind_ok (exec_tableRec R ht), exec_ite]
  split_ifs <;> rfl

theorem atKey_seqAt_of_not {pos : Int64} (h : ¬ (1 ≤ pos.toInt ∧ pos.toInt ≤ vals.length)) :
    atKey (seqAt vals) pos = .nil := by
  unfold atKey seqAt
  split_ifs with h1
  · rfl
  · rw [List.getElem?_eq_none (by omega)]
    rfl

/-- An empty list loses nothing. -/
theorem erasedAt_nil (pos : Int64) : erasedAt [] pos = [] := by rw [erasedAt, List.eraseIdx_nil, ite_self]

/-- A position inside the list gives the value at that key and takes it out, exactly if the slots are aligned. -/
theorem removesInside_iff (hb : bits = 32 ∨ bits = 64) (hl : IsList t.slots l vals) {pos : Int64}
    (hone : 1 ≤ pos.toInt) (hn : pos.toInt ≤ vals.length) :
    (ExecResult.ret (((t.slots[asUsize bits pos - 1]?).map Prod.snd).getD .nil) = .ret (atKey (seqAt vals) pos) ∧
      Becomes t.slots (removeSlots t.slots (asUsize bits pos - 1)) (erasedAt vals pos)) ↔
        Aligned l vals (pos.toInt.toNat - 1) := by
  have hlen := hl.length_le
  have hll := hl.views.length
  have hcast := @asUsize_of_small bits hb pos (by omega) (by omega)
  have hiff := removeAt_iff hl.holds hl.values (i := pos.toInt.toNat - 1) (by omega)
  have hget : (t.slots[pos.toInt.toNat - 1]?).map Prod.snd = (l[pos.toInt.toNat - 1]?).map Prod.snd := by
    rw [← List.getElem?_map, ← List.getElem?_map, hl.views.values]
  have hret : ExecResult.ret (((t.slots[asUsize bits pos - 1]?).map Prod.snd).getD .nil) =
      .ret (atKey (seqAt vals) pos) ↔
        ((l[pos.toInt.toNat - 1]?).map Prod.snd).getD .nil = (vals[pos.toInt.toNat - 1]?).getD .nil := by
    rw [hcast, hget, ExecResult.ret.injEq, atKey, if_neg (by omega)]
    rfl
  have herase : erasedAt vals pos = vals.eraseIdx (pos.toInt.toNat - 1) := if_pos hone
  have hshort : (vals.eraseIdx (pos.toInt.toNat - 1)).length ≤ 64 := by
    rw [List.length_eraseIdx]
    split_ifs <;> omega
  have hsplice : removeSlots t.slots (asUsize bits pos - 1) = t.slots.take (pos.toInt.toNat - 1) ++
      numberSlots (pos.toInt.toNat - 1) ((l.drop (pos.toInt.toNat - 1 + 1)).map Prod.snd) := by
    rw [hcast, removeSlots, List.map_drop, List.map_drop, hl.views.values]
  have hws : pos.toInt.toNat - 1 + ((l.drop (pos.toInt.toNat - 1 + 1)).map Prod.snd).length ≤ 64 := by
    rw [List.length_map, List.length_drop]
    omega
  rw [hret, hsplice, herase]
  constructor
  · rintro ⟨hr, hbec⟩
    have hlook := (hl.becomes_iff hws hshort fun _ => hbec.named).mp hbec
    exact (hiff.mp ⟨hr, hlook⟩).2
  · intro ha
    obtain ⟨hr, hlook⟩ := hiff.mpr ⟨by omega, ha⟩
    exact ⟨hr, (hl.becomes_iff hws hshort fun _ => hl.sameNamed ha.unnamed hws).mpr hlook⟩

/-- **`table.remove` by key**, exactly when the table is empty, when it fails or when the slots are
aligned with the keys. -/
theorem removesByKey_iff (hb : bits = 32 ∨ bits = 64) (ht : s.tbls[tid]? = some t) (hl : IsList t.slots l vals)
    (pos : Int64) :
    RemovesByKey s tid t vals pos (R.exec (tableRemove bits [.table tid, .num pos]) s) ↔
      t.slots.length = 0 ∨ asUsize bits pos < 1 ∨ asUsize bits pos > t.slots.length ∨
        (1 ≤ pos.toInt ∧ pos.toInt ≤ vals.length ∧ Aligned l vals (pos.toInt.toNat - 1)) := by
  have hlen := hl.length_le
  have hll := hl.views.length
  rw [exec_tableRemove ht, exec_removePos ht]
  by_cases h0 : t.slots.length = 0
  · rw [if_pos h0]
    have hvals : vals = [] := List.length_eq_zero_iff.mp (by omega)
    have hslots : t.slots = [] := List.length_eq_zero_iff.mp h0
    refine iff_of_true ⟨t.slots, (withSlots_self ht).symm, ?_, ?_⟩ (.inl h0)
    · rw [atKey_seqAt_of_not (by omega)]
    · rw [hvals, hslots, erasedAt_nil]
      exact becomes_nil
  rw [if_neg h0]
  by_cases h1 : asUsize bits pos < 1 ∨ asUsize bits pos > t.slots.length
  · rw [if_pos h1]
    refine iff_of_true rfl ?_
    rcases h1 with h1 | h1
    · exact .inr (.inl h1)
    · exact .inr (.inr (.inl h1))
  rw [if_neg h1]
  obtain ⟨hpos, hsize⟩ := not_or.mp h1
  refine (raisesOr_ok_iff ht).trans ?_
  rw [or_iff_right h0, or_iff_right hpos, or_iff_right hsize]
  by_cases hin : 1 ≤ pos.toInt ∧ pos.toInt ≤ vals.length
  · obtain ⟨hone, hn⟩ := hin
    rw [removesInside_iff hb hl hone hn]
    exact ⟨fun ha => ⟨hone, hn, ha⟩, fun ha => ha.2.2⟩
  · refine iff_of_false ?_ fun ha => hin ⟨ha.1, ha.2.1⟩
    rintro ⟨hr, -⟩
    rw [atKey_seqAt_of_not hin, ExecResult.ret.injEq, ← List.getElem?_map, hl.views.values,
      List.getElem?_map, List.getElem?_eq_getElem (by omega)] at hr
    exact hl.values _ (List.getElem_mem _) hr

end Remove

/-! ### Sorting -/

section Sorts
variable {R : Rec} {s : LuaState} {tid : ℕ} {t : TableRec} {l : List (Option ℕ × Value)} {vals : List Value}

/-- The default order touches nothing. -/
theorem exec_sortLess_none (a b : Value) (w : LuaState) :
    R.exec (sortLess none a b) w = .ok (defaultLess w.toHeap a b) w := by
  change R.exec (get >>= _) w = _
  rw [exec_bind, exec_get, bind_ok (getMachine_apply w)]
  rfl

/-- The states with other slots in the table. -/
def OtherSlots (s : LuaState) (tid : ℕ) (t : TableRec) (w : LuaState) : Prop := ∃ slots, w = s.withSlots tid t slots

theorem harmless_none (ht : s.tbls[tid]? = some t) : Harmless R none tid (OtherSlots s tid t) where
  stays w a b hw := by
    rw [exec_sortLess_none]
    exact hw
  table w a b hw := by
    rw [exec_sortLess_none]
    rfl
  writes w u slots hw hu := by
    obtain ⟨old, rfl⟩ := hw
    obtain rfl := Option.some.inj ((withSlots_tbl ht old).symm.trans hu)
    refine ⟨slots, ?_⟩
    unfold LuaState.withSlots
    dsimp only
    rw [List.set_set]

theorem answers_none (S : Set Value) : Answers (Compares R none (OtherSlots s tid t))
    (fun a b => defaultLess s.toHeap a b = true) S := by
  rintro a - b - r ⟨w, w', ⟨slots, rfl⟩, he⟩
  rw [exec_sortLess_none] at he
  cases he
  rfl

/-- **`table.sort` by key**, exactly when the table has no other entries. -/
theorem sortsByKey_iff (ht : s.tbls[tid]? = some t) (hl : IsList t.slots l vals) :
    SortsByKey s tid t vals (R.exec (tableSort [.table tid]) s) ↔ Unnamed l := by
  have hends := sortTable_ends (harmless_none (R := R) ht) ⟨t.slots, (withSlots_self ht).symm⟩ ht
  change SortsByKey s tid t vals (R.exec (sortTable none tid) s) ↔ _
  cases hr : R.exec (sortTable none tid) s with
  | error e s' =>
    rw [hr] at hends
    obtain ⟨k, x, m, -, hrun⟩ := hends
    obtain ⟨a, b, w, w', -, he⟩ := hrun.error _ rfl
    rw [exec_sortLess_none] at he
    cases he
  | ok r s' =>
    rw [hr] at hends
    obtain ⟨rfl, ⟨slots, rfl⟩, m, ht', hrun⟩ := hends
    obtain rfl := congrArg TableRec.slots (Option.some.inj ((withSlots_tbl ht slots).symm.trans ht'))
    have hlen := hl.length_le
    have hm : m.Perm (l.map Prod.snd) := hl.views.values ▸ hrun.perm
    have hws : 0 + m.length ≤ 64 := by
      rw [hm.length_eq, List.length_map, ← hl.views.length]
      omega
    have hiff := number_iff hl.holds hl.values hm
    refine (raisesOr_ok_iff ht).trans ⟨?_, fun hu => ⟨rfl, m, ?_, ?_, ?_⟩⟩
    · rintro ⟨-, vs, hp, -, hbec⟩
      have hvs : vs.length ≤ 64 := by
        rw [hp.length_eq]
        omega
      exact hiff.mp ⟨vs, hp, (hl.becomes_iff hws hvs fun _ => hbec.named).mp hbec⟩
    · exact hm.trans (hl.holds.values_perm hu)
    · intro ho
      have hperm : (t.slots.map Prod.snd).Perm vals := hl.views.values ▸ hl.holds.values_perm hu
      refine hrun.sorted ho (answers_none _) (fun a ha => hperm.mem_iff.mp ha) ?_
      unfold Sorted
      cases t.slots.map Prod.snd <;> simp
    · have hvs : m.length ≤ 64 := by omega
      refine (hl.becomes_iff hws hvs fun _ => hl.sameNamed hu hws).mpr fun i => ?_
      rw [lookup, splice, List.take_zero, List.nil_append, get_number, if_pos (Nat.zero_le i), Nat.sub_zero]
      rfl

end Sorts

/-! ### All three -/

/-- `{10, x = 1}`. -/
def listAndField : TableRec where
  slots := [(.num 1, .num 10), (.str 5, .num 1)]

def listAndFieldEntries : List (Option ℕ × Value) := [(some 0, .num 10), (none, .num 1)]

/-- The state with one table. -/
def withTable (t : TableRec) : LuaState where
  tbls := [t]

theorem isList_listAndField : IsList listAndField.slots listAndFieldEntries [.num 10] where
  views := .cons ⟨keyOf_num (by norm_num), rfl⟩ (.cons ⟨keyOf_str 5, rfl⟩ .nil)
  holds := by
    refine ⟨by simp [listAndFieldEntries], fun m => ?_⟩
    cases m <;> simp [Store.Assoc.get, listAndFieldEntries]
  values := by simp [listAndFieldEntries]
  room := by decide

end Lua
end Rustrapper

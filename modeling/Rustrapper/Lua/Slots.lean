/-
# Raw tables are maps in insertion order

`raw_get`, `raw_set` and the builtin `next` on tables whose keys are no
floats. There `val_eq` is equality of keys, and the live slots are a list of
named entries (`Store/Assoc.lean`): `raw_set` puts, takes out or appends. After
any assignments to a fresh table, failing ones included, the slots are the
replay of those that took place (`Store/History.lean`), and a traversal with
`next` goes through them in order.
-/
import Rustrapper.Lua.Steps
import Rustrapper.Store.History

namespace Rustrapper
namespace Lua

open Store

/-! ### Keys that are no floats -/

/-- The value is a floating-point number. -/
def Value.isFloat : Value → Bool
  | .float _ => true
  | _ => false

/-- Keys that are no floats are equal when they are the same. -/
theorem valEq_of_not_float {a b : Value} (ha : a.isFloat = false) (hb : b.isFloat = false) :
    valEq a b = decide (a = b) := by
  unfold valEq
  split
  · cases hb
  · cases ha
  · cases ha
  · rfl

/-- No key of the slots is a float. -/
def NoFloats (slots : List (Value × Value)) : Prop := ∀ p ∈ slots, p.1.isFloat = false

theorem NoFloats.head {p : Value × Value} {slots : List (Value × Value)} (h : NoFloats (p :: slots)) :
    p.1.isFloat = false := h p List.mem_cons_self

theorem NoFloats.tail {p : Value × Value} {slots : List (Value × Value)} (h : NoFloats (p :: slots)) :
    NoFloats slots := fun q hq => h q (List.mem_cons_of_mem _ hq)

section Slots
variable {slots : List (Value × Value)} {k : Value}

theorem slotGet_eq (h : NoFloats slots) (hk : k.isFloat = false) :
    slotGet slots k = (Assoc.get slots k).getD .nil := by
  unfold slotGet
  congr 1
  induction slots with
  | nil => rfl
  | cons p slots ih =>
    rw [List.find?_cons, valEq_of_not_float h.head hk, Assoc.get]
    by_cases hp : p.1 = k
    · simp [hp]
    · simpa [hp] using ih h.tail

theorem slotHas_eq (h : NoFloats slots) (hk : k.isFloat = false) :
    slotHas slots k = true ↔ k ∈ Assoc.keys slots := by
  unfold slotHas Assoc.keys
  rw [List.any_eq_true, List.mem_map]
  refine exists_congr fun p => and_congr_right fun hp => ?_
  rw [valEq_of_not_float (h p hp) hk, decide_eq_true_eq]

theorem slotErase_eq (h : NoFloats slots) (hk : k.isFloat = false) :
    slotErase k slots = Assoc.remove slots k := by
  induction slots with
  | nil => rfl
  | cons p slots ih =>
    unfold slotErase Assoc.remove
    rw [valEq_of_not_float h.head hk, ih h.tail]
    simp

theorem updateFirst_eq (h : NoFloats slots) (hk : k.isFloat = false) (hm : k ∈ Assoc.keys slots)
    (v : Value) :
    updateFirst (fun p => valEq p.1 k) (fun p => (p.1, v)) slots = Assoc.put slots k v := by
  induction slots with
  | nil => cases hm
  | cons p slots ih =>
    unfold updateFirst Assoc.put
    rw [valEq_of_not_float h.head hk]
    by_cases hp : p.1 = k
    · simp [hp]
    · have hm : k ∈ Assoc.keys slots := by
        rcases List.mem_cons.mp hm with he | hm
        · exact absurd he.symm hp
        · exact hm
      simpa [hp] using ih h.tail hm

/-! ### Assignments -/

/-- An assignment as an entry of a history: `nil` takes the key out. -/
def asOp (op : Value × Value) : Value × Option Value :=
  (op.1, if op.2 = .nil then none else some op.2)

/-- `raw_set` on slots, where a key is no NaN. -/
theorem slotSet_of_not_float (hk : k.isFloat = false) (v : Value) :
    slotSet slots k v =
      if k = .nil then .error "table index is nil"
      else if slotHas slots k then
        .ok (if v = .nil then slotErase k slots
          else updateFirst (fun p => valEq p.1 k) (fun p => (p.1, v)) slots)
      else if v = .nil then .ok slots
      else if slots.length ≥ TABLE_SLOTS then .error "table full"
      else .ok (slots ++ [(k, v)]) := by
  cases k with
  | float f => cases hk
  | _ => rfl

/-- **`raw_set` on slots** performs the assignment, or fails. -/
theorem slotSet_eq_ok (h : NoFloats slots) (hk : k.isFloat = false) {v : Value}
    {slots' : List (Value × Value)} (hs : slotSet slots k v = .ok slots') :
    k ≠ .nil ∧ slots' = History.apply slots (asOp (k, v)) := by
  rw [slotSet_of_not_float hk] at hs
  by_cases hn : k = .nil
  · rw [if_pos hn] at hs
    cases hs
  rw [if_neg hn] at hs
  refine ⟨hn, ?_⟩
  unfold asOp
  by_cases hm : k ∈ Assoc.keys slots
  · rw [if_pos ((slotHas_eq h hk).mpr hm)] at hs
    have hs := Except.ok.inj hs
    by_cases hv : v = .nil
    · rw [← hs, if_pos hv, if_pos hv, slotErase_eq h hk]
      rfl
    · rw [← hs, if_neg hv, if_neg hv, updateFirst_eq h hk hm]
      rfl
  · rw [if_neg (fun hh => hm ((slotHas_eq h hk).mp hh))] at hs
    by_cases hv : v = .nil
    · rw [if_pos hv] at hs
      rw [← Except.ok.inj hs, if_pos hv]
      exact (Assoc.remove_of_not_mem hm).symm
    · rw [if_neg hv] at hs
      split_ifs at hs with hfull
      rw [← Except.ok.inj hs, if_neg hv]
      exact (Assoc.put_of_not_mem hm v).symm

theorem noFloats_iff : NoFloats slots ↔ ∀ k ∈ Assoc.keys slots, k.isFloat = false := by
  unfold NoFloats Assoc.keys
  simp

theorem NoFloats.apply (h : NoFloats slots) (hk : k.isFloat = false) (v : Option Value) :
    NoFloats (History.apply slots (k, v)) := by
  rw [noFloats_iff] at h ⊢
  intro j hj
  rcases v with _ | v
  · exact h j (Assoc.keys_remove_subset slots k hj)
  · rcases Assoc.mem_keys_put hj with rfl | hj
    · exact hk
    · exact h j hj

end Slots

/-! ### The functions on the state -/

section State
variable (R : Rec) {s : LuaState} {tid : ℕ} {t : TableRec}

theorem exec_tableRec (ht : s.tbls[tid]? = some t) : R.exec (tableRec tid) s = .ok t s := by
  simp only [tableRec, exec_bind, exec_get, bind_apply, getMachine_apply, exec_orFault, ht]

/-- The table that is read is there. -/
theorem tableRec_ok {w : LuaState} (h : R.exec (tableRec tid) s = .ok t w) :
    s.tbls[tid]? = some t ∧ w = s := by
  rw [tableRec, exec_bind, exec_get, bind_apply, getMachine_apply] at h
  dsimp only at h
  rw [exec_orFault] at h
  cases ht : s.tbls[tid]? with
  | none =>
    rw [ht] at h
    cases h
  | some t' =>
    rw [ht] at h
    cases h
    exact ⟨rfl, rfl⟩

theorem exec_rawGet (ht : s.tbls[tid]? = some t) (k : Value) :
    R.exec (rawGet tid k) s = .ok (slotGet t.slots k) s := by
  rw [rawGet, exec_bind, bind_ok (exec_tableRec R ht)]
  rfl

/-- The state with other slots in a table. -/
def LuaState.withSlots (s : LuaState) (tid : ℕ) (t : TableRec) (slots : List (Value × Value)) : LuaState :=
  { s with tbls := s.tbls.set tid { t with slots := slots } }

theorem withSlots_tbl (ht : s.tbls[tid]? = some t) (slots : List (Value × Value)) :
    (s.withSlots tid t slots).tbls[tid]? = some { t with slots := slots } := by
  obtain ⟨hlt, -⟩ := List.getElem?_eq_some_iff.mp ht
  unfold LuaState.withSlots
  simp [hlt]

theorem exec_rawSet (ht : s.tbls[tid]? = some t) (k v : Value) :
    R.exec (rawSet tid k v) s = match slotSet t.slots k v with
      | .error m => .error (.lua (.msg m)) s
      | .ok slots => .ok () (s.withSlots tid t slots) := by
  rw [rawSet, exec_bind, bind_ok (exec_tableRec R ht)]
  cases slotSet t.slots k v with
  | error m => rfl
  | ok slots =>
    rw [exec_modify, bind_apply]
    rfl

/-- The call `next(table, index)`. -/
theorem exec_next (L : Lib) (ht : s.tbls[tid]? = some t) (k : Value) (base : ℕ) :
    R.exec (native L 3 [.table tid, k] base) s = match nextSlot t.slots k with
      | none => .error (.lua (.msg "invalid key to 'next'")) s
      | some none => .ok (.ret .nil) s
      | some (some (k, v)) => .ok (.ret2 k v) s := by
  change R.exec (tableRec tid >>= _) s = _
  rw [exec_bind, bind_ok (exec_tableRec R ht), List.headD_cons]
  rcases nextSlot t.slots k with _ | _ | ⟨k, v⟩ <;> rfl

end State

/-! ### Any assignments to a fresh table -/

/-- The assignments in order; those that fail are passed over, the others are the result. -/
def setAll (tid : ℕ) : List (Value × Value) → LuaM (List (Value × Value))
  | [] => pure []
  | (k, v) :: ops => do
    match ← attempt (rawSet tid k v) with
    | .ok () => do pure ((k, v) :: (← setAll tid ops))
    | .error _ => setAll tid ops

/-- The calls `next(t, k)`, `next(t, k')` with the key `k'` that one returns, and so on, until one
returns `nil`: what they return on the way. -/
inductive Traverses (R : Rec) (L : Lib) (tid base : ℕ) (s : LuaState) :
    Value → List (Value × Value) → Prop
  | stop {k : Value} (h : R.exec (native L 3 [.table tid, k] base) s = .ok (.ret .nil) s) :
      Traverses R L tid base s k []
  | step {k k' v : Value} {l : List (Value × Value)}
      (h : R.exec (native L 3 [.table tid, k] base) s = .ok (.ret2 k' v) s)
      (rest : Traverses R L tid base s k' l) : Traverses R L tid base s k ((k', v) :: l)

section Run
variable {R : Rec} {s : LuaState} {tid : ℕ} {h : List (Value × Option Value)}

/-- The table's slots are what a history of assignments leaves. -/
def Replayed (tid : ℕ) (h : List (Value × Option Value)) (s : LuaState) : Prop :=
  ∃ t, s.tbls[tid]? = some t ∧ t.slots = History.replay h ∧ NoFloats t.slots

/-- One assignment: it takes place and joins the history, or fails and changes nothing. -/
theorem Replayed.rawSet (hs : Replayed tid h s) {k : Value} (hk : k.isFloat = false) (v : Value) :
    (∃ s', R.exec (rawSet tid k v) s = .ok () s' ∧ k ≠ .nil ∧ Replayed tid (h ++ [asOp (k, v)]) s') ∨
      ∃ m, R.exec (Lua.rawSet tid k v) s = .error (.lua (.msg m)) s := by
  obtain ⟨t, ht, hslots, hf⟩ := hs
  rw [exec_rawSet R ht]
  cases hset : slotSet t.slots k v with
  | error m => exact .inr ⟨m, rfl⟩
  | ok slots =>
    obtain ⟨hn, hslots'⟩ := slotSet_eq_ok hf hk hset
    refine .inl ⟨_, rfl, hn, _, withSlots_tbl ht slots, ?_, ?_⟩
    · rw [hslots', hslots, History.replay_append]
    · rw [hslots']
      exact hf.apply hk _

/-- All assignments: those that took place are the history. -/
theorem Replayed.setAll {ops : List (Value × Value)} (hs : Replayed tid h s)
    (hk : ∀ op ∈ ops, op.1.isFloat = false) :
    ∃ done s', R.exec (setAll tid ops) s = .ok done s' ∧ done.Sublist ops ∧
      (∀ op ∈ done, op.1 ≠ .nil) ∧ Replayed tid (h ++ done.map asOp) s' := by
  induction ops generalizing s h with
  | nil => exact ⟨[], s, rfl, List.Sublist.refl _, by simp, by simpa using hs⟩
  | cons op ops ih =>
    obtain ⟨k, v⟩ := op
    have hrest : ∀ op ∈ ops, op.1.isFloat = false := fun op hop => hk op (List.mem_cons_of_mem _ hop)
    rw [Lua.setAll, exec_bind, exec_attempt]
    rcases hs.rawSet (R := R) (hk (k, v) List.mem_cons_self) v with ⟨s', he, hn, hs'⟩ | ⟨m, he⟩
    · obtain ⟨done, s'', hrun, hsub, hnil, hs''⟩ := ih hs' hrest
      have hc : catchLua (R.exec (Lua.rawSet tid k v)) s = .ok (.ok ()) s' := by rw [catchLua, he]
      rw [bind_ok hc]
      refine ⟨(k, v) :: done, s'', ?_, hsub.cons_cons _, ?_, by simpa using hs''⟩
      · rw [exec_bind, bind_ok hrun]
        rfl
      · intro op hop
        rcases List.mem_cons.mp hop with rfl | hop
        · exact hn
        · exact hnil op hop
    · obtain ⟨done, s'', hrun, hsub, hnil, hs''⟩ := ih hs hrest
      have hc : catchLua (R.exec (Lua.rawSet tid k v)) s = .ok (.error (.msg m)) s := by rw [catchLua, he]
      rw [bind_ok hc]
      exact ⟨done, s'', hrun, hsub.cons _, hnil, hs''⟩

/-- What is read is the last value assigned. -/
theorem Replayed.rawGet (hs : Replayed tid h s) {k : Value} (hk : k.isFloat = false) :
    R.exec (rawGet tid k) s = .ok ((History.latest h k).getD .nil) s := by
  obtain ⟨t, ht, hslots, hf⟩ := hs
  rw [exec_rawGet R ht, slotGet_eq hf hk, hslots, History.get_replay]

/-! ### Traversals -/

/-- The slot behind a key that stands in one place only. -/
theorem nextSlot_mid {before after : List (Value × Value)} {k v : Value} (hk : k ≠ .nil)
    (hf : NoFloats (before ++ (k, v) :: after))
    (hd : (Assoc.keys (before ++ (k, v) :: after)).Nodup) :
    nextSlot (before ++ (k, v) :: after) k = some after[0]? := by
  have hkf : k.isFloat = false := hf (k, v) (by simp)
  unfold nextSlot
  have hfind : (before ++ (k, v) :: after).findIdx? (fun p => valEq p.1 k) = some before.length := by
    apply List.findIdx?_eq_some_iff_getElem.mpr
    refine ⟨by simp, ?_, ?_⟩
    · simp [valEq_of_not_float hkf hkf]
    · intro j hj
      rw [List.getElem_append_left hj, valEq_of_not_float (hf _ (by simp)) hkf, decide_eq_true_eq]
      intro he
      unfold Assoc.keys at hd
      rw [List.map_append, List.nodup_append] at hd
      exact hd.2.2 _ (List.mem_map_of_mem (List.getElem_mem hj)) k (by simp) he
  rw [if_neg hk, hfind, Option.map_some, List.getElem?_append_right (Nat.le_succ _)]
  simp

/-- The traversal from a key goes through the slots behind it. -/
theorem traverses_behind (L : Lib) (base : ℕ) {t : TableRec} (ht : s.tbls[tid]? = some t)
    (hf : NoFloats t.slots) (hd : (Assoc.keys t.slots).Nodup) (hn : ∀ p ∈ t.slots, p.1 ≠ .nil) :
    ∀ (after before : List (Value × Value)) (k v : Value), t.slots = before ++ (k, v) :: after →
      Traverses R L tid base s k after
  | [], before, k, v, he => by
    have hnext := exec_next R L ht k base
    rw [he] at hf hd hn hnext
    rw [nextSlot_mid (hn (k, v) (by simp)) hf hd] at hnext
    exact .stop hnext
  | (k', v') :: after, before, k, v, he => by
    have hnext := exec_next R L ht k base
    have hrest := traverses_behind L base ht hf hd hn after (before ++ [(k, v)]) k' v' (by simp [he])
    rw [he] at hf hd hn hnext
    rw [nextSlot_mid (hn (k, v) (by simp)) hf hd] at hnext
    exact .step hnext hrest

/-- The traversal from `nil` goes through all slots. -/
theorem traverses_all (L : Lib) (base : ℕ) {t : TableRec} (ht : s.tbls[tid]? = some t)
    (hf : NoFloats t.slots) (hd : (Assoc.keys t.slots).Nodup) (hn : ∀ p ∈ t.slots, p.1 ≠ .nil) :
    Traverses R L tid base s .nil t.slots := by
  have hnext := exec_next R L ht .nil base
  have hfirst : nextSlot t.slots .nil = some t.slots[0]? := by rw [nextSlot, if_pos rfl]
  rw [hfirst] at hnext
  cases he : t.slots with
  | nil =>
    rw [he] at hnext
    exact .stop hnext
  | cons p slots =>
    rw [he] at hnext
    exact .step hnext (traverses_behind L base ht hf hd hn slots [] p.1 p.2 he)

/-- Traversals from the same key return the same. -/
theorem Traverses.unique {L : Lib} {base : ℕ} {k : Value} {l l' : List (Value × Value)}
    (hl : Traverses R L tid base s k l) (hl' : Traverses R L tid base s k l') : l = l' := by
  induction hl generalizing l' with
  | stop h =>
    cases hl' with
    | stop => rfl
    | step h' => exact absurd (h.symm.trans h') (by simp)
  | step h _ ih =>
    cases hl' with
    | stop h' => exact absurd (h.symm.trans h') (by simp)
    | step h' rest =>
      have he := h.symm.trans h'
      simp only [EStateM.Result.ok.injEq, ExecResult.ret2.injEq] at he
      obtain ⟨⟨rfl, rfl⟩, -⟩ := he
      rw [ih rest]

end Run

/-! ### The map -/

/-- The table is the map of a history: what is read, what an assignment to another key leaves, what
a failing one leaves, and what a traversal finds. -/
structure MapOf (R : Rec) (L : Lib) (tid base : ℕ) (h : List (Value × Option Value)) (s : LuaState) :
    Prop where
  get : ∀ k, k.isFloat = false → R.exec (rawGet tid k) s = .ok ((History.latest h k).getD .nil) s
  other : ∀ k j v s', k.isFloat = false → j.isFloat = false → j ≠ k →
    R.exec (rawSet tid k v) s = .ok () s' →
      ∃ w, R.exec (rawGet tid j) s = .ok w s ∧ R.exec (rawGet tid j) s' = .ok w s'
  fails : ∀ k v e s', k.isFloat = false → R.exec (rawSet tid k v) s = .error e s' → s' = s
  traversal : ∃ entries, Traverses R L tid base s .nil entries ∧ (Assoc.keys entries).Nodup ∧
    (∀ k v, (k, v) ∈ entries ↔ History.latest h k = some v) ∧
    (∀ k ∈ Assoc.keys entries, ∃ i, History.BornAt h k i) ∧
    (Assoc.keys entries).Pairwise (History.Older h)

theorem Replayed.mapOf {R : Rec} (L : Lib) (base : ℕ) {tid : ℕ} {h : List (Value × Option Value)}
    {s : LuaState} (hs : Replayed tid h s) (hn : ∀ op ∈ h, op.1 ≠ .nil) : MapOf R L tid base h s where
  get k hk := hs.rawGet hk
  other k j v s' hk hj hne hset := by
    have hs' : Replayed tid (h ++ [asOp (k, v)]) s' := by
      rcases hs.rawSet (R := R) hk v with ⟨_, he, -, hs'⟩ | ⟨_, he⟩
      · rw [hset] at he
        cases he
        exact hs'
      · rw [hset] at he
        cases he
    have hget := hs'.rawGet (R := R) hj
    rw [History.latest_append, if_neg (fun he => hne he.symm)] at hget
    exact ⟨_, hs.rawGet hj, hget⟩
  fails k v e s' hk hset := by
    rcases hs.rawSet (R := R) hk v with ⟨_, he, -⟩ | ⟨_, he⟩
    · rw [hset] at he
      cases he
    · rw [hset] at he
      cases he
      rfl
  traversal := by
    obtain ⟨t, ht, hslots, hf⟩ := hs
    have hd : (Assoc.keys t.slots).Nodup := by
      rw [hslots]
      exact History.nodup_replay h
    have hnil : ∀ p ∈ t.slots, p.1 ≠ .nil := by
      intro p hp
      rw [hslots] at hp
      exact History.keys_of_replay (p := fun k => k ≠ .nil) hn p.1 (List.mem_map_of_mem hp)
    refine ⟨t.slots, traverses_all L base ht hf hd hnil, hd, ?_, ?_, ?_⟩
    · intro k v
      rw [Assoc.mem_iff_get hd, hslots, History.get_replay]
    · intro k hk
      rw [hslots, ← History.latest_isSome_iff] at hk
      exact History.exists_bornAt hk
    · rw [hslots]
      exact History.older_replay h

end Lua
end Rustrapper

/-
# The length of a list

`rawlen` counts the integer keys from 1 on; `table.insert(t, v)`,
`table.remove(t)`, `table.unpack(t)` and `table.concat(t, sep)` take the number
of live slots for the length. They agree on a table that holds a list exactly
when it has no other entries, `table.remove` when the last slot is that of the
last key (`list_functions_agree`). `table.pack` adds a field, so
`table.unpack` of its table has one value too many.
-/
import Rustrapper.Lua.ListOps

namespace Rustrapper
namespace Lua

open Store.Sequence

/-! ### What the functions are for -/

/-- A call stores `v` behind the list. -/
def StoresNext (s : LuaState) (tid : ℕ) (t : TableRec) (n : ℕ) (v : Value)
    (r : EStateM.Result Stop LuaState ExecResult) : Prop :=
  ∃ slots, r = .ok .normal (s.withSlots tid t slots) ∧ slotGet slots (.num (Int64.ofNat (n + 1))) = v

/-- A call removes the last value of the list and returns it. -/
def RemovesLast (s : LuaState) (tid : ℕ) (t : TableRec) (vals : List Value)
    (r : EStateM.Result Stop LuaState ExecResult) : Prop :=
  ∃ slots, r = .ok (.ret (vals.getLast?.getD .nil)) (s.withSlots tid t slots) ∧ Becomes t.slots slots vals.dropLast

/-- A call returns these values. -/
def Returns (vs : List Value) : EStateM.Result Stop LuaState ExecResult → Prop
  | .ok .normal _ => vs = []
  | .ok (.retN n) s => n ≤ s.vstack.length ∧ (s.vstack.take n).reverse = vs
  | _ => False

/-- A call returns the string with these bytes: the reference `intern` gives. -/
def ReturnsString (R : Rec) (s : LuaState) (b : List UInt8) (r : EStateM.Result Stop LuaState ExecResult) : Prop :=
  ∃ ref s', R.exec (intern b) s = .ok ref s' ∧ r = .ok (.ret (.str ref)) s'

/-- A value `table.concat` is claimed for. -/
def Value.isStringOrInteger : Value → Bool
  | .str _ | .num _ => true
  | _ => false

/-- The bytes of values, with a separator between them. -/
def joined (L : Lib) (h : Heap) (sep : List UInt8) (vals : List Value) : List UInt8 :=
  sep.intercalate (vals.map fun v => (concatBytes L h v).getD [])

/-! ### rawlen -/

theorem takeWhile_range_length {p : ℕ → Bool} {n k : ℕ} (hn : n ≤ k) (h : ∀ i < n, p i = true)
    (hstop : n < k → p n = false) : ((List.range k).takeWhile p).length = n := by
  obtain ⟨d, rfl⟩ := Nat.exists_eq_add_of_le hn
  rw [List.range_add, List.takeWhile_append_of_pos (fun i hi => h i (List.mem_range.mp hi))]
  cases d with
  | zero => simp
  | succ d =>
    rw [List.range_succ_eq_map, List.map_cons, List.takeWhile_cons_of_neg (by simp [hstop])]
    simp

section Lists
variable {R : Rec} {s : LuaState} {tid bits : ℕ} {t : TableRec} {l : List (Option ℕ × Value)} {vals : List Value}

theorem IsList.slotGet (hl : IsList t.slots l vals) {i : ℕ} (hi : i < 2 ^ 62) :
    slotGet t.slots (.num (Int64.ofNat (i + 1))) = seqAt vals i := by
  rw [hl.views.get, atKey, toInt_ofNat_succ (by omega), if_neg (by omega),
    show ((i : ℤ) + 1).toNat - 1 = i by omega, lookup, hl.holds.get]
  rfl

theorem IsList.seqAt_ne (hl : IsList t.slots l vals) {i : ℕ} (hi : i < vals.length) : seqAt vals i ≠ .nil := by
  rw [seqAt, List.getElem?_eq_getElem hi]
  exact hl.holds.values hl.values _ (List.getElem_mem hi)

theorem seqAt_of_ge {i : ℕ} (hi : vals.length ≤ i) : seqAt vals i = .nil := by
  rw [seqAt, List.getElem?_eq_none hi]
  rfl

/-- `rawlen` is the length of the list. -/
theorem rawLen_eq (hl : IsList t.slots l vals) : rawLen t.slots = vals.length := by
  have hlen := hl.length_le
  unfold rawLen TABLE_SLOTS
  refine takeWhile_range_length (by omega) (fun i hi => ?_) fun hn => ?_
  · rw [decide_eq_true_eq, hl.slotGet (by omega)]
    exact hl.seqAt_ne hi
  · rw [decide_eq_false_iff_not, not_not, hl.slotGet (by omega)]
    exact seqAt_of_ge le_rfl

/-! ### Insertion and removal at the end -/

theorem storesNext_iff (hb : bits = 32 ∨ bits = 64) (ht : s.tbls[tid]? = some t) (hl : IsList t.slots l vals)
    (v : Value) :
    StoresNext s tid t vals.length v (R.exec (tableInsert bits [.table tid, v]) s) ↔
      t.slots.length < TABLE_SLOTS ∧ (Unnamed l ∨ v = .nil) := by
  have hlen := hl.length_le
  have hll := hl.views.length
  have hpos := toInt_ofNat_succ (i := t.slots.length) (by omega)
  have hcast : asUsize bits (Int64.ofNat (t.slots.length + 1)) = t.slots.length + 1 := by
    rw [asUsize_of_small hb (by omega) (by omega), hpos]
    omega
  change StoresNext s tid t vals.length v (R.exec (tableRec tid >>= _) s) ↔ _
  rw [exec_bind, bind_ok (exec_tableRec R ht), exec_insertPos ht, hcast, hpos, if_neg (by omega),
    Nat.add_sub_cancel]
  by_cases hfull : t.slots.length ≥ TABLE_SLOTS
  · rw [if_pos hfull]
    refine iff_of_false ?_ (fun h => by omega)
    rintro ⟨slots, he, -⟩
    cases he
  rw [if_neg hfull, if_neg (by omega), and_iff_right (by omega)]
  have hget : slotGet (insertSlots t.slots t.slots.length v) (.num (Int64.ofNat (vals.length + 1))) =
      lookup .nil (l ++ [(some l.length, v)]) vals.length := by
    have hviews : Views (insertSlots t.slots t.slots.length v) (l ++ [(some l.length, v)]) := by
      rw [insertSlots, List.take_length, List.drop_length, hll]
      exact List.rel_append hl.views (.cons ⟨keyOf_num (by omega), rfl⟩ .nil)
    rw [hviews.get, atKey, toInt_ofNat_succ (by omega), if_neg (by omega)]
    congr 1
  rw [← lookup_append_iff (d := .nil) hl.holds v, ← hget]
  constructor
  · rintro ⟨slots, he, hv⟩
    injection he with _ he
    exact withSlots_inj ht he ▸ hv
  · exact fun hv => ⟨_, rfl, hv⟩

/-- The last slot. -/
theorem Views.concat {slots : List (Value × Value)} {e : Option ℕ × Value} (h : Views slots (l ++ [e])) :
    ∃ front q, slots = front ++ [q] ∧ Views front l ∧ KeyOf q.1 e.1 ∧ q.2 = e.2 := by
  have hlen := h.length
  rw [List.length_append, List.length_singleton] at hlen
  rcases List.eq_nil_or_concat slots with rfl | ⟨front, q, rfl⟩
  · cases hlen
  rw [List.concat_eq_append] at *
  rw [List.length_append, List.length_singleton] at hlen
  have htake := List.forall₂_take front.length h
  have hdrop := List.forall₂_drop front.length h
  rw [List.take_left' rfl, List.take_left' (by omega)] at htake
  rw [List.drop_left' rfl, List.drop_left' (by omega)] at hdrop
  cases hdrop with
  | cons hq _ => exact ⟨front, q, rfl, htake, hq⟩

theorem removesLast_iff (ht : s.tbls[tid]? = some t) (hl : IsList t.slots l vals) :
    RemovesLast s tid t vals (R.exec (tableRemove bits [.table tid]) s) ↔
      l = [] ∨ l.getLast?.map Prod.fst = some (some (vals.length - 1)) := by
  have hlen := hl.length_le
  have hll := hl.views.length
  change RemovesLast s tid t vals (R.exec (tableRec tid >>= _) s) ↔ _
  rw [exec_bind, bind_ok (exec_tableRec R ht), exec_ite]
  rcases List.eq_nil_or_concat l with rfl | ⟨init, e, rfl⟩
  · have hslots : t.slots = [] := List.length_eq_zero_iff.mp hll
    rw [hslots] at hlen
    have hvals : vals = [] := List.length_eq_zero_iff.mp (Nat.le_zero.mp hlen.1)
    rw [if_pos (by rw [hslots]; rfl)]
    refine iff_of_true ⟨t.slots, ?_, ?_⟩ (.inl rfl)
    · rw [withSlots_self ht, hvals]
      rfl
    · rw [hslots, hvals]
      exact becomes_nil
  rw [List.concat_eq_append] at *
  obtain ⟨front, q, hslots, hviews, hq, hqv⟩ := hl.views.concat
  have hcount : t.slots.length = front.length + 1 := by rw [hslots, List.length_append, List.length_singleton]
  rw [if_neg (by omega), exec_removePos ht, if_neg (by omega), hcount, Nat.add_sub_cancel]
  have hget : (t.slots[front.length]?.map Prod.snd).getD .nil = e.2 := by
    rw [hslots, List.getElem?_concat_length, ← hqv]
    rfl
  have hremove : removeSlots t.slots front.length = front := by
    rw [removeSlots, hslots, List.take_left' rfl, List.drop_of_length_le (by simp)]
    exact List.append_nil _
  have hinit : ∀ m, vals.length ≤ m → lookup .nil init m = .nil := by
    intro m hm
    have hnone : Store.Assoc.get init (some m) = none := by
      apply (Store.Assoc.get_eq_none_iff _ _).mpr
      intro hk
      have hk' : some m ∈ Store.Assoc.keys (init ++ [e]) := List.map_subset Prod.fst (List.subset_append_left _ _) hk
      exact absurd (hl.holds.mem_keys.mp hk') (by omega)
    rw [lookup, hnone]
    rfl
  have hlist : (∀ j, Lua.slotGet front (.num j) = atKey (seqAt vals.dropLast) j) ↔
      ∀ m, lookup .nil init m = (vals.dropLast[m]?).getD .nil := by
    refine Iff.trans (forall_congr' fun j => ?_) (forall_atKey_iff (b := vals.length) (by omega) hinit (by simp))
    rw [hviews.get]
  have hcond : (∃ n, e.1 = some n ∧ vals.length = n + 1) ↔ init ++ [e] = [] ∨
      (init ++ [e]).getLast?.map Prod.fst = some (some (vals.length - 1)) := by
    rw [or_iff_right (by simp), List.getLast?_concat, Option.map_some, Option.some.injEq]
    constructor
    · rintro ⟨n, he, hn⟩
      rw [he, hn, Nat.add_sub_cancel]
    · intro he
      have hm : some (vals.length - 1) ∈ Store.Assoc.keys (init ++ [e]) := he ▸ List.mem_map_of_mem (by simp)
      have hpos := hl.holds.mem_keys.mp hm
      exact ⟨vals.length - 1, he, by omega⟩
  have hiff := removeLast_iff hl.holds hl.values
  rw [hget, hremove, ← hcond, ← hiff]
  constructor
  · rintro ⟨slots, he, hbec⟩
    injection he with hr hs
    obtain rfl := withSlots_inj ht hs
    exact ⟨ExecResult.ret.inj hr, hlist.mp hbec.list⟩
  · rintro ⟨hv, hlook⟩
    refine ⟨front, by rw [hv], hlist.mpr hlook, fun p hp => ?_⟩
    obtain ⟨n, he, hn⟩ := hiff.mp ⟨hv, hlook⟩
    rw [hslots, List.mem_append, List.mem_singleton]
    refine ⟨.inl, fun hm => ?_⟩
    rcases hm with hm | rfl
    · exact hm
    · -- the slot that went has a number
      exact absurd hp ((he ▸ hq).not_none (by omega))

/-! ### The whole list -/

theorem rangeKeys_eq (n : ℕ) :
    rangeKeys (1, n) = (List.range n).map fun i => .num (Int64.ofNat (i + 1)) := by
  unfold rangeKeys
  rw [show ((n : ℤ) + 1 - 1).toNat = n by omega, show ((1 : ℤ), (n : ℤ)).1.toNat = 1 from rfl, List.range'_eq_map_range,
    List.map_map]
  refine List.map_congr_left fun i _ => ?_
  rw [Function.comp_apply, Nat.add_comm]

/-- The values of the keys `1 .. len` are those of the list, and `nil` for every entry over. -/
theorem IsList.rangeValues (hl : IsList t.slots l vals) :
    (rangeKeys (1, t.slots.length)).map (Lua.slotGet t.slots) =
      vals ++ List.replicate (t.slots.length - vals.length) .nil := by
  have hlen := hl.length_le
  rw [rangeKeys_eq, List.map_map]
  apply List.ext_getElem?
  intro i
  by_cases hi : i < t.slots.length
  · rw [List.getElem?_map, List.getElem?_range hi, Option.map_some, Function.comp_apply, hl.slotGet (by omega)]
    by_cases hv : i < vals.length
    · rw [List.getElem?_append_left hv, seqAt, List.getElem?_eq_getElem hv]
      rfl
    · rw [List.getElem?_append_right (by omega), List.getElem?_replicate, if_pos (by omega), seqAt_of_ge (by omega)]
  · rw [List.getElem?_eq_none (by simpa using hi), List.getElem?_eq_none (by simp; omega)]

theorem exec_pushKeys (ht : s.tbls[tid]? = some t) (ks : List Value) :
    R.exec (pushKeys tid ks) s = R.exec (pushVals (ks.map (Lua.slotGet t.slots))) s := by
  induction ks generalizing s with
  | nil => rfl
  | cons k ks ih =>
    rw [pushKeys, exec_bind, bind_ok (exec_rawGet R ht k), List.map_cons, pushVals, exec_bind, exec_bind]
    by_cases h : s.vsp < STACK_CAP
    · rw [bind_ok (exec_pushVal R s _ h), bind_ok (exec_pushVal R s _ h)]
      exact ih ht
    · rw [bind_error (exec_pushVal_full R s _ h), bind_error (exec_pushVal_full R s _ h)]

/-- `table.unpack(t)` takes the whole table. -/
theorem exec_tableUnpack (ht : s.tbls[tid]? = some t) (hlen : t.slots.length ≤ TABLE_SLOTS) :
    R.exec (tableUnpack [.table tid]) s =
      if t.slots.length = 0 then .ok .normal s
      else (R.exec (pushKeys tid (rangeKeys (1, t.slots.length))) >>= fun _ =>
        pure (.retN t.slots.length)) s := by
  have hcap : t.slots.length ≤ 32 := hlen
  have hrange : clampRange 1 (Int64.ofNat t.slots.length) t.slots.length = (1, (t.slots.length : ℤ)) := by
    unfold clampRange
    rw [Int64.toInt_ofNat_of_lt (by omega), min_self]
    rfl
  change R.exec (tableRec tid >>= _) s = _
  rw [exec_bind, bind_ok (exec_tableRec R ht)]
  change R.exec (if (clampRange 1 (Int64.ofNat t.slots.length) t.slots.length).1 > _ then _ else _) s = _
  rw [hrange, exec_ite]
  by_cases h0 : t.slots.length = 0
  · rw [if_pos (by omega), if_pos h0]
    rfl
  · rw [if_neg (by omega), if_neg h0, exec_bind, show ((t.slots.length : ℤ) - 1 + 1).toNat % 256 = t.slots.length by omega]
    rfl

theorem returns_unpack_iff (ht : s.tbls[tid]? = some t) (hl : IsList t.slots l vals) :
    Returns vals (R.exec (tableUnpack [.table tid]) s) ↔
      Unnamed l ∧ (vals.length = 0 ∨ s.vsp + vals.length ≤ STACK_CAP) := by
  have hlen := hl.length_le
  have hll := hl.views.length
  have hun := hl.holds.unnamed_iff
  rw [exec_tableUnpack ht hl.room]
  by_cases h0 : t.slots.length = 0
  · rw [if_pos h0]
    refine iff_of_true (List.length_eq_zero_iff.mp (by omega)) ⟨hun.mpr (by omega), .inl (by omega)⟩
  rw [if_neg h0]
  have hpush := exec_pushKeys (R := R) ht (rangeKeys (1, t.slots.length))
  rw [hl.rangeValues] at hpush
  have hcount : (vals ++ List.replicate (t.slots.length - vals.length) Value.nil).length = t.slots.length := by
    rw [List.length_append, List.length_replicate]
    omega
  rcases pushVals_cases R s (vals ++ List.replicate (t.slots.length - vals.length) .nil) with ⟨hfit, he⟩ | ⟨hfit, he⟩
  · rw [bind_ok (hpush.trans he)]
    rw [hcount] at hfit
    have htake : ((vals ++ List.replicate (t.slots.length - vals.length) Value.nil).reverse ++ s.vstack).take
        t.slots.length = (vals ++ List.replicate (t.slots.length - vals.length) Value.nil).reverse :=
      List.take_left' (by rw [List.length_reverse, hcount])
    change _ ≤ _ ∧ _ = _ ↔ _
    rw [htake, List.reverse_reverse, List.length_append, List.length_reverse, hcount,
      and_iff_right (Nat.le_add_right _ _), hun]
    constructor
    · intro heq
      have hlv := congrArg List.length heq
      rw [hcount] at hlv
      exact ⟨by omega, by omega⟩
    · rintro ⟨hu, -⟩
      rw [show t.slots.length - vals.length = 0 by omega]
      simp
  · rw [bind_error (hpush.trans he)]
    refine iff_of_false id ?_
    rintro ⟨hu, hroom⟩
    have := hun.mp hu
    rw [hcount] at hfit
    omega

/-! ### Joining -/

/-- What the loop of `table.concat` adds to its buffer. -/
def rest (sep : List UInt8) : Bool → List (List UInt8) → List UInt8
  | _, [] => []
  | first, b :: bs => (if first then [] else sep) ++ b ++ rest sep false bs

theorem rest_false (sep : List UInt8) (bs : List (List UInt8)) : rest sep false bs = (bs.map (sep ++ ·)).flatten := by
  induction bs with
  | nil => rfl
  | cons b bs ih => simp [rest, ih]

theorem rest_true (sep : List UInt8) (bs : List (List UInt8)) : rest sep true bs = sep.intercalate bs := by
  cases bs with
  | nil => rfl
  | cons b bs =>
    rw [rest, rest_false, if_pos rfl, List.nil_append]
    induction bs generalizing b with
    | nil => simp [List.intercalate]
    | cons c bs ih =>
      rw [List.map_cons, List.flatten_cons, List.append_assoc, ih c]
      simp [List.intercalate]

theorem exec_concatAdd (out b : List UInt8) : R.exec (concatAdd out b) s =
    if (out ++ b).length ≤ CONCAT_CAP then .ok (out ++ b) s else .error (.lua (.msg "result too long")) s := by
  rw [concatAdd, exec_ite, List.length_append]
  split_ifs
  · omega
  · rfl
  · rfl
  · omega

theorem exec_concatItem (sep : List UInt8) (first : Bool) (out b : List UInt8) :
    R.exec (concatItem sep first out b) s =
      if (out ++ ((if first then [] else sep) ++ b)).length ≤ CONCAT_CAP then
        .ok (out ++ ((if first then [] else sep) ++ b)) s
      else .error (.lua (.msg "result too long")) s := by
  rw [concatItem, exec_ite]
  by_cases h : (first || sep.isEmpty) = true
  · have hsep : (if first = true then ([] : List UInt8) else sep) = [] := by
      cases first with
      | true => rfl
      | false => simpa using h
    rw [if_pos h, exec_concatAdd, hsep, List.nil_append]
  · have hfirst : first = false := by
      cases first with
      | true => simp at h
      | false => rfl
    rw [if_neg h, hfirst, if_neg Bool.false_ne_true, exec_bind, ← List.append_assoc]
    by_cases hs : (out ++ sep).length ≤ CONCAT_CAP
    · have hadd := exec_concatAdd (R := R) (s := s) out sep
      rw [if_pos hs] at hadd
      rw [bind_ok hadd, exec_concatAdd]
    · have hadd := exec_concatAdd (R := R) (s := s) out sep
      rw [if_neg hs] at hadd
      rw [bind_error hadd, if_neg (by rw [List.length_append]; omega)]

/-- The loop of `table.concat`, where all values have bytes. -/
theorem exec_concatLoop (L : Lib) (ht : s.tbls[tid]? = some t) (sep : List UInt8) {ks : List Value}
    {bs : List (List UInt8)} (hks : ks.map (fun k => concatBytes L s.toHeap (Lua.slotGet t.slots k)) = bs.map some)
    (first : Bool) (out : List UInt8) (hout : out.length ≤ CONCAT_CAP) :
    R.exec (concatLoop L tid sep first ks out) s =
      if (out ++ rest sep first bs).length ≤ CONCAT_CAP then .ok (out ++ rest sep first bs) s
      else .error (.lua (.msg "result too long")) s := by
  induction ks generalizing bs first out with
  | nil =>
    obtain rfl := List.map_eq_nil_iff.mp hks.symm
    rw [rest, List.append_nil, if_pos hout]
    rfl
  | cons k ks ih =>
    cases bs with
    | nil => cases hks
    | cons b bs =>
      rw [List.map_cons, List.map_cons] at hks
      obtain ⟨hb, hks⟩ := List.cons.inj hks
      rw [concatLoop, exec_bind, bind_ok (exec_rawGet R ht k), exec_bind, exec_get, bind_ok (getMachine_apply s)]
      rw [hb]
      dsimp only
      have hadd := exec_concatItem (R := R) (s := s) sep first out b
      have hsplit : out ++ rest sep first (b :: bs) =
          out ++ ((if first then [] else sep) ++ b) ++ rest sep false bs := by
        rw [rest]
        simp only [List.append_assoc]
      rw [exec_bind, hsplit]
      by_cases hitem : (out ++ ((if first then [] else sep) ++ b)).length ≤ CONCAT_CAP
      · rw [if_pos hitem] at hadd
        rw [bind_ok hadd]
        exact ih hks false _ hitem
      · rw [if_neg hitem] at hadd
        rw [bind_error hadd, if_neg (by rw [List.length_append]; omega)]

/-- A value without bytes is an error. -/
theorem exec_concatLoop_error (L : Lib) (ht : s.tbls[tid]? = some t) (sep : List UInt8) {ks : List Value}
    (hks : ∃ k ∈ ks, concatBytes L s.toHeap (Lua.slotGet t.slots k) = none) (first : Bool) (out : List UInt8) :
    ∃ e, R.exec (concatLoop L tid sep first ks out) s = .error e s := by
  induction ks generalizing first out with
  | nil => simp at hks
  | cons k ks ih =>
    rw [concatLoop, exec_bind, bind_ok (exec_rawGet R ht k), exec_bind, exec_get, bind_ok (getMachine_apply s)]
    cases hb : concatBytes L s.toHeap (Lua.slotGet t.slots k) with
    | none => exact ⟨_, rfl⟩
    | some b =>
      have hrest : ∃ k ∈ ks, concatBytes L s.toHeap (Lua.slotGet t.slots k) = none := by
        obtain ⟨k', hk', hnone⟩ := hks
        rcases List.mem_cons.mp hk' with rfl | hk'
        · rw [hb] at hnone
          cases hnone
        · exact ⟨k', hk', hnone⟩
      have hadd := exec_concatItem (R := R) (s := s) sep first out b
      dsimp only
      rw [exec_bind]
      by_cases hitem : (out ++ ((if first then [] else sep) ++ b)).length ≤ CONCAT_CAP
      · rw [if_pos hitem] at hadd
        rw [bind_ok hadd]
        exact ih hrest false _
      · rw [if_neg hitem] at hadd
        exact ⟨_, bind_error hadd _⟩

theorem exec_tableConcat (L : Lib) (ht : s.tbls[tid]? = some t) (hlen : t.slots.length ≤ TABLE_SLOTS) (r : StrRef) :
    R.exec (tableConcat L [.table tid, .str r]) s =
      if t.slots.length = 0 then R.exec (do pure (.ret (.str (← intern [])))) s
      else R.exec (do
        let out ← concatLoop L tid (s.toHeap.strBytes r) true (rangeKeys (1, t.slots.length)) []
        pure (.ret (.str (← intern out)))) s := by
  have hcap : t.slots.length ≤ 32 := hlen
  have hrange : clampRange 1 (Int64.ofNat t.slots.length) t.slots.length = (1, (t.slots.length : ℤ)) := by
    unfold clampRange
    rw [Int64.toInt_ofNat_of_lt (by omega), min_self]
    rfl
  change R.exec (tableRec tid >>= _) s = _
  rw [exec_bind, bind_ok (exec_tableRec R ht)]
  change R.exec (get >>= _) s = _
  rw [exec_bind, exec_get, bind_ok (getMachine_apply s)]
  change R.exec (if (clampRange 1 (Int64.ofNat t.slots.length) t.slots.length).1 > _ then _ else _) s = _
  rw [hrange, exec_ite]
  by_cases h0 : t.slots.length = 0
  · rw [if_pos (by omega), if_pos h0]
  · rw [if_neg (by omega), if_neg h0]

/-- What the loop reads at the keys `1 .. len`. -/
theorem IsList.concatBytes_eq (hl : IsList t.slots l vals) (L : Lib) (h : Heap)
    (hv : ∀ v ∈ vals, v.isStringOrInteger = true) (hu : Unnamed l) :
    (rangeKeys (1, t.slots.length)).map (fun k => concatBytes L h (Lua.slotGet t.slots k)) =
      (vals.map fun v => (concatBytes L h v).getD []).map some := by
  have hlen := hl.length_le
  have hun := hl.holds.unnamed_iff.mp hu
  have hr := congrArg (List.map (concatBytes L h)) hl.rangeValues
  rw [← hl.views.length] at hun
  rw [List.map_map, show t.slots.length - vals.length = 0 by omega, List.replicate_zero, List.append_nil] at hr
  refine hr.trans ?_
  rw [List.map_map]
  refine List.map_congr_left fun v hvm => ?_
  have hkind := hv v hvm
  cases v with
  | str => rfl
  | num => rfl
  | _ => cases hkind

theorem returnsString_concat_iff (L : Lib) (ht : s.tbls[tid]? = some t) (hl : IsList t.slots l vals) (r : StrRef)
    (hv : ∀ v ∈ vals, v.isStringOrInteger = true) :
    ReturnsString R s (joined L s.toHeap (s.toHeap.strBytes r) vals) (R.exec (tableConcat L [.table tid, .str r]) s) ↔
      Unnamed l ∧ (joined L s.toHeap (s.toHeap.strBytes r) vals).length ≤ CONCAT_CAP ∧
        s.toHeap.Fits (joined L s.toHeap (s.toHeap.strBytes r) vals) := by
  have hlen := hl.length_le
  have hll := hl.views.length
  have hun := hl.holds.unnamed_iff
  -- the rest of the call, when the bytes are there
  have hintern : ∀ b, ReturnsString R s b (R.exec (do pure (.ret (.str (← intern b)))) s) ↔ s.toHeap.Fits b := by
    intro b
    unfold ReturnsString
    rw [← intern_ok_iff, exec_bind, bind_apply, exec_intern]
    cases s.toHeap.intern b with
    | error m =>
      refine iff_of_false ?_ ?_
      · rintro ⟨ref, s', he, -⟩
        cases he
      · rintro ⟨p, he⟩
        cases he
    | ok p =>
      obtain ⟨ref, h⟩ := p
      exact iff_of_true ⟨ref, _, rfl, rfl⟩ ⟨_, rfl⟩
  rw [exec_tableConcat L ht hl.room]
  by_cases h0 : t.slots.length = 0
  · have hvals : vals = [] := List.length_eq_zero_iff.mp (by omega)
    have hj : joined L s.toHeap (s.toHeap.strBytes r) vals = [] := by
      rw [hvals]
      rfl
    rw [if_pos h0, hj, hintern]
    exact ⟨fun hf => ⟨hun.mpr (by omega), Nat.zero_le _, hf⟩, fun h => h.2.2⟩
  rw [if_neg h0, exec_bind]
  by_cases hu : Unnamed l
  · have hloop := @exec_concatLoop R s tid t L ht (s.toHeap.strBytes r) _ _ (hl.concatBytes_eq L s.toHeap hv hu) true []
      (Nat.zero_le _)
    rw [rest_true, List.nil_append] at hloop
    change R.exec _ s = if (joined L s.toHeap (s.toHeap.strBytes r) vals).length ≤ CONCAT_CAP then
      .ok (joined L s.toHeap (s.toHeap.strBytes r) vals) s else _ at hloop
    rw [and_iff_right hu]
    by_cases hcap : (joined L s.toHeap (s.toHeap.strBytes r) vals).length ≤ CONCAT_CAP
    · rw [if_pos hcap] at hloop
      rw [bind_ok hloop, and_iff_right hcap]
      exact hintern _
    · rw [if_neg hcap] at hloop
      rw [bind_error hloop]
      refine iff_of_false ?_ fun h => hcap h.1
      rintro ⟨ref, s', -, he⟩
      cases he
  · have hnone : ∃ k ∈ rangeKeys (1, t.slots.length), concatBytes L s.toHeap (Lua.slotGet t.slots k) = none := by
      rw [rangeKeys_eq]
      refine ⟨.num (Int64.ofNat (vals.length + 1)), List.mem_map.mpr ⟨vals.length, ?_, rfl⟩, ?_⟩
      · rw [hun] at hu
        exact List.mem_range.mpr (by omega)
      · rw [hl.slotGet (by omega), seqAt_of_ge le_rfl]
        rfl
    obtain ⟨e, he⟩ := exec_concatLoop_error (R := R) L ht (s.toHeap.strBytes r) hnone true []
    rw [bind_error he]
    refine iff_of_false ?_ fun h => hu h.1
    rintro ⟨ref, s', -, hr⟩
    cases hr

/-! ### Packing -/

/-- `table.unpack(table.pack(...))` returns the values it was given. -/
def PackReturns (R : Rec) (s : LuaState) (vs : List Value) : Prop :=
  ∃ tid s', R.exec (tablePack vs) s = .ok (.ret (.table tid)) s' ∧ Returns vs (R.exec (tableUnpack [.table tid]) s')

theorem exec_tbls_intern {b : List UInt8} {ref : StrRef} {s' : LuaState} (h : R.exec (intern b) s = .ok ref s') :
    s'.tbls = s.tbls := by
  have hheap : ∀ {p}, s.toHeap.intern b = .ok p → p.2.tbls = s.tbls := by
    intro p hp
    unfold Heap.intern at hp
    split at hp
    · cases hp
      rfl
    · split_ifs at hp
      cases hp
      rfl
  rw [exec_intern] at h
  cases hi : s.toHeap.intern b with
  | error m =>
    rw [hi] at h
    cases h
  | ok p =>
    rw [hi] at h
    cases h
    exact hheap hi

/-- A list with one more entry, which has a name. -/
theorem IsList.append_named {slots : List (Value × Value)} (hl : IsList slots l vals) {k v : Value} (hk : KeyOf k none)
    (hv : v ≠ .nil) (hroom : slots.length < TABLE_SLOTS) :
    IsList (slots ++ [(k, v)]) (l ++ [(none, v)]) vals where
  views := List.rel_append hl.views (.cons ⟨hk, rfl⟩ .nil)
  holds := by
    refine ⟨?_, fun m => ?_⟩
    · have hn : (l ++ [((none : Option ℕ), v)]).filterMap Prod.fst = l.filterMap Prod.fst := by simp
      rw [hn]
      exact hl.holds.nodup
    · rw [get_append_list, hl.holds.get]
      exact Option.or_none
  values := by
    intro e he
    rcases List.mem_append.mp he with he | he
    · exact hl.values e he
    · obtain rfl := List.mem_singleton.mp he
      exact hv
  room := by
    rw [List.length_append, List.length_singleton]
    exact hroom

/-- The table `table.pack` makes has a field besides. -/
theorem tablePack_ok {vs : List Value} (hvs : vs.length < TABLE_SLOTS) {s' : LuaState}
    (h : R.exec (tablePack vs) s = .ok (.ret (.table tid)) s') :
    ∃ ref u, s'.tbls[tid]? = some u ∧ u.slots = numberSlots 0 vs ++ [(.str ref, .num (Int64.ofNat vs.length))] := by
  rw [tablePack, exec_ite, if_neg (by omega), exec_bind, bind_eq_ok] at h
  obtain ⟨i, s₁, -, h⟩ := h
  rw [exec_bind, bind_eq_ok] at h
  obtain ⟨u, s₂, htable, h⟩ := h
  obtain ⟨hu, rfl⟩ := tableRec_ok R htable
  rw [exec_bind, bind_ok (exec_setSlots _), exec_bind, bind_eq_ok] at h
  obtain ⟨ref, s₃, hintern, h⟩ := h
  rw [exec_bind, bind_ok (exec_setSlots _)] at h
  have hu₃ : s₃.tbls[i]? = some { u with slots := numberSlots 0 vs } := by
    rw [exec_tbls_intern hintern]
    exact withSlots_tbl hu _
  have hfinal := withSlots_tbl hu₃ (numberSlots 0 vs ++ [(.str ref, .num (Int64.ofNat vs.length))])
  injection h with hr hs
  obtain rfl := Value.table.inj (ExecResult.ret.inj hr)
  exact ⟨ref, _, hs ▸ hfinal, rfl⟩

theorem not_packReturns {vs : List Value} (hvs : vs.length < TABLE_SLOTS) (hnil : ∀ v ∈ vs, v ≠ .nil) :
    ¬ PackReturns R s vs := by
  rintro ⟨i, s', hpack, hret⟩
  obtain ⟨ref, u, hu, hslots⟩ := tablePack_ok hvs hpack
  have hlist : IsList u.slots (number 0 vs ++ [(none, .num (Int64.ofNat vs.length))]) vs := by
    rw [hslots]
    exact (isList_number hvs.le hnil).append_named (keyOf_str ref) (by simp) (by rw [numberSlots_length]; exact hvs)
  have hu := ((returns_unpack_iff hu hlist).mp hret).1
  exact hu none (by simp [Store.Assoc.keys]) rfl

end Lists

/-! ### All together -/

/-- **The list functions agree on the length** exactly under these conditions. -/
theorem list_functions_agree (R : Rec) (L : Lib) {s : LuaState} {tid bits : ℕ} {t : TableRec}
    {l : List (Option ℕ × Value)} {vals : List Value} (hb : bits = 32 ∨ bits = 64) (ht : s.tbls[tid]? = some t)
    (hl : IsList t.slots l vals) :
    rawLen t.slots = vals.length ∧
    (∀ v, StoresNext s tid t vals.length v (R.exec (tableInsert bits [.table tid, v]) s) ↔
      t.slots.length < TABLE_SLOTS ∧ (Unnamed l ∨ v = .nil)) ∧
    (RemovesLast s tid t vals (R.exec (tableRemove bits [.table tid]) s) ↔
      l = [] ∨ l.getLast?.map Prod.fst = some (some (vals.length - 1))) ∧
    (Returns vals (R.exec (tableUnpack [.table tid]) s) ↔
      Unnamed l ∧ (vals.length = 0 ∨ s.vsp + vals.length ≤ STACK_CAP)) ∧
    (∀ r, (∀ v ∈ vals, v.isStringOrInteger = true) →
      (ReturnsString R s (joined L s.toHeap (s.toHeap.strBytes r) vals)
          (R.exec (tableConcat L [.table tid, .str r]) s) ↔
        Unnamed l ∧ (joined L s.toHeap (s.toHeap.strBytes r) vals).length ≤ CONCAT_CAP ∧
          s.toHeap.Fits (joined L s.toHeap (s.toHeap.strBytes r) vals))) ∧
    ∀ vs : List Value, vs.length < TABLE_SLOTS → (∀ v ∈ vs, v ≠ .nil) → ¬ PackReturns R s vs :=
  ⟨rawLen_eq hl, storesNext_iff hb ht hl, removesLast_iff ht hl, returns_unpack_iff ht hl,
    fun r hv => returnsString_concat_iff L ht hl r hv, fun _ => not_packReturns⟩

theorem list_and_field_lengths :
    rawLen listAndField.slots = [Value.num 10].length ∧
    (∀ v, StoresNext (withTable listAndField) 0 listAndField [Value.num 10].length v
        (Rec.stuck.exec (tableInsert 64 [.table 0, v]) (withTable listAndField)) ↔
      listAndField.slots.length < TABLE_SLOTS ∧ (Unnamed listAndFieldEntries ∨ v = .nil)) ∧
    (RemovesLast (withTable listAndField) 0 listAndField [.num 10]
        (Rec.stuck.exec (tableRemove 64 [.table 0]) (withTable listAndField)) ↔
      listAndFieldEntries = [] ∨
        listAndFieldEntries.getLast?.map Prod.fst = some (some ([Value.num 10].length - 1))) ∧
    (Returns [.num 10] (Rec.stuck.exec (tableUnpack [.table 0]) (withTable listAndField)) ↔
      Unnamed listAndFieldEntries ∧
        ([Value.num 10].length = 0 ∨ (withTable listAndField).vsp + [Value.num 10].length ≤ STACK_CAP)) ∧
    (∀ r, (∀ v ∈ [Value.num 10], v.isStringOrInteger = true) →
      (ReturnsString Rec.stuck (withTable listAndField)
          (joined bareLib (withTable listAndField).toHeap ((withTable listAndField).toHeap.strBytes r) [.num 10])
          (Rec.stuck.exec (tableConcat bareLib [.table 0, .str r]) (withTable listAndField)) ↔
        Unnamed listAndFieldEntries ∧
          (joined bareLib (withTable listAndField).toHeap ((withTable listAndField).toHeap.strBytes r)
            [.num 10]).length ≤ CONCAT_CAP ∧
          (withTable listAndField).toHeap.Fits
            (joined bareLib (withTable listAndField).toHeap ((withTable listAndField).toHeap.strBytes r) [.num 10]))) ∧
    ∀ vs : List Value, vs.length < TABLE_SLOTS → (∀ v ∈ vs, v ≠ .nil) →
      ¬ PackReturns Rec.stuck (withTable listAndField) vs :=
  list_functions_agree Rec.stuck bareLib (.inr rfl) rfl isList_listAndField

/-- `table.unpack({10, x = 1})` returns `10, nil`. -/
theorem unpack_counts_field :
    ¬ Returns [.num 10] (Rec.stuck.exec (tableUnpack [.table 0]) (withTable listAndField)) := by
  rw [returns_unpack_iff rfl isList_listAndField]
  exact fun h => h.1 none (by decide) rfl

end Lua
end Rustrapper

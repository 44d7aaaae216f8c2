/-
# Lists by key and lists by slot

A table holds a list when its integer keys are `1 .. n` (`IsList`), in any
order among the slots and between slots with other keys: its slots are seen as
entries with a number or a name (`Store/Sequence.lean`). What a table is by
key after its slots were numbered anew from a place on (`IsList.becomes_iff`).
-/
import Rustrapper.Lua.Lists
import Rustrapper.Lua.Slots
import Rustrapper.Store.Sequence

namespace Rustrapper
namespace Lua

open Store Sequence

/-! ### Slots as entries -/

/-- The integer key `i + 1`, or a key that is no integer. -/
def KeyOf (k : Value) : Option ℕ → Prop
  | some i => ∀ j : Int64, valEq k (.num j) = decide (j.toInt = i + 1)
  | none => ∀ j : Int64, valEq k (.num j) = false

/-- The entries the slots are. -/
def Views (slots : List (Value × Value)) (l : List (Option ℕ × Value)) : Prop :=
  List.Forall₂ (fun p e => KeyOf p.1 e.1 ∧ p.2 = e.2) slots l

/-- The slots hold the values `vals` under the keys `1 .. n` and others under keys that are no
integers; a slot with `nil` is no entry. -/
structure IsList (slots : List (Value × Value)) (l : List (Option ℕ × Value)) (vals : List Value) : Prop where
  views : Views slots l
  holds : Holds l vals
  values : ∀ e ∈ l, e.2 ≠ .nil
  room : slots.length ≤ TABLE_SLOTS

/-- A function of positions as one of keys. -/
def atKey (f : ℕ → Value) (j : Int64) : Value := if j.toInt < 1 then .nil else f (j.toInt.toNat - 1)

/-- The sequence as a function of positions. -/
def seqAt (vals : List Value) (m : ℕ) : Value := vals[m]?.getD .nil

theorem toInt_ofNat_succ {i : ℕ} (h : i + 1 < 2 ^ 63) : (Int64.ofNat (i + 1)).toInt = i + 1 := by
  rw [Int64.toInt_ofNat_of_lt h]
  rfl

theorem keyOf_num {i : ℕ} (h : i + 1 < 2 ^ 63) : KeyOf (.num (Int64.ofNat (i + 1))) (some i) := by
  intro j
  unfold valEq
  apply decide_eq_decide.mpr
  rw [Value.num.injEq, ← Int64.toInt_inj, toInt_ofNat_succ h]
  exact eq_comm

theorem keyOf_str (r : StrRef) : KeyOf (.str r) none := fun _ => rfl

/-- An integer key is one. -/
theorem KeyOf.not_none {k : Value} {i : ℕ} (h : KeyOf k (some i)) (hi : i + 1 < 2 ^ 63) : ¬ KeyOf k none := by
  intro hn
  have hi := (h (Int64.ofNat (i + 1))).symm.trans (hn _)
  rw [toInt_ofNat_succ ‹_›] at hi
  simp at hi

theorem asUsize_of_small {bits : ℕ} (hb : bits = 32 ∨ bits = 64) {pos : Int64} (h0 : 0 ≤ pos.toInt)
    (h1 : pos.toInt ≤ 64) : asUsize bits pos = pos.toInt.toNat := by
  unfold asUsize
  rcases hb with rfl | rfl <;> rw [Int.emod_eq_of_lt h0 (by omega)]

section Views
variable {slots : List (Value × Value)} {l : List (Option ℕ × Value)} {vals ws : List Value}

theorem slotGet_cons (p : Value × Value) (k : Value) :
    slotGet (p :: slots) k = if valEq p.1 k then p.2 else slotGet slots k := by
  unfold slotGet
  rw [List.find?_cons]
  by_cases h : valEq p.1 k = true
  · rw [h, if_pos rfl]
    rfl
  · rw [if_neg h, Bool.eq_false_iff.mpr h]

theorem Views.get (h : Views slots l) (j : Int64) : slotGet slots (.num j) = atKey (lookup .nil l) j := by
  induction h with
  | nil =>
    unfold atKey
    split_ifs <;> rfl
  | @cons p e slots l he _ ih =>
    obtain ⟨hk, hv⟩ := he
    rw [slotGet_cons, ih]
    unfold atKey lookup
    rw [Assoc.get]
    obtain ⟨k, w⟩ := e
    cases k with
    | none =>
      rw [hk j, if_neg Bool.false_ne_true]
      rfl
    | some i =>
      rw [hk j]
      by_cases hj : j.toInt < 1
      · rw [if_pos hj, if_neg (by rw [decide_eq_true_eq]; omega), if_pos hj]
      · rw [if_neg hj, if_neg hj]
        by_cases hi : i = j.toInt.toNat - 1
        · rw [if_pos (by rw [decide_eq_true_eq]; omega), if_pos (congrArg some hi)]
          exact hv
        · rw [if_neg (by rw [decide_eq_true_eq]; omega), if_neg (fun he => hi (Option.some.inj he))]

theorem Views.values (h : Views slots l) : slots.map Prod.snd = l.map Prod.snd := by
  induction h with
  | nil => rfl
  | cons he _ ih => rw [List.map_cons, List.map_cons, ih, he.2]

theorem Views.length (h : Views slots l) : slots.length = l.length := h.length_eq

theorem views_number {i : ℕ} {vs : List Value} (hi : i + vs.length < 2 ^ 63) : Views (numberSlots i vs) (number i vs) := by
  induction vs generalizing i with
  | nil => exact List.Forall₂.nil
  | cons v vs ih =>
    rw [List.length_cons] at hi
    exact .cons ⟨keyOf_num (by omega), rfl⟩ (ih (by omega))

theorem Views.splice (h : Views slots l) {i : ℕ} (hi : i + ws.length < 2 ^ 63) :
    Views (slots.take i ++ numberSlots i ws) (splice l i ws) :=
  List.rel_append (List.forall₂_take i h) (views_number hi)

/-- Entries without a name. -/
theorem Views.not_named (h : Views slots l) (hu : Unnamed l) (hl : ∀ m, some m ∈ Assoc.keys l → m + 1 < 2 ^ 63) :
    ∀ p ∈ slots, ¬ KeyOf p.1 none := by
  induction h with
  | nil => simp
  | @cons p e slots l he _ ih =>
    rintro q hq
    rcases List.mem_cons.mp hq with rfl | hq
    · cases hk : e.1 with
      | none => exact absurd hk (hu _ List.mem_cons_self)
      | some m => exact (hk ▸ he.1).not_none (hl m (hk ▸ List.mem_cons_self))
    · exact ih (fun k hk => hu k (List.mem_cons_of_mem _ hk)) (fun m hm => hl m (List.mem_cons_of_mem _ hm)) q hq

end Views

/-! ### What becomes of a table -/

/-- The entries with keys that are no integers are the same. -/
def SameNamed (slots slots' : List (Value × Value)) : Prop := ∀ p, KeyOf p.1 none → (p ∈ slots' ↔ p ∈ slots)

/-- The slots end up with a list and with the entries they had under other keys. -/
structure Becomes (slots slots' : List (Value × Value)) (vals : List Value) : Prop where
  list : ∀ j, slotGet slots' (.num j) = atKey (seqAt vals) j
  named : SameNamed slots slots'

theorem becomes_nil : Becomes [] [] [] := by
  refine ⟨fun j => ?_, fun _ _ => Iff.rfl⟩
  unfold atKey
  split_ifs <;> rfl

/-- All keys, or all positions. -/
theorem forall_atKey_iff {f : ℕ → Value} {vs : List Value} {b : ℕ} (hb : b < 2 ^ 63) (hf : ∀ m, b ≤ m → f m = .nil)
    (hvs : vs.length ≤ b) : (∀ j, atKey f j = atKey (seqAt vs) j) ↔ ∀ m, f m = seqAt vs m := by
  constructor
  · intro h m
    by_cases hm : b ≤ m
    · rw [hf m hm, seqAt, List.getElem?_eq_none (by omega)]
      rfl
    · have hj := h (Int64.ofNat (m + 1))
      unfold atKey at hj
      rw [toInt_ofNat_succ (by omega), if_neg (by omega), if_neg (by omega)] at hj
      rwa [show ((m : ℤ) + 1).toNat - 1 = m by omega] at hj
  · intro h j
    unfold atKey
    rw [h]

section IsList
variable {slots : List (Value × Value)} {l : List (Option ℕ × Value)} {vals ws vs : List Value} {i : ℕ}

theorem IsList.length_le (h : IsList slots l vals) : vals.length ≤ slots.length ∧ slots.length ≤ 32 :=
  ⟨h.views.length ▸ h.holds.length_le, h.room⟩

theorem IsList.mem_keys (h : IsList slots l vals) {m : ℕ} (hm : some m ∈ Assoc.keys l) : m + 1 < 2 ^ 63 := by
  have hlt := h.holds.mem_keys.mp hm
  have := h.length_le
  omega

/-- Numbered slots are a list. -/
theorem isList_number (hlen : vals.length ≤ TABLE_SLOTS) (hv : ∀ v ∈ vals, v ≠ .nil) :
    IsList (numberSlots 0 vals) (number 0 vals) vals := by
  have hroom : vals.length ≤ 32 := hlen
  have hviews : Views (numberSlots 0 vals) (number 0 vals) := views_number (by omega)
  refine ⟨hviews, holds_number vals, fun e he => ?_, ?_⟩
  · have hm : e.2 ∈ (number 0 vals).map Prod.snd := List.mem_map_of_mem he
    rw [map_snd_number] at hm
    exact hv _ hm
  · have hl := congrArg List.length (map_snd_number 0 vals)
    rw [List.length_map] at hl
    rw [hviews.length, hl]
    exact hlen

/-- Without names, none come up. -/
theorem IsList.sameNamed (h : IsList slots l vals) (hu : Unnamed l) (hi : i + ws.length ≤ 64) :
    SameNamed slots (slots.take i ++ numberSlots i ws) := by
  intro p hp
  have hnot : p ∉ slots := fun hm => h.views.not_named hu (fun m hm => h.mem_keys hm) p hm hp
  refine iff_of_false (fun hm => ?_) hnot
  refine (h.views.splice (i := i) (by omega)).not_named (hu.splice i ws) (fun m hm => ?_) p hm hp
  rcases mem_keys_splice hm with hm | ⟨m', he, hm'⟩
  · exact h.mem_keys hm
  · obtain rfl := Option.some.inj he
    omega

/-- What becomes of a table with slots numbered anew. -/
theorem IsList.becomes_iff (h : IsList slots l vals) (hi : i + ws.length ≤ 64) (hvs : vs.length ≤ 64)
    (hnamed : (∀ m, lookup .nil (splice l i ws) m = seqAt vs m) → SameNamed slots (slots.take i ++ numberSlots i ws)) :
    Becomes slots (slots.take i ++ numberSlots i ws) vs ↔ ∀ m, lookup .nil (splice l i ws) m = seqAt vs m := by
  have hlen := h.length_le
  have hall : (∀ j, slotGet (slots.take i ++ numberSlots i ws) (.num j) = atKey (seqAt vs) j) ↔
      ∀ m, lookup .nil (splice l i ws) m = seqAt vs m := by
    rw [← @forall_atKey_iff _ vs 64 (by norm_num)
      (fun m hm => lookup_splice_of_ge h.holds .nil (by omega) (by omega)) hvs]
    apply forall_congr'
    intro j
    rw [(h.views.splice (by omega)).get]
  rw [← hall]
  exact ⟨fun hb => hb.list, fun hb => ⟨hb, hnamed (hall.mp hb)⟩⟩

end IsList

end Lua
end Rustrapper

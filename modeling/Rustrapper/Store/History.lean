/-
# A map that keeps the order of its keys, as a history

A history is a list of assignments, each of a value or of nothing. `replay`
performs it on a list of named entries (`Store/Assoc.lean`): a value is put,
nothing takes the entry out. What the history says of a key by itself is the
last thing assigned to it (`latest`), and the place where it was born
(`BornAt`): where it got a value while it had none, and has kept one since.

The entries are the last values (`get_replay`), no key occurs twice
(`nodup_replay`), and the keys stand in the order they were born in
(`older_replay`).
-/
import Rustrapper.Store.Assoc

namespace Store.History

variable {K V : Type*} [DecidableEq K]

open Assoc

/-- The last thing assigned to `k`. -/
def latest (h : List (K × Option V)) (k : K) : Option V :=
  (h.reverse.find? fun op => op.1 = k).bind Prod.snd

/-- One assignment on a list of entries. -/
def apply (l : List (K × V)) : K × Option V → List (K × V)
  | (k, some v) => put l k v
  | (k, none) => remove l k

/-- The entries after a history. -/
def replay (h : List (K × Option V)) : List (K × V) := h.foldl apply []

/-- Assignment `i` gave `k` a value when it had none, and none after it took the value away. -/
def BornAt (h : List (K × Option V)) (k : K) (i : ℕ) : Prop :=
  ∃ before v after, h = before ++ (k, some v) :: after ∧ before.length = i ∧
    latest before k = none ∧ (k, none) ∉ after

/-- `k` was born before `j`. -/
def Older (h : List (K × Option V)) (k j : K) : Prop := ∀ a b, BornAt h k a → BornAt h j b → a < b

/-! ### One more assignment -/

@[simp] theorem latest_nil (k : K) : latest ([] : List (K × Option V)) k = none := rfl

theorem latest_append (h : List (K × Option V)) (op : K × Option V) (k : K) :
    latest (h ++ [op]) k = if op.1 = k then op.2 else latest h k := by
  unfold latest
  rw [List.reverse_append, List.reverse_singleton, List.singleton_append, List.find?_cons]
  by_cases hk : op.1 = k <;> simp [hk]

@[simp] theorem replay_nil : replay ([] : List (K × Option V)) = [] := rfl

theorem replay_append (h : List (K × Option V)) (op : K × Option V) :
    replay (h ++ [op]) = apply (replay h) op := by simp [replay]

/-- A key without a `none` behind one of its values has a value. -/
theorem latest_isSome {before after : List (K × Option V)} {k : K} {v : V} (hafter : (k, none) ∉ after) :
    (latest (before ++ (k, some v) :: after) k).isSome := by
  induction after using List.reverseRecOn with
  | nil => simp [latest_append]
  | append_singleton after op ih =>
    have hop : op ≠ (k, none) := fun he => hafter (by simp [he])
    have hrest : (k, none) ∉ after := fun hm => hafter (by simp [hm])
    rw [← List.cons_append, ← List.append_assoc, latest_append]
    by_cases hk : op.1 = k
    · rw [if_pos hk]
      apply Option.isSome_iff_ne_none.mpr
      intro hn
      exact hop (Prod.ext hk hn)
    · rw [if_neg hk]
      exact ih hrest

theorem BornAt.isSome {h : List (K × Option V)} {k : K} {i : ℕ} (hb : BornAt h k i) :
    (latest h k).isSome := by
  obtain ⟨before, v, after, rfl, -, -, hafter⟩ := hb
  exact latest_isSome hafter

theorem BornAt.lt {h : List (K × Option V)} {k : K} {i : ℕ} (hb : BornAt h k i) : i < h.length := by
  obtain ⟨before, v, after, rfl, rfl, -, -⟩ := hb
  simp

/-- Where a key is born in a longer history: where it was before, or at the new assignment. -/
theorem bornAt_append {h : List (K × Option V)} {op : K × Option V} {k : K} {i : ℕ} :
    BornAt (h ++ [op]) k i ↔
      (BornAt h k i ∧ op ≠ (k, none)) ∨
        (i = h.length ∧ op.1 = k ∧ op.2.isSome ∧ latest h k = none) := by
  constructor
  · rintro ⟨before, v, after, he, hi, hnew, hafter⟩
    rcases List.eq_nil_or_concat after with rfl | ⟨after, last, rfl⟩
    · obtain ⟨rfl, hop⟩ := List.append_inj' he rfl
      have hop : op = (k, some v) := List.singleton_inj.mp hop
      right
      subst hop
      exact ⟨hi.symm, rfl, rfl, hnew⟩
    · rw [List.concat_eq_append] at he hafter
      rw [← List.cons_append, ← List.append_assoc] at he
      obtain ⟨rfl, hlast⟩ := List.append_inj' he rfl
      have hlast : op = last := List.singleton_inj.mp hlast
      left
      refine ⟨⟨before, v, after, rfl, hi, hnew, fun hm => hafter (by simp [hm])⟩, ?_⟩
      intro hop
      exact hafter (by simp [← hlast, hop])
  · rintro (⟨⟨before, v, after, rfl, hi, hnew, hafter⟩, hop⟩ | ⟨rfl, hk, hv, hnew⟩)
    · refine ⟨before, v, after ++ [op], by simp, hi, hnew, ?_⟩
      intro hm
      rcases List.mem_append.mp hm with hm | hm
      · exact hafter hm
      · exact hop (List.mem_singleton.mp hm).symm
    · obtain ⟨v, hv⟩ := Option.isSome_iff_exists.mp hv
      refine ⟨h, v, [], ?_, rfl, hnew, List.not_mem_nil⟩
      rw [← hk, ← hv]

/-- A key that has a value was born somewhere. -/
theorem exists_bornAt {h : List (K × Option V)} {k : K} (hk : (latest h k).isSome) : ∃ i, BornAt h k i := by
  induction h using List.reverseRecOn with
  | nil => cases hk
  | append_singleton h op ih =>
    rw [latest_append] at hk
    by_cases hop : op.1 = k
    · rw [if_pos hop] at hk
      by_cases hold : latest h k = none
      · exact ⟨h.length, bornAt_append.mpr (.inr ⟨rfl, hop, hk, hold⟩)⟩
      · obtain ⟨i, hi⟩ := ih (Option.isSome_iff_ne_none.mpr hold)
        refine ⟨i, bornAt_append.mpr (.inl ⟨hi, ?_⟩)⟩
        rintro rfl
        cases hk
    · rw [if_neg hop] at hk
      obtain ⟨i, hi⟩ := ih hk
      exact ⟨i, bornAt_append.mpr (.inl ⟨hi, fun he => hop (by rw [he])⟩)⟩

/-! ### The entries -/

theorem nodup_apply {l : List (K × V)} (h : (keys l).Nodup) (op : K × Option V) :
    (keys (apply l op)).Nodup := by
  obtain ⟨k, v | v⟩ := op
  · exact nodup_remove h k
  · exact nodup_put h k v

/-- **No key occurs twice.** -/
theorem nodup_replay (h : List (K × Option V)) : (keys (replay h)).Nodup := by
  induction h using List.reverseRecOn with
  | nil => exact List.nodup_nil
  | append_singleton h op ih =>
    rw [replay_append]
    exact nodup_apply ih op

theorem get_apply {l : List (K × V)} (h : (keys l).Nodup) (op : K × Option V) :
    get (apply l op) = Function.update (get l) op.1 op.2 := by
  obtain ⟨k, v | v⟩ := op
  · exact get_remove h k
  · exact get_put l k v

/-- **The entries are the last values.** -/
theorem get_replay (h : List (K × Option V)) : get (replay h) = latest h := by
  induction h using List.reverseRecOn with
  | nil => rfl
  | append_singleton h op ih =>
    funext k
    rw [replay_append, get_apply (nodup_replay h), ih, latest_append]
    by_cases hk : op.1 = k
    · rw [if_pos hk, ← hk, Function.update_self]
    · rw [if_neg hk, Function.update_of_ne (Ne.symm hk)]

theorem latest_isSome_iff (h : List (K × Option V)) (k : K) :
    (latest h k).isSome ↔ k ∈ keys (replay h) := by
  rw [← get_replay, ← not_iff_not, ← get_eq_none_iff]
  simp

/-- Every key was assigned. -/
theorem keys_of_replay {h : List (K × Option V)} {p : K → Prop} (hp : ∀ op ∈ h, p op.1) :
    ∀ k ∈ keys (replay h), p k := by
  intro k hk
  obtain ⟨i, before, v, after, rfl, -⟩ := exists_bornAt ((latest_isSome_iff h k).mpr hk)
  exact hp (k, some v) (by simp)

/-! ### Their order -/

/-- An older pair of keys stays older, unless the first is born again. -/
theorem Older.append {h : List (K × Option V)} {k j : K} (ho : Older h k j) {op : K × Option V}
    (hk : (latest h k).isSome) (hj : (latest h j).isSome) : Older (h ++ [op]) k j := by
  intro a b ha hb
  rcases bornAt_append.mp ha with ⟨ha, -⟩ | ⟨-, -, -, hnew⟩
  · rcases bornAt_append.mp hb with ⟨hb, -⟩ | ⟨-, -, -, hnew⟩
    · exact ho a b ha hb
    · rw [hnew] at hj
      cases hj
  · rw [hnew] at hk
    cases hk

/-- A key born now is younger than every other. -/
theorem older_append_new {h : List (K × Option V)} {k j : K} {v : V} (hk : (latest h k).isSome)
    (hj : latest h j = none) : Older (h ++ [(j, some v)]) k j := by
  intro a b ha hb
  rcases bornAt_append.mp ha with ⟨ha, -⟩ | ⟨-, -, -, hnew⟩
  · rcases bornAt_append.mp hb with ⟨hb, -⟩ | ⟨rfl, -⟩
    · exact absurd hj (Option.isSome_iff_ne_none.mp hb.isSome)
    · exact ha.lt
  · rw [hnew] at hk
    cases hk

/-- **The keys stand in the order they were born in.** -/
theorem older_replay (h : List (K × Option V)) : (keys (replay h)).Pairwise (Older h) := by
  induction h using List.reverseRecOn with
  | nil => exact List.Pairwise.nil
  | append_singleton h op ih =>
    have hkeep : (keys (replay h)).Pairwise (Older (h ++ [op])) := by
      apply ih.imp_of_mem
      intro k j hk hj ho
      exact ho.append ((latest_isSome_iff h k).mpr hk) ((latest_isSome_iff h j).mpr hj)
    rw [replay_append]
    obtain ⟨k, v | v⟩ := op
    · exact hkeep.sublist (keys_remove_sublist _ k)
    · by_cases hk : k ∈ keys (replay h)
      · rw [apply, keys_put_of_mem hk]
        exact hkeep
      · have hnew : latest h k = none := by
          rw [← get_replay]
          exact (get_eq_none_iff _ _).mpr hk
        rw [apply, put_of_not_mem hk]
        unfold keys at hkeep ⊢
        rw [List.map_append, List.pairwise_append]
        refine ⟨hkeep, List.pairwise_singleton _ _, ?_⟩
        intro j hj _ hlast
        rw [List.mem_singleton.mp hlast]
        exact older_append_new ((latest_isSome_iff h j).mpr hj) hnew

end Store.History

/-
# A sequence among the entries of a list

Entries have a number or a name. A list of entries in any order holds a
sequence when the entry with number `i` has its value `i` (`Holds`). An
operation on places of the list that numbers the entries behind a place anew
(`splice`) does to the sequence what the operation of the same name does
exactly when no entry has a name and the places before it are those of the
numbers before it (`insertAt_iff`, `removeAt_iff`).

`d` stands for the value of a number without an entry.
-/
import Rustrapper.Store.Assoc

namespace Store.Sequence

open Assoc

variable {V : Type*}

/-! ### Entries and their numbers -/

/-- The values as entries numbered from `i` on. -/
def number : ℕ → List V → List (Option ℕ × V)
  | _, [] => []
  | i, v :: vs => (some i, v) :: number (i + 1) vs

theorem keys_number (i : ℕ) (vs : List V) : keys (number i vs) = (List.range' i vs.length).map some := by
  induction vs generalizing i with
  | nil => rfl
  | cons v vs ih => rw [number, keys_cons, ih, List.length_cons, List.range'_succ, List.map_cons]

theorem get_number (i m : ℕ) (vs : List V) : Assoc.get (number i vs) (some m) = if i ≤ m then vs[m - i]? else none := by
  induction vs generalizing i with
  | nil => simp [number, Assoc.get]
  | cons v vs ih =>
    rw [number, Assoc.get]
    dsimp only
    by_cases hm : i = m
    · subst hm
      simp
    · rw [if_neg (fun he => hm (Option.some.inj he)), ih]
      by_cases hlt : i ≤ m
      · rw [if_pos hlt, if_pos (by omega), List.getElem?_cons, if_neg (by omega)]
        congr 1
      · rw [if_neg hlt, if_neg (by omega)]

theorem get_append_list {K : Type*} [DecidableEq K] (a b : List (K × V)) (k : K) :
    Assoc.get (a ++ b) k = (get a k).or (get b k) := by
  induction a with
  | nil => rfl
  | cons e a ih =>
    rw [List.cons_append, Assoc.get, Assoc.get]
    by_cases he : e.1 = k
    · rw [if_pos he, if_pos he]
      rfl
    · rw [if_neg he, if_neg he, ih]

theorem mem_of_get {K : Type*} [DecidableEq K] {l : List (K × V)} {k : K} {v : V} (h : Assoc.get l k = some v) :
    (k, v) ∈ l := by
  induction l with
  | nil => cases h
  | cons e l ih =>
    rw [Assoc.get] at h
    by_cases he : e.1 = k
    · rw [if_pos he] at h
      obtain rfl := Option.some.inj h
      exact he ▸ List.mem_cons_self
    · rw [if_neg he] at h
      exact List.mem_cons_of_mem _ (ih h)

/-! ### Holding a sequence -/

/-- The entries with a number hold the sequence. -/
structure Holds (l : List (Option ℕ × V)) (vals : List V) : Prop where
  nodup : (l.filterMap Prod.fst).Nodup
  get : ∀ m, Assoc.get l (some m) = vals[m]?

/-- The sequence in order. -/
theorem holds_number (vals : List V) : Holds (number 0 vals) vals := by
  constructor
  · have hn : (number 0 vals).filterMap Prod.fst = (keys (number 0 vals)).filterMap id := by
      unfold keys
      rw [List.filterMap_map]
      rfl
    rw [hn, keys_number, List.filterMap_map]
    have hid : (List.range' 0 vals.length).filterMap (id ∘ some) = List.range' 0 vals.length :=
      List.filterMap_some
    rw [hid]
    exact List.nodup_range'
  · intro m
    rw [get_number, if_pos (Nat.zero_le m), Nat.sub_zero]

/-- No entry has a name. -/
def Unnamed (l : List (Option ℕ × V)) : Prop := ∀ k ∈ keys l, k ≠ none

theorem unnamed_number (i : ℕ) (vs : List V) : Unnamed (number i vs) := by
  intro k hk
  rw [keys_number] at hk
  obtain ⟨m, -, rfl⟩ := List.mem_map.mp hk
  exact Option.some_ne_none m

section Holds
variable {l : List (Option ℕ × V)} {vals : List V}

theorem mem_numbers {m : ℕ} : m ∈ l.filterMap Prod.fst ↔ some m ∈ keys l := by
  simp [keys, List.mem_filterMap]

theorem Holds.mem_keys (h : Holds l vals) {m : ℕ} : some m ∈ keys l ↔ m < vals.length := by
  have hn := (get_eq_none_iff l (some m)).not
  rw [not_not, h.get m] at hn
  rw [← hn, List.getElem?_eq_none_iff, not_le]

theorem Holds.numbers_perm (h : Holds l vals) : (l.filterMap Prod.fst).Perm (List.range vals.length) := by
  apply (List.perm_ext_iff_of_nodup h.nodup List.nodup_range).mpr
  intro m
  rw [mem_numbers, h.mem_keys, List.mem_range]

theorem Holds.length_numbers (h : Holds l vals) : (l.filterMap Prod.fst).length = vals.length := by
  rw [h.numbers_perm.length_eq, List.length_range]

theorem Holds.length_le (h : Holds l vals) : vals.length ≤ l.length := by
  rw [← h.length_numbers]
  exact List.length_filterMap_le Prod.fst l

/-- The entries with a name are those over. -/
theorem Holds.unnamed_iff (h : Holds l vals) : Unnamed l ↔ l.length ≤ vals.length := by
  have hcount : l.countP (fun e => e.1.isSome) = vals.length := by
    rw [← h.length_numbers, List.length_filterMap_eq_countP]
  have hall : Unnamed l ↔ ∀ e ∈ l, e.1.isSome = true := by
    unfold Unnamed keys
    simp [Option.ne_none_iff_isSome]
  rw [hall, ← List.countP_eq_length, hcount]
  have := h.length_le
  omega

theorem Unnamed.keys_nodup (hu : Unnamed l) (h : (l.filterMap Prod.fst).Nodup) : (keys l).Nodup := by
  have he : keys l = (l.filterMap Prod.fst).map some := by
    unfold Unnamed at hu
    clear h
    induction l with
    | nil => rfl
    | cons e l ih =>
      obtain ⟨k, v⟩ := e
      cases k with
      | none => exact absurd rfl (hu none List.mem_cons_self)
      | some m =>
        rw [keys_cons, ih (fun k hk => hu k (List.mem_cons_of_mem _ hk)), List.filterMap_cons]
        rfl
  rw [he]
  exact h.map (Option.some_injective ℕ)

/-- Without names the entries are the sequence's, in some order. -/
theorem Holds.perm (h : Holds l vals) (hu : Unnamed l) : l.Perm (number 0 vals) := by
  have hl := hu.keys_nodup h.nodup
  have hv : (keys (number 0 vals)).Nodup := by
    have hr : (List.range' 0 vals.length).Nodup := List.nodup_range'
    rw [keys_number]
    exact hr.map (Option.some_injective ℕ)
  apply (List.perm_ext_iff_of_nodup hl.of_map hv.of_map).mpr
  rintro ⟨_ | m, v⟩
  · constructor
    · intro hm
      exact absurd rfl (hu none (List.mem_map_of_mem hm))
    · intro hm
      have hk : none ∈ keys (number 0 vals) := List.mem_map_of_mem hm
      rw [keys_number] at hk
      simp at hk
  · rw [mem_iff_get hl, mem_iff_get hv, h.get, get_number, if_pos (Nat.zero_le m), Nat.sub_zero]

theorem map_snd_number (i : ℕ) (vs : List V) : (number i vs).map Prod.snd = vs := by
  induction vs generalizing i with
  | nil => rfl
  | cons v vs ih => rw [number, List.map_cons, ih]

theorem Holds.values_perm (h : Holds l vals) (hu : Unnamed l) : (l.map Prod.snd).Perm vals := by
  have hp := (h.perm hu).map Prod.snd
  rwa [map_snd_number] at hp

/-- Other values under the same numbers. -/
theorem Holds.of_keys {l' : List (Option ℕ × V)} (h : Holds l vals) (hk : keys l' = keys l) (d : V) :
    Holds l' ((List.range vals.length).map fun m => (Assoc.get l' (some m)).getD d) := by
  have hnumbers : l'.filterMap Prod.fst = l.filterMap Prod.fst := by
    have he := congrArg (List.filterMap id) hk
    unfold keys at he
    rwa [List.filterMap_map, List.filterMap_map] at he
  refine ⟨hnumbers ▸ h.nodup, fun m => ?_⟩
  have hmem := h.mem_keys (m := m)
  rw [← hk] at hmem
  rw [List.getElem?_map]
  by_cases hm : m < vals.length
  · obtain ⟨w, hw⟩ := Option.ne_none_iff_exists'.mp
      (fun hn => (get_eq_none_iff l' (some m)).mp hn (hmem.mpr hm))
    rw [List.getElem?_range hm, Option.map_some, hw]
    rfl
  · rw [List.getElem?_eq_none (by simpa using hm), (get_eq_none_iff l' (some m)).mpr (fun hk => hm (hmem.mp hk))]
    rfl

theorem Holds.values {d : V} (h : Holds l vals) (hd : ∀ e ∈ l, e.2 ≠ d) : ∀ v ∈ vals, v ≠ d := by
  intro v hv
  obtain ⟨m, hm⟩ := List.mem_iff_getElem?.mp hv
  exact hd _ (mem_of_get ((h.get m).trans hm))

end Holds

/-! ### Numbering anew -/

/-- The value of a number. -/
def lookup (d : V) (l : List (Option ℕ × V)) (m : ℕ) : V := (Assoc.get l (some m)).getD d

/-- The first `i` entries, and values numbered from `i` on. -/
def splice (l : List (Option ℕ × V)) (i : ℕ) (ws : List V) : List (Option ℕ × V) := l.take i ++ number i ws

/-- A value put at a place. -/
def insertAt (l : List (Option ℕ × V)) (i : ℕ) (v : V) : List (Option ℕ × V) :=
  splice l i (v :: (l.drop i).map Prod.snd)

/-- The entry at a place taken out. -/
def removeAt (l : List (Option ℕ × V)) (i : ℕ) : List (Option ℕ × V) := splice l i ((l.drop (i + 1)).map Prod.snd)

/-- No entry has a name, the first `i` have the first `i` numbers, and the others are in order. -/
structure Aligned (l : List (Option ℕ × V)) (vals : List V) (i : ℕ) : Prop where
  unnamed : Unnamed l
  front : (keys (l.take i)).Perm ((List.range i).map some)
  back : (l.drop i).map Prod.snd = vals.drop i

section Splice
variable {l : List (Option ℕ × V)} {vals ws : List V} {d : V} {i m : ℕ}

theorem get_splice (l : List (Option ℕ × V)) (i m : ℕ) (ws : List V) : Assoc.get (splice l i ws) (some m) =
    (Assoc.get (l.take i) (some m)).or (if i ≤ m then ws[m - i]? else none) := by
  rw [splice, get_append_list, get_number]

/-- A number with a value other than `d` is one of the sequence. -/
theorem lt_of_lookup {vs : List V} {w : V} (h : lookup d l m = vs[m]?.getD d) (hw : lookup d l m = w)
    (hd : w ≠ d) : m < vs.length := by
  by_contra hm
  rw [List.getElem?_eq_none (not_lt.mp hm), hw] at h
  exact hd h

theorem get_take_lookup (hd : ∀ e ∈ l, e.2 ≠ d) {w : V} (hm : Assoc.get (l.take i) (some m) = some w) : w ≠ d :=
  hd _ ((List.take_subset i l) (mem_of_get hm))

/-- The last of the values numbered anew is at its number, or another entry is. -/
theorem lookup_splice_last (hd : ∀ e ∈ l, e.2 ≠ d) (hm : i ≤ m) {w : V} (hw : ws[m - i]? = some w)
    (hwd : w ≠ d) : lookup d (splice l i ws) m ≠ d := by
  unfold lookup
  rw [get_splice, if_pos hm, hw]
  cases hget : Assoc.get (l.take i) (some m) with
  | none => exact hwd
  | some w' => exact get_take_lookup hd hget

/-- The numbers before `i` are in front when each has an entry there. -/
theorem front_perm (hfront : ∀ m < i, some m ∈ keys (l.take i)) :
    (keys (l.take i)).Perm ((List.range i).map some) := by
  have hsub : ((List.range i).map some) ⊆ keys (l.take i) := by
    intro k hk
    obtain ⟨m, hm, rfl⟩ := List.mem_map.mp hk
    exact hfront m (List.mem_range.mp hm)
  have hn : ((List.range i).map some).Nodup := List.nodup_range.map (Option.some_injective ℕ)
  refine ((List.subperm_of_subset hn hsub).perm_of_length_le ?_).symm
  simp [keys]

theorem mem_front (hfront : (keys (l.take i)).Perm ((List.range i).map some)) : some m ∈ keys (l.take i) ↔ m < i := by
  rw [hfront.mem_iff]
  simp

/-- The first entries of an aligned list have the first values. -/
theorem get_front (hfront : (keys (l.take i)).Perm ((List.range i).map some)) (h : Holds l vals) (m : ℕ) :
    Assoc.get (l.take i) (some m) = if m < i then vals[m]? else none := by
  split_ifs with hm
  · have hsome : Assoc.get (l.take i) (some m) ≠ none :=
      fun hn => (get_eq_none_iff _ _).mp hn ((mem_front hfront).mpr hm)
    obtain ⟨w, hw⟩ := Option.ne_none_iff_exists'.mp hsome
    rw [← h.get m]
    conv_rhs => rw [← List.take_append_drop i l, get_append_list, hw]
    rw [hw]
    rfl
  · exact (get_eq_none_iff _ _).mpr (fun hk => hm ((mem_front hfront).mp hk))

/-- What an aligned splice holds. -/
theorem lookup_splice (hfront : (keys (l.take i)).Perm ((List.range i).map some)) (h : Holds l vals) (d : V)
    (m : ℕ) (ws : List V) :
    lookup d (splice l i ws) m = (if m < i then vals[m]? else ws[m - i]?).getD d := by
  rw [lookup, get_splice, get_front hfront h]
  by_cases hm : m < i
  · rw [if_pos hm, if_pos hm, if_neg (by omega), Option.or_none]
  · rw [if_neg hm, if_neg hm, if_pos (by omega), Option.none_or]

/-- Where a splice keeps the values before `i`, their entries are in front. -/
theorem front_of_lookup (h : Holds l vals) (hd : ∀ e ∈ l, e.2 ≠ d) (hi : i ≤ vals.length) {vs : List V}
    (hvs : ∀ m < i, vs[m]? = vals[m]?) (hl : ∀ m, lookup d (splice l i ws) m = vs[m]?.getD d) :
    (keys (l.take i)).Perm ((List.range i).map some) := by
  apply front_perm
  intro m hm
  by_contra hk
  have hget := (get_eq_none_iff (l.take i) (some m)).mpr hk
  have hlm := hl m
  rw [lookup, get_splice, hget, if_neg (by omega), hvs m hm,
    List.getElem?_eq_getElem (show m < vals.length by omega)] at hlm
  exact h.values hd _ (List.getElem_mem _) hlm.symm

theorem mem_keys_splice {k : Option ℕ} (hk : k ∈ keys (splice l i ws)) :
    k ∈ keys l ∨ ∃ m, k = some m ∧ m < i + ws.length := by
  have happ : keys (splice l i ws) = keys (l.take i) ++ keys (number i ws) := List.map_append
  rw [happ, keys_number] at hk
  rcases List.mem_append.mp hk with hk | hk
  · exact .inl (List.map_subset Prod.fst (List.take_subset i l) hk)
  · obtain ⟨m, hm, rfl⟩ := List.mem_map.mp hk
    obtain ⟨-, hm⟩ := List.mem_range'_1.mp hm
    exact .inr ⟨m, rfl, hm⟩

theorem Unnamed.splice (hu : Unnamed l) (i : ℕ) (ws : List V) : Unnamed (splice l i ws) := by
  intro k hk
  rcases mem_keys_splice hk with hk | ⟨m, rfl, -⟩
  · exact hu k hk
  · exact Option.some_ne_none m

/-- Numbers behind all others have no entry. -/
theorem lookup_splice_of_ge (h : Holds l vals) (d : V) (hm : vals.length ≤ m) (hi : i + ws.length ≤ m) :
    lookup d (splice l i ws) m = d := by
  have hnone : Assoc.get (splice l i ws) (some m) = none := by
    apply (get_eq_none_iff _ _).mpr
    intro hk
    rcases mem_keys_splice hk with hk | ⟨m', he, hm'⟩
    · exact absurd (h.mem_keys.mp hk) (by omega)
    · obtain rfl := Option.some.inj he
      omega
  rw [lookup, hnone]
  rfl

/-! ### The operations on the sequence -/

theorem insertAt_length (l : List (Option ℕ × V)) : insertAt l l.length d = l ++ [(some l.length, d)] := by
  simp [insertAt, splice, number]

/-- The entries moved up have one number more than there were entries. -/
theorem lookup_insertAt_length (hd : ∀ e ∈ l, e.2 ≠ d) (hi : i < l.length) (v : V) :
    lookup d (insertAt l i v) l.length ≠ d := by
  have hget := List.getElem?_eq_getElem (show l.length - 1 < l.length by omega)
  refine lookup_splice_last hd hi.le ?_ (hd _ (List.mem_of_getElem? hget))
  rw [List.getElem?_cons, if_neg (by omega), List.getElem?_map, List.getElem?_drop,
    show i + (l.length - i - 1) = l.length - 1 by omega, hget]
  rfl

/-- A value put at a place shows nowhere only as `d` behind all entries. -/
theorem insertAt_unchanged_iff (h : Holds l vals) (hd : ∀ e ∈ l, e.2 ≠ d) (hi : i ≤ l.length) (v : V) :
    (∀ m, lookup d (insertAt l i v) m = vals[m]?.getD d) ↔ i = l.length ∧ v = d := by
  have hlen := h.length_le
  constructor
  · intro hl
    rcases hi.lt_or_eq with hlt | rfl
    · have := lt_of_lookup (hl l.length) rfl (lookup_insertAt_length hd hlt v)
      omega
    · refine ⟨rfl, ?_⟩
      by_contra hv
      have hne : lookup d (insertAt l l.length v) l.length ≠ d :=
        lookup_splice_last hd le_rfl (w := v) (by simp) hv
      have := lt_of_lookup (hl l.length) rfl hne
      omega
  · rintro ⟨rfl, rfl⟩ m
    rw [insertAt_length, lookup, get_append_list, h.get]
    cases vals[m]? with
    | some w => rfl
    | none =>
      rw [Option.none_or, Assoc.get, Assoc.get]
      split_ifs <;> rfl

/-- **Putting a value at a place** puts it at the number exactly when the list is aligned. -/
theorem insertAt_iff (h : Holds l vals) (hd : ∀ e ∈ l, e.2 ≠ d) (hn : i ≤ vals.length) (v : V) :
    (∀ m, lookup d (insertAt l i v) m = ((vals.insertIdx i v)[m]?).getD d) ↔ Aligned l vals i := by
  have hi := hn.trans h.length_le
  constructor
  · intro hl
    have hu : Unnamed l := by
      apply h.unnamed_iff.mpr
      by_contra hlen
      have hne := lookup_insertAt_length hd (show i < l.length by omega) v
      have := lt_of_lookup (hl l.length) rfl hne
      rw [List.length_insertIdx, if_pos hn] at this
      omega
    have hfront : (keys (l.take i)).Perm ((List.range i).map some) := by
      refine front_of_lookup h hd hn (fun m hm => ?_) hl
      rw [List.getElem?_insertIdx, if_pos hm]
    refine ⟨hu, hfront, List.ext_getElem? fun m => ?_⟩
    have hlm := hl (i + m + 1)
    rw [insertAt, lookup_splice hfront h, if_neg (by omega), List.getElem?_insertIdx, if_neg (by omega),
      if_neg (by omega), show i + m + 1 - i = m + 1 by omega, List.getElem?_cons_succ, Nat.add_sub_cancel] at hlm
    have hlen := le_antisymm (h.unnamed_iff.mp hu) h.length_le
    by_cases hm : i + m < l.length
    · conv_rhs => rw [List.getElem?_drop]
      rw [List.getElem?_eq_getElem (show m < ((l.drop i).map Prod.snd).length by simp; omega),
        List.getElem?_eq_getElem (show i + m < vals.length by omega)] at hlm ⊢
      exact congrArg some hlm
    · rw [List.getElem?_eq_none (by simp; omega), List.getElem?_eq_none (by simp; omega)]
  · intro ha m
    rw [insertAt, lookup_splice ha.front h, List.getElem?_insertIdx, ha.back]
    split_ifs with h1 h2 h3
    · rfl
    · subst h2
      simp
    · omega
    · rw [List.getElem?_cons, if_neg (by omega), List.getElem?_drop]
      congr 2
      omega

/-- **Taking out the entry at a place** returns and takes out the value with the number exactly when
there is one and the list is aligned. -/
theorem removeAt_iff (h : Holds l vals) (hd : ∀ e ∈ l, e.2 ≠ d) (hi : i < l.length) :
    (((l[i]?).map Prod.snd).getD d = vals[i]?.getD d ∧
        ∀ m, lookup d (removeAt l i) m = ((vals.eraseIdx i)[m]?).getD d) ↔
      i < vals.length ∧ Aligned l vals i := by
  constructor
  · rintro ⟨hr, hl⟩
    have hn : i < vals.length := by
      by_contra hn
      rw [List.getElem?_eq_getElem hi, List.getElem?_eq_none (by omega)] at hr
      exact hd _ (List.getElem_mem hi) hr
    have hu : Unnamed l := by
      apply h.unnamed_iff.mpr
      by_contra hlen
      have hget := List.getElem?_eq_getElem (show l.length - 1 < l.length by omega)
      have hne : lookup d (removeAt l i) (l.length - 2) ≠ d := by
        refine lookup_splice_last hd (by omega) ?_ (hd _ (List.mem_of_getElem? hget))
        rw [List.getElem?_map, List.getElem?_drop, show i + 1 + (l.length - 2 - i) = l.length - 1 by omega, hget]
        rfl
      have := lt_of_lookup (hl (l.length - 2)) rfl hne
      rw [List.length_eraseIdx_of_lt hn] at this
      omega
    have hfront : (keys (l.take i)).Perm ((List.range i).map some) := by
      refine front_of_lookup h hd hn.le (fun m hm => ?_) hl
      rw [List.getElem?_eraseIdx, if_pos hm]
    refine ⟨hn, hu, hfront, ?_⟩
    have hlen := le_antisymm (h.unnamed_iff.mp hu) h.length_le
    apply List.ext_getElem?
    rintro (_ | m)
    · rw [List.getElem?_eq_getElem hi, List.getElem?_eq_getElem hn] at hr
      rw [List.getElem?_map, List.getElem?_drop, List.getElem?_drop, Nat.add_zero, List.getElem?_eq_getElem hi,
        List.getElem?_eq_getElem hn]
      exact congrArg some hr
    · have hlm := hl (i + m)
      rw [removeAt, lookup_splice hfront h, if_neg (by omega), List.getElem?_eraseIdx, if_neg (by omega),
        Nat.add_sub_cancel_left, List.getElem?_map, List.getElem?_drop] at hlm
      rw [List.getElem?_map, List.getElem?_drop, List.getElem?_drop]
      by_cases hm : i + 1 + m < l.length
      · rw [show i + (m + 1) = i + 1 + m by omega]
        rw [show i + m + 1 = i + 1 + m by omega, List.getElem?_eq_getElem hm,
          List.getElem?_eq_getElem (show i + 1 + m < vals.length by omega)] at hlm
        rw [List.getElem?_eq_getElem hm, List.getElem?_eq_getElem (show i + 1 + m < vals.length by omega)]
        exact congrArg some hlm
      · rw [List.getElem?_eq_none (by omega), List.getElem?_eq_none (by omega)]
        rfl
  · rintro ⟨hn, ha⟩
    constructor
    · have hb := congrArg (·[0]?) ha.back
      simp only [List.getElem?_map, List.getElem?_drop, Nat.add_zero] at hb
      rw [hb]
    · intro m
      have hb : (l.drop (i + 1)).map Prod.snd = vals.drop (i + 1) := by
        have hb := congrArg List.tail ha.back
        rwa [← List.map_tail, List.tail_drop, List.tail_drop] at hb
      rw [removeAt, lookup_splice ha.front h, List.getElem?_eraseIdx, hb]
      split_ifs with hm
      · rfl
      · rw [List.getElem?_drop]
        congr 2
        omega

/-- A value put behind the last entry is that of the sequence's next number when no entry has a name. -/
theorem lookup_append_iff (h : Holds l vals) (v : V) :
    lookup d (l ++ [(some l.length, v)]) vals.length = v ↔ Unnamed l ∨ v = d := by
  rw [lookup, get_append_list, h.get, List.getElem?_eq_none le_rfl, Option.none_or, Assoc.get, Assoc.get,
    h.unnamed_iff]
  have := h.length_le
  by_cases hlen : l.length = vals.length
  · rw [if_pos (congrArg some hlen)]
    exact iff_of_true rfl (.inl hlen.le)
  · rw [if_neg (fun he => hlen (Option.some.inj he))]
    constructor
    · exact fun hv => .inr hv.symm
    · rintro (hu | hv)
      · omega
      · exact hv.symm

/-- **Taking out the last entry** takes out the last value exactly when it has the last number. -/
theorem removeLast_iff {e : Option ℕ × V} (h : Holds (l ++ [e]) vals) (hd : ∀ x ∈ l ++ [e], x.2 ≠ d) :
    (e.2 = vals.getLast?.getD d ∧ ∀ m, lookup d l m = (vals.dropLast[m]?).getD d) ↔
      ∃ n, e.1 = some n ∧ vals.length = n + 1 := by
  have hget : ∀ m, (Assoc.get l (some m)).or (Assoc.get [e] (some m)) = vals[m]? := by
    intro m
    rw [← get_append_list, h.get]
  constructor
  · rintro ⟨he, hl⟩
    have hne : vals ≠ [] := by
      rintro rfl
      exact hd e (by simp) he
    obtain ⟨n, hn⟩ := Nat.exists_eq_succ_of_ne_zero (fun h0 => hne (List.length_eq_zero_iff.mp h0))
    have hnone : Assoc.get l (some n) = none := by
      have hln := hl n
      rw [List.getElem?_eq_none (by rw [List.length_dropLast]; omega), lookup] at hln
      cases hg : Assoc.get l (some n) with
      | none => rfl
      | some w =>
        rw [hg] at hln
        exact absurd hln (hd _ (List.mem_append_left _ (mem_of_get hg)))
    have hlast := hget n
    rw [hnone, Option.none_or, List.getElem?_eq_getElem (by omega)] at hlast
    refine ⟨n, ?_, hn⟩
    have hmem := mem_of_get hlast
    rw [List.mem_singleton] at hmem
    exact (congrArg Prod.fst hmem).symm
  · rintro ⟨n, he, hn⟩
    have hnone : Assoc.get l (some n) = none := by
      apply (get_eq_none_iff _ _).mpr
      intro hk
      have hnd := h.nodup
      rw [List.filterMap_append, List.nodup_append] at hnd
      exact hnd.2.2 n (mem_numbers.mpr hk) n (by simp [he]) rfl
    have hsingle : ∀ m, Assoc.get [e] (some m) = if n = m then some e.2 else none := by
      intro m
      rw [Assoc.get, he]
      simp [Assoc.get]
    constructor
    · have hlast := hget n
      rw [hnone, hsingle, if_pos rfl, Option.none_or] at hlast
      rw [List.getLast?_eq_getElem?, hn, Nat.add_sub_cancel, ← hlast]
      rfl
    · intro m
      rw [lookup]
      congr 1
      rcases Nat.lt_trichotomy m n with hm | rfl | hm
      · have hlm := hget m
        rw [hsingle, if_neg (by omega), Option.or_none] at hlm
        rw [hlm, List.getElem?_dropLast, if_pos (by omega)]
      · rw [hnone, List.getElem?_dropLast, if_neg (by omega)]
      · have hlm := hget m
        rw [hsingle, if_neg (by omega), Option.or_none, List.getElem?_eq_none (by omega)] at hlm
        rw [hlm, List.getElem?_dropLast, if_neg (by omega)]

/-- **Numbering all entries anew**, with their values in some order, gives a rearrangement of the
sequence exactly when no entry has a name. -/
theorem number_iff (h : Holds l vals) (hd : ∀ e ∈ l, e.2 ≠ d) {ws : List V} (hws : ws.Perm (l.map Prod.snd)) :
    (∃ vs : List V, vs.Perm vals ∧ ∀ m, lookup d (number 0 ws) m = vs[m]?.getD d) ↔ Unnamed l := by
  have hlook : ∀ m, lookup d (number 0 ws) m = ws[m]?.getD d := by
    intro m
    rw [lookup, get_number, if_pos (Nat.zero_le m), Nat.sub_zero]
  have hlen : ws.length = l.length := by rw [hws.length_eq, List.length_map]
  constructor
  · rintro ⟨vs, hp, hl⟩
    apply h.unnamed_iff.mpr
    by_contra hcon
    have hget := List.getElem?_eq_getElem (show vals.length < ws.length by omega)
    have hmem : ws[vals.length] ∈ l.map Prod.snd := hws.mem_iff.mp (List.getElem_mem _)
    obtain ⟨e, he, hw⟩ := List.mem_map.mp hmem
    have hne : lookup d (number 0 ws) vals.length ≠ d := by
      rw [hlook, hget]
      exact hw ▸ hd e he
    have := lt_of_lookup (hl vals.length) rfl hne
    rw [hp.length_eq] at this
    omega
  · intro hu
    exact ⟨ws, hws.trans (h.values_perm hu), hlook⟩

end Splice

end Store.Sequence

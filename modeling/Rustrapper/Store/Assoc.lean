/-
# Lists of named entries

A list of keys with their values, searched for the first match. `put` replaces
the first entry of a key or appends one, `remove` takes the first one out. While
no key occurs twice, the list is the map `get` (`get_put`, `get_remove`), and
`put` and `remove` keep it so.
-/
import Mathlib

namespace Store.Assoc

variable {K V : Type*}

/-- The keys, in order. -/
def keys (l : List (K × V)) : List K := l.map Prod.fst

@[simp] theorem keys_nil : keys ([] : List (K × V)) = [] := rfl

@[simp] theorem keys_cons (e : K × V) (l : List (K × V)) : keys (e :: l) = e.1 :: keys l := rfl

variable [DecidableEq K]

/-- The value of the first entry of `k`. -/
def get : List (K × V) → K → Option V
  | [], _ => none
  | e :: l, k => if e.1 = k then some e.2 else get l k

/-- Replace the value of the first entry of `k`, or append an entry. -/
def put : List (K × V) → K → V → List (K × V)
  | [], k, v => [(k, v)]
  | e :: l, k, v => if e.1 = k then (e.1, v) :: l else e :: put l k v

/-- Take out the first entry of `k`. -/
def remove : List (K × V) → K → List (K × V)
  | [], _ => []
  | e :: l, k => if e.1 = k then l else e :: remove l k

/-! ### What is found -/

theorem get_eq_none_iff (l : List (K × V)) (k : K) : get l k = none ↔ k ∉ keys l := by
  induction l with
  | nil => simp [get]
  | cons e l ih =>
    by_cases h : e.1 = k
    · simp [get, h]
    · simp [get, h, ih, Ne.symm h]

theorem get_append (l : List (K × V)) (k j : K) (v : V) :
    get (l ++ [(k, v)]) j = (get l j).or (if k = j then some v else none) := by
  induction l with
  | nil => simp [get]
  | cons e l ih =>
    by_cases h : e.1 = j
    · simp [get, h]
    · simp [get, h, ih]

/-- An entry appended for a new key is the value of that key. -/
theorem get_append_new {l : List (K × V)} {k : K} (h : get l k = none) (v : V) :
    get (l ++ [(k, v)]) = Function.update (get l) k (some v) := by
  funext j
  rw [get_append]
  by_cases hj : j = k
  · subst hj
    simp [h]
  · simp [Ne.symm hj, Function.update_of_ne hj]

theorem get_put_self (l : List (K × V)) (k : K) (v : V) : get (put l k v) k = some v := by
  induction l with
  | nil => simp [put, get]
  | cons e l ih =>
    unfold put
    split_ifs with h
    · simp [get, h]
    · simp [get, h, ih]

theorem get_put_of_ne (l : List (K × V)) {k j : K} (hj : j ≠ k) (v : V) :
    get (put l k v) j = get l j := by
  induction l with
  | nil => simp [put, get, Ne.symm hj]
  | cons e l ih =>
    unfold put
    split_ifs with h
    · simp [get, h, Ne.symm hj]
    · simp [get, ih]

/-- `put` gives the key its value and leaves the others. -/
theorem get_put (l : List (K × V)) (k : K) (v : V) :
    get (put l k v) = Function.update (get l) k (some v) := by
  funext j
  by_cases hj : j = k
  · rw [hj, get_put_self, Function.update_self]
  · rw [get_put_of_ne l hj, Function.update_of_ne hj]

/-- Putting the value that is there changes nothing. -/
theorem put_eq_self {l : List (K × V)} {k : K} {v : V} (h : get l k = some v) : put l k v = l := by
  induction l with
  | nil => cases h
  | cons e l ih =>
    unfold get at h
    unfold put
    split_ifs at h ⊢ with hk
    · cases h
      rfl
    · rw [ih h]

theorem get_remove_self {l : List (K × V)} (h : (keys l).Nodup) (k : K) : get (remove l k) k = none := by
  induction l with
  | nil => rfl
  | cons e l ih =>
    obtain ⟨hnew, hrest⟩ := List.nodup_cons.mp h
    unfold remove
    split_ifs with hk
    · exact (get_eq_none_iff l k).mpr (hk ▸ hnew)
    · rw [get, if_neg hk]
      exact ih hrest

theorem get_remove_of_ne (l : List (K × V)) {k j : K} (hj : j ≠ k) : get (remove l k) j = get l j := by
  induction l with
  | nil => rfl
  | cons e l ih =>
    unfold remove
    split_ifs with hk
    · rw [get, if_neg (hk ▸ Ne.symm hj)]
    · simp [get, ih]

/-- `remove` forgets the key, where no key occurs twice. -/
theorem get_remove {l : List (K × V)} (h : (keys l).Nodup) (k : K) :
    get (remove l k) = Function.update (get l) k none := by
  funext j
  by_cases hj : j = k
  · rw [hj, get_remove_self h, Function.update_self]
  · rw [get_remove_of_ne l hj, Function.update_of_ne hj]

/-! ### No key twice -/

theorem mem_keys_put {l : List (K × V)} {k j : K} {v : V} (h : j ∈ keys (put l k v)) :
    j = k ∨ j ∈ keys l := by
  induction l with
  | nil => simpa [put] using h
  | cons e l ih =>
    unfold put at h
    split_ifs at h with hk
    · exact .inr h
    · rcases List.mem_cons.mp h with h | h
      · exact .inr (List.mem_cons.mpr (.inl h))
      · exact (ih h).imp id (List.mem_cons_of_mem _)

theorem keys_remove_subset (l : List (K × V)) (k : K) : keys (remove l k) ⊆ keys l := by
  induction l with
  | nil => exact List.Subset.refl _
  | cons e l ih =>
    unfold remove
    split_ifs with hk
    · exact List.subset_cons_self _ _
    · exact List.cons_subset_cons _ ih

theorem nodup_put {l : List (K × V)} (h : (keys l).Nodup) (k : K) (v : V) : (keys (put l k v)).Nodup := by
  induction l with
  | nil => simp [put]
  | cons e l ih =>
    obtain ⟨hnew, hrest⟩ := List.nodup_cons.mp h
    unfold put
    split_ifs with hk
    · exact h
    · apply List.nodup_cons.mpr
      refine ⟨?_, ih hrest⟩
      intro hmem
      rcases mem_keys_put hmem with he | he
      · exact hk he
      · exact hnew he

theorem nodup_remove {l : List (K × V)} (h : (keys l).Nodup) (k : K) : (keys (remove l k)).Nodup := by
  induction l with
  | nil => exact h
  | cons e l ih =>
    obtain ⟨hnew, hrest⟩ := List.nodup_cons.mp h
    unfold remove
    split_ifs with hk
    · exact hrest
    · apply List.nodup_cons.mpr
      exact ⟨fun hmem => hnew (keys_remove_subset l k hmem), ih hrest⟩

theorem nodup_append_new {l : List (K × V)} (h : (keys l).Nodup) {k : K} (hk : get l k = none) (v : V) :
    (keys (l ++ [(k, v)])).Nodup := by
  have hnew := (get_eq_none_iff l k).mp hk
  unfold keys at h hnew ⊢
  rw [List.map_append, List.nodup_append]
  refine ⟨h, by simp, ?_⟩
  intro a ha b hb
  have hb : b = k := by simpa using hb
  exact fun he => hnew (hb ▸ he ▸ ha)

theorem mem_iff_get {l : List (K × V)} (h : (keys l).Nodup) (k : K) (v : V) :
    (k, v) ∈ l ↔ get l k = some v := by
  induction l with
  | nil => simp [get]
  | cons e l ih =>
    obtain ⟨hnew, hrest⟩ := List.nodup_cons.mp h
    rw [List.mem_cons, get]
    by_cases hk : e.1 = k
    · rw [if_pos hk]
      have hout : (k, v) ∉ l := fun hm => hnew (hk ▸ List.mem_map_of_mem hm)
      constructor
      · rintro (he | hm)
        · rw [← he]
        · exact absurd hm hout
      · intro he
        exact .inl (Prod.ext hk.symm (Option.some.inj he).symm)
    · rw [if_neg hk, ← ih hrest]
      exact or_iff_right fun he => hk (by rw [← he])

/-! ### The order of the keys -/

theorem keys_remove_sublist (l : List (K × V)) (k : K) : (keys (remove l k)).Sublist (keys l) := by
  induction l with
  | nil => exact List.Sublist.refl _
  | cons e l ih =>
    unfold remove
    split_ifs with hk
    · exact List.sublist_cons_self _ _
    · exact ih.cons_cons _

theorem keys_put_of_mem {l : List (K × V)} {k : K} (h : k ∈ keys l) (v : V) :
    keys (put l k v) = keys l := by
  induction l with
  | nil => cases h
  | cons e l ih =>
    unfold put
    split_ifs with hk
    · rfl
    · have hrest : k ∈ keys l := by
        rcases List.mem_cons.mp h with he | he
        · exact absurd he.symm hk
        · exact he
      rw [keys_cons, ih hrest, keys_cons]

theorem remove_of_not_mem {l : List (K × V)} {k : K} (h : k ∉ keys l) : remove l k = l := by
  induction l with
  | nil => rfl
  | cons e l ih =>
    rw [keys_cons, List.mem_cons, not_or] at h
    rw [remove, if_neg (Ne.symm h.1), ih h.2]

theorem put_of_not_mem {l : List (K × V)} {k : K} (h : k ∉ keys l) (v : V) : put l k v = l ++ [(k, v)] := by
  induction l with
  | nil => rfl
  | cons e l ih =>
    rw [keys_cons, List.mem_cons, not_or] at h
    rw [put, if_neg (Ne.symm h.1), ih h.2, List.cons_append]

end Store.Assoc

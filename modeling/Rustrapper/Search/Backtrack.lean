/-
# Backtracking over lengths

A search that goes through steps, each of which moves a position forward by
one of several lengths that it offers in an order. What the search is for needs
no algorithm: a choice of lengths, one a step, is admissible when every step
admits its length and the position behind the last is accepted, and one choice
comes before another when it is preferred at the first step where they differ.
`firstChoice` tries the lengths in order and goes back when the rest fails; it
finds the first admissible choice (`firstChoice_eq_some_iff`), and nothing
exactly when there is none (`firstChoice_eq_none_iff`).

`leftmost` looks for the first position from which something succeeds, and
`firstOf` is the first success of a computation with a state.
-/
import Mathlib

namespace Search.Backtrack

/-! ### Steps and choices -/

/-- What lengths a step admits at a position, which of two it prefers, and the
lengths in the order of preference. -/
structure Step where
  Admits : ℕ → ℕ → Prop
  Prefers : ℕ → ℕ → Prop
  lengths : ℕ → List ℕ
  mem_lengths : ∀ {i n}, n ∈ lengths i ↔ Admits i n
  sorted : ∀ i, (lengths i).Pairwise Prefers
  asymm : ∀ {m n}, Prefers m n → ¬ Prefers n m

variable {ok : ℕ → Bool}

/-- The steps admit the lengths, one a step, from position `i` on. -/
def Admissible (ok : ℕ → Bool) : List Step → ℕ → List ℕ → Prop
  | [], i, [] => ok i = true
  | t :: ts, i, n :: ns => t.Admits i n ∧ Admissible ok ts (i + n) ns
  | _, _, _ => False

/-- The first choice is preferred at the first step where they differ. -/
def Before : List Step → List ℕ → List ℕ → Prop
  | t :: ts, m :: ms, n :: ns => t.Prefers m n ∨ m = n ∧ Before ts ms ns
  | _, _, _ => False

/-- The first of the admissible choices. -/
structure First (ok : ℕ → Bool) (ts : List Step) (i : ℕ) (ns : List ℕ) : Prop where
  admissible : Admissible ok ts i ns
  before : ∀ ms, Admissible ok ts i ms → ms ≠ ns → Before ts ns ms

/-- The search. -/
def firstChoice (ok : ℕ → Bool) : List Step → ℕ → Option (List ℕ)
  | [], i => if ok i then some [] else none
  | t :: ts, i => (t.lengths i).findSome? fun n => (firstChoice ok ts (i + n)).map (n :: ·)

theorem Before.asymm : ∀ {ts : List Step} {ms ns : List ℕ}, Before ts ms ns → ¬ Before ts ns ms
  | t :: ts, m :: ms, n :: ns, h, h' => by
    rcases h with h | ⟨rfl, h⟩
    · rcases h' with h' | ⟨rfl, -⟩
      · exact t.asymm h h'
      · exact t.asymm h h
    · rcases h' with h' | ⟨-, h'⟩
      · exact t.asymm h' h'
      · exact h.asymm h'

/-- There is one first choice at most. -/
theorem First.unique {ts : List Step} {i : ℕ} {ms ns : List ℕ} (hm : First ok ts i ms) (hn : First ok ts i ns) :
    ms = ns := by
  by_contra hne
  exact (hm.before ns hn.admissible (Ne.symm hne)).asymm (hn.before ms hm.admissible hne)

/-- **The search is complete**: it fails only where no choice is admissible. -/
theorem firstChoice_eq_none_iff : ∀ {ts : List Step} {i : ℕ},
    firstChoice ok ts i = none ↔ ∀ ns, ¬ Admissible ok ts i ns
  | [], i => by
    constructor
    · intro h ns hns
      cases ns with
      | nil => simp [firstChoice, show ok i = true from hns] at h
      | cons n ns => exact hns
    · intro h
      exact if_neg (h [])
  | t :: ts, i => by
    simp only [firstChoice, List.findSome?_eq_none_iff, Option.map_eq_none_iff]
    constructor
    · intro h ns hns
      cases ns with
      | nil => exact hns
      | cons n ns => exact firstChoice_eq_none_iff.mp (h n (t.mem_lengths.mpr hns.1)) ns hns.2
    · intro h n hn
      exact firstChoice_eq_none_iff.mpr fun ns hns => h (n :: ns) ⟨t.mem_lengths.mp hn, hns⟩

/-- **The search is sound**, and what it finds comes before every other choice. -/
theorem first_of_firstChoice : ∀ {ts : List Step} {i : ℕ} {ns : List ℕ}, firstChoice ok ts i = some ns →
    First ok ts i ns
  | [], i, ns, h => by
    have hok : ok i = true := by
      by_contra hok
      simp [firstChoice, hok] at h
    simp only [firstChoice, hok, if_true, Option.some.injEq] at h
    subst h
    refine ⟨hok, fun ms hms hne => ?_⟩
    cases ms with
    | nil => exact absurd rfl hne
    | cons m ms => exact hms.elim
  | t :: ts, i, ns, h => by
    obtain ⟨l, n, r, hl, hn, hnone⟩ := List.findSome?_eq_some_iff.mp h
    obtain ⟨ns, hrest, rfl⟩ := Option.map_eq_some_iff.mp hn
    have hf := first_of_firstChoice hrest
    have hsorted := t.sorted i
    rw [hl] at hsorted
    have hadm : t.Admits i n := t.mem_lengths.mp (by rw [hl]; simp)
    refine ⟨⟨hadm, hf.admissible⟩, fun ms hms hne => ?_⟩
    cases ms with
    | nil => exact hms.elim
    | cons m ms =>
      have hm : m ∈ l ++ n :: r := hl ▸ t.mem_lengths.mpr hms.1
      rcases List.mem_append.mp hm with hm | hm
      · -- a length tried before `n` has no admissible rest
        have := Option.map_eq_none_iff.mp (hnone m hm)
        exact absurd hms.2 (firstChoice_eq_none_iff.mp this ms)
      · rcases List.mem_cons.mp hm with rfl | hm
        · exact .inr ⟨rfl, hf.before ms hms.2 fun he => hne (by rw [he])⟩
        · exact .inl (List.rel_of_pairwise_cons (List.pairwise_append.mp hsorted).2.1 hm)

theorem firstChoice_eq_some_iff {ts : List Step} {i : ℕ} {ns : List ℕ} :
    firstChoice ok ts i = some ns ↔ First ok ts i ns := by
  refine ⟨first_of_firstChoice, fun h => ?_⟩
  cases hc : firstChoice ok ts i with
  | none => exact absurd h.admissible (firstChoice_eq_none_iff.mp hc ns)
  | some ms => rw [(first_of_firstChoice hc).unique h]

/-! ### The leftmost position -/

section Leftmost
variable {β : Type*} (here : ℕ → Option β) (anchored : Bool) (len : ℕ)

/-- Try the positions from `i` on; only `i` itself when `anchored`, none behind `len` but `i`. -/
def leftmostFrom : ℕ → ℕ → Option β
  | 0, _ => none
  | fuel + 1, i =>
    match here i with
    | some b => some b
    | none => if anchored ∨ i ≥ len then none else leftmostFrom fuel (i + 1)

def leftmost (i : ℕ) : Option β := leftmostFrom here anchored len (len - i + 1) i

variable {here anchored len}

theorem leftmost_of_some {i : ℕ} {b : β} (h : here i = some b) : leftmost here anchored len i = some b := by
  rw [leftmost, leftmostFrom, h]

theorem leftmost_stop {i : ℕ} (h : here i = none) (hs : anchored ∨ i ≥ len) : leftmost here anchored len i = none := by
  rw [leftmost, leftmostFrom, h]
  exact if_pos hs

theorem leftmost_next {i : ℕ} (h : here i = none) (hs : ¬ (anchored ∨ i ≥ len)) :
    leftmost here anchored len i = leftmost here anchored len (i + 1) := by
  have hlt : len - i = len - (i + 1) + 1 := by
    have := fun h => hs (.inr h)
    omega
  rw [leftmost, leftmostFrom, h, leftmost, hlt]
  exact if_neg hs

/-- A position that `leftmost` may look at from `i`. -/
def Reachable (anchored : Bool) (len i j : ℕ) : Prop := i ≤ j ∧ (j = i ∨ anchored = false ∧ j ≤ len)

/-- **What `leftmost` finds is at the least position that succeeds.** -/
theorem leftmost_eq_some_iff {i : ℕ} {b : β} : leftmost here anchored len i = some b ↔
    ∃ j, Reachable anchored len i j ∧ here j = some b ∧ ∀ k, i ≤ k → k < j → here k = none := by
  induction hd : len - i using Nat.strong_induction_on generalizing i with
  | h d ih =>
    cases hi : here i with
    | some c =>
      rw [leftmost_of_some hi]
      constructor
      · intro h
        exact ⟨i, ⟨le_rfl, .inl rfl⟩, hi.trans h, fun k _ _ => by omega⟩
      · rintro ⟨j, ⟨hij, -⟩, hj, hbefore⟩
        rcases hij.eq_or_lt with rfl | hlt
        · exact hi.symm.trans hj
        · exact absurd (hbefore i le_rfl hlt) (by simp [hi])
    | none =>
      by_cases hs : anchored ∨ i ≥ len
      · rw [leftmost_stop hi hs]
        refine iff_of_false (by simp) ?_
        rintro ⟨j, ⟨hij, hj⟩, hb, -⟩
        obtain rfl : j = i := by
          rcases hj with rfl | ⟨ha, hj⟩
          · rfl
          · rcases hs with hs | hs
            · simp [ha] at hs
            · omega
        simp [hi] at hb
      · rw [leftmost_next hi hs, ih (len - (i + 1)) (by have := fun h => hs (.inr h); omega) rfl]
        have ha : anchored = false := by simpa using fun h => hs (.inl h)
        have hlt : i < len := not_le.mp fun h => hs (.inr h)
        constructor
        · rintro ⟨j, ⟨hij, hj⟩, hb, hbefore⟩
          refine ⟨j, ⟨by omega, .inr ⟨ha, by omega⟩⟩, hb, fun k hk hkj => ?_⟩
          rcases hk.eq_or_lt with rfl | hk
          · exact hi
          · exact hbefore k hk hkj
        · rintro ⟨j, ⟨hij, hj⟩, hb, hbefore⟩
          have hne : i ≠ j := by
            rintro rfl
            simp [hi] at hb
          exact ⟨j, ⟨by omega, .inr ⟨ha, by omega⟩⟩, hb, fun k hk => hbefore k (by omega)⟩

theorem leftmost_eq_none_iff {i : ℕ} :
    leftmost here anchored len i = none ↔ ∀ j, Reachable anchored len i j → here j = none := by
  constructor
  · intro h
    by_contra hj
    push Not at hj
    obtain ⟨j, hr, hj⟩ := hj
    -- the least of the positions that succeed is found
    have hex : ∃ j, Reachable anchored len i j ∧ here j ≠ none := ⟨j, hr, hj⟩
    classical
    obtain ⟨hr, hj⟩ := Nat.find_spec hex
    obtain ⟨b, hb⟩ := Option.ne_none_iff_exists'.mp hj
    have hsome : leftmost here anchored len i = some b := by
      refine leftmost_eq_some_iff.mpr ⟨_, hr, hb, fun k hk hlt => ?_⟩
      by_contra hk'
      have hle : k ≤ len ∧ anchored = false := by
        rcases hr.2 with he | ⟨ha, hle⟩
        · omega
        · exact ⟨by omega, ha⟩
      exact Nat.find_min hex hlt ⟨⟨hk, .inr ⟨hle.2, hle.1⟩⟩, hk'⟩
    simp [h] at hsome
  · intro h
    by_contra hne
    obtain ⟨b, hb⟩ := Option.ne_none_iff_exists'.mp hne
    obtain ⟨j, hr, hj, -⟩ := leftmost_eq_some_iff.mp hb
    simp [h j hr] at hj

theorem leftmost_congr {here' : ℕ → Option β} (h : ∀ i, here i = here' i) (i : ℕ) :
    leftmost here anchored len i = leftmost here' anchored len i := by
  rw [funext h]

theorem leftmost_map {γ : Type*} (g : β → γ) (i : ℕ) :
    leftmost (fun i => (here i).map g) anchored len i = (leftmost here anchored len i).map g := by
  rw [leftmost, leftmost]
  generalize len - i + 1 = fuel
  induction fuel generalizing i with
  | zero => rfl
  | succ fuel ih =>
    rw [leftmostFrom, leftmostFrom]
    cases here i with
    | some b => rfl
    | none =>
      by_cases hs : anchored ∨ i ≥ len
      · simp [hs]
      · simpa [hs] using ih (i + 1)

end Leftmost

/-! ### The first success, with a state -/

section FirstOf
variable {ι β C : Type*}

theorem findSome_congr {f g : ι → Option β} : ∀ {xs : List ι}, (∀ x ∈ xs, f x = g x) →
    xs.findSome? f = xs.findSome? g
  | [], _ => rfl
  | x :: xs, h => by
    rw [List.findSome?_cons, List.findSome?_cons, h x (by simp), findSome_congr fun y hy => h y (by simp [hy])]

/-- The first success; a computation that fails may change the state. -/
def firstOf (f : ι → C → Option β × C) : List ι → C → Option β × C
  | [], c => (none, c)
  | x :: xs, c =>
    match f x c with
    | (some b, c') => (some b, c')
    | (none, c') => firstOf f xs c'

/-- Where nothing changes the state, the first success is that of a function. -/
theorem firstOf_eq_findSome {f : ι → C → Option β × C} {g : ι → Option β} (c : C) : ∀ (xs : List ι),
    (∀ x ∈ xs, f x c = (g x, c)) → firstOf f xs c = (xs.findSome? g, c)
  | [], _ => rfl
  | x :: xs, h => by
    rw [firstOf, h x (by simp), List.findSome?_cons]
    cases hg : g x with
    | some b => rfl
    | none => exact firstOf_eq_findSome c xs fun y hy => h y (by simp [hy])

variable {γ : Type*}

/-- The first success, with what all tries up to it have logged. -/
def firstLogged (f : ι → Option β × List γ) : List ι → Option β × List γ
  | [] => (none, [])
  | x :: xs =>
    match f x with
    | (some b, w) => (some b, w)
    | (none, w) => ((firstLogged f xs).1, w ++ (firstLogged f xs).2)

theorem firstLogged_none {f : ι → Option β × List γ} : ∀ {xs : List ι}, (firstLogged f xs).1 = none →
    (∀ x ∈ xs, (f x).1 = none) ∧ (firstLogged f xs).2 = xs.flatMap fun x => (f x).2
  | [], _ => ⟨by simp, rfl⟩
  | x :: xs, h => by
    rcases hx : f x with ⟨_ | b, w⟩
    · have hfl : firstLogged f (x :: xs) = ((firstLogged f xs).1, w ++ (firstLogged f xs).2) := by
        rw [firstLogged, hx]
      rw [hfl] at h
      obtain ⟨hall, hw⟩ := firstLogged_none h
      refine ⟨fun y hy => ?_, ?_⟩
      · rcases List.mem_cons.mp hy with rfl | hy
        · rw [hx]
        · exact hall y hy
      · rw [hfl, List.flatMap_cons, hx, hw]
    · rw [firstLogged, hx] at h
      cases h

/-- A success comes behind failures, whose log comes before its own. -/
theorem firstLogged_some {f : ι → Option β × List γ} {b : β} : ∀ {xs : List ι}, (firstLogged f xs).1 = some b →
    ∃ l x r, xs = l ++ x :: r ∧ (∀ y ∈ l, (f y).1 = none) ∧ (f x).1 = some b ∧
      (firstLogged f xs).2 = l.flatMap (fun y => (f y).2) ++ (f x).2
  | [], h => by cases h
  | x :: xs, h => by
    rcases hx : f x with ⟨_ | c, w⟩
    · have hfl : firstLogged f (x :: xs) = ((firstLogged f xs).1, w ++ (firstLogged f xs).2) := by
        rw [firstLogged, hx]
      rw [hfl] at h
      obtain ⟨l, y, r, rfl, hl, hy, hw⟩ := firstLogged_some h
      refine ⟨x :: l, y, r, rfl, fun z hz => ?_, hy, ?_⟩
      · rcases List.mem_cons.mp hz with rfl | hz
        · rw [hx]
        · exact hl z hz
      · rw [hfl, hw, List.flatMap_cons, hx, List.append_assoc]
    · have hfl : firstLogged f (x :: xs) = (some c, w) := by rw [firstLogged, hx]
      rw [hfl] at h
      exact ⟨[], x, xs, rfl, by simp, by rw [hx]; exact h, by rw [hfl, hx]; rfl⟩

/-- What is logged, one of the tries has logged. -/
theorem exists_of_mem_firstLogged {f : ι → Option β × List γ} {c : γ} : ∀ {xs : List ι},
    c ∈ (firstLogged f xs).2 → ∃ x ∈ xs, c ∈ (f x).2
  | [], h => by simp [firstLogged] at h
  | x :: xs, h => by
    rcases hx : f x with ⟨_ | b, w⟩
    · rw [firstLogged, hx] at h
      rcases List.mem_append.mp h with h | h
      · exact ⟨x, by simp, by rwa [hx]⟩
      · obtain ⟨y, hy, hc⟩ := exists_of_mem_firstLogged h
        exact ⟨y, List.mem_cons_of_mem x hy, hc⟩
    · rw [firstLogged, hx] at h
      exact ⟨x, by simp, by rwa [hx]⟩

/-- A search with a state that tries record in one after the other is a search with a log. -/
theorem firstOf_eq_firstLogged {δ : Type*} {f : ι → C → Option δ × C} {g : ι → Option β × List γ}
    {add : C → γ → C} {φ : β → δ} : ∀ {xs : List ι} (c : C),
    (∀ x ∈ xs, ∀ c, f x c = ((g x).1.map φ, (g x).2.foldl add c)) →
      firstOf f xs c = ((firstLogged g xs).1.map φ, (firstLogged g xs).2.foldl add c)
  | [], c, _ => rfl
  | x :: xs, c, h => by
    have ih := fun c => firstOf_eq_firstLogged c fun y hy => h y (List.mem_cons_of_mem x hy)
    rw [firstOf, firstLogged, h x (by simp)]
    rcases g x with ⟨_ | b, w⟩
    · simp only [Option.map_none, ih, List.foldl_append]
    · rfl

/-- What a log starts with, some try has logged first. -/
theorem exists_of_flatMap_eq_cons {f : ι → List γ} {c : γ} {w : List γ} : ∀ {xs : List ι}, xs.flatMap f = c :: w →
    ∃ x ∈ xs, ∃ w', f x = c :: w'
  | [], h => by cases h
  | x :: xs, h => by
    rw [List.flatMap_cons] at h
    cases hx : f x with
    | nil =>
      rw [hx, List.nil_append] at h
      obtain ⟨y, hy, w', hw⟩ := exists_of_flatMap_eq_cons h
      exact ⟨y, List.mem_cons_of_mem x hy, w', hw⟩
    | cons d w' =>
      rw [hx] at h
      obtain ⟨rfl, -⟩ := List.cons.inj h
      exact ⟨x, by simp, w', hx⟩

theorem firstLogged_singleton (f : ι → Option β × List γ) (x : ι) : firstLogged f [x] = f x := by
  rw [firstLogged]
  rcases f x with ⟨_ | b, w⟩
  · simp [firstLogged]
  · rfl

/-- The first element with a property is at one place. -/
theorem split_unique {P : ι → Prop} : ∀ {l l' : List ι} {x x' : ι} {r r' : List ι}, l ++ x :: r = l' ++ x' :: r' →
    (∀ y ∈ l, ¬ P y) → P x → (∀ y ∈ l', ¬ P y) → P x' → l = l' ∧ x = x' ∧ r = r'
  | [], [], _, _, _, _, h, _, _, _, _ => by
    obtain ⟨rfl, rfl⟩ := List.cons.inj h
    exact ⟨rfl, rfl, rfl⟩
  | [], y :: l', x, x', _, _, h, _, hx, hl', _ => by
    obtain ⟨rfl, -⟩ := List.cons.inj h
    exact absurd hx (hl' x (by simp))
  | y :: l, [], x, x', _, _, h, hl, _, _, hx' => by
    obtain ⟨rfl, -⟩ := List.cons.inj h
    exact absurd hx' (hl y (by simp))
  | y :: l, z :: l', x, x', r, r', h, hl, hx, hl', hx' => by
    obtain ⟨rfl, ht⟩ := List.cons.inj h
    obtain ⟨he, hxx, hr⟩ := split_unique ht (fun w hw => hl w (by simp [hw])) hx (fun w hw => hl' w (by simp [hw])) hx'
    exact ⟨by rw [he], hxx, hr⟩

end FirstOf

end Search.Backtrack

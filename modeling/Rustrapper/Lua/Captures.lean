/-
# Captures and abandoned alternatives

What a match of `gm_match` is, without the search: a way through the items of
the pattern, on which each item goes to one of the positions its repetitions
offer and each group takes a span (`Taken`). The successful match is the first
one: at every item the alternatives tried before lead nowhere.

The search hands one list of spans to all alternatives and takes nothing back
when one fails, so the captures of a match are the spans of its groups exactly
when no alternative that was abandoned had got over a group, and no group
stands behind a `$` (`captures_describe_match`).
-/
import Rustrapper.Lua.Agreement

namespace Rustrapper
namespace Lua
namespace Pattern

open Search.Backtrack Search.Repeat

/-! ### Ways through a pattern -/

section Ways
variable (subject pattern : List UInt8)

/-- An item of the pattern: neither a group nor the `$`. -/
def IsItem (pi : ℕ) : Prop := ∃ b, pattern[pi]? = some b ∧ b ≠ 36 ∧ b ≠ 40

/-- Where the item at `pi` can go from `si`, in the order in which the rest is tried there. -/
def moves (pi si : ℕ) : List ℕ :=
  match quantAt pattern (pi + itemSize pattern pi) with
  | some q => ends subject pattern pi q si
  | none => ((matchItem subject si pattern pi).map (si + ·)).toList

/-- The group at `pi`, at position `si`: the index of its `)` and the length it takes. -/
def groupAt (pi si : ℕ) : Option (ℕ × ℕ) :=
  (findCloseParen pattern pi).bind fun close =>
    (matchHere subject si ((pattern.take close).drop (pi + 1))).map fun len => (close, len)

/-- A way through the pattern from index `pi` and position `si` on: the spans its groups take, and where
it ends. What is known of an alternative that comes before the one taken is `Rejected`. -/
inductive Taken (Rejected : ℕ → ℕ → Prop) : (pi si : ℕ) → Caps → ℕ → Prop
  | done {pi si : ℕ} (h : pattern.length ≤ pi) : Taken Rejected pi si [] si
  | dollar {pi si : ℕ} (h : pattern[pi]? = some 36) (hs : si = subject.length) : Taken Rejected pi si [] si
  | group {pi si close len e : ℕ} {spans : Caps} (hp : pattern[pi]? = some 40)
      (h : groupAt subject pattern pi si = some (close, len)) (rest : Taken Rejected (close + 1) (si + len) spans e) :
      Taken Rejected pi si ((si, si + len) :: spans) e
  | item {pi si k e : ℕ} {before after : List ℕ} {spans : Caps} (hp : IsItem pattern pi)
      (h : moves subject pattern pi si = before ++ k :: after)
      (hb : ∀ b ∈ before, Rejected (nextItem pattern pi) b) (rest : Taken Rejected (nextItem pattern pi) k spans e) :
      Taken Rejected pi si spans e

/-- There is a way through the pattern. -/
def Matches (pi si : ℕ) : Prop := ∃ spans e, Taken subject pattern (fun _ _ => True) pi si spans e

/-- A way, through the pattern or not, that gets over a group. -/
inductive Records : ℕ → ℕ → Prop
  | group {pi si close len : ℕ} (hp : pattern[pi]? = some 40)
      (h : groupAt subject pattern pi si = some (close, len)) : Records pi si
  | item {pi si e : ℕ} (hp : IsItem pattern pi) (h : e ∈ moves subject pattern pi si)
      (rest : Records (nextItem pattern pi) e) : Records pi si

/-- An alternative that leads nowhere. -/
def Abandoned (pi si : ℕ) : Prop := ¬ Matches subject pattern pi si

/-- An alternative that leads nowhere and gets over no group. -/
def Unrecorded (pi si : ℕ) : Prop := ¬ Matches subject pattern pi si ∧ ¬ Records subject pattern pi si

end Ways

variable {subject pattern : List UInt8} {Rejected : ℕ → ℕ → Prop} {pi si : ℕ} {spans : Caps} {e : ℕ}

theorem Taken.mono {Rejected' : ℕ → ℕ → Prop} (h : Taken subject pattern Rejected pi si spans e)
    (hr : ∀ {pi si}, Rejected pi si → Rejected' pi si) : Taken subject pattern Rejected' pi si spans e := by
  induction h with
  | done h => exact .done h
  | dollar h hs => exact .dollar h hs
  | group hp h _ ih => exact .group hp h ih
  | item hp h hb _ ih => exact .item hp h (fun b hm => hr (hb b hm)) ih

theorem Taken.matches (h : Taken subject pattern Rejected pi si spans e) : Matches subject pattern pi si :=
  ⟨spans, e, h.mono fun _ => trivial⟩

theorem le_of_mem_moves {k : ℕ} (h : k ∈ moves subject pattern pi si) : si ≤ k := by
  unfold moves at h
  split at h
  · exact le_of_mem_ends subject h
  · obtain ⟨n, -, rfl⟩ := Option.map_eq_some_iff.mp (Option.mem_toList.mp h)
    omega

theorem Taken.le (h : Taken subject pattern Rejected pi si spans e) : si ≤ e := by
  induction h with
  | done h => exact le_rfl
  | dollar h hs => exact le_rfl
  | group hp h _ ih => omega
  | item hp h hb _ ih => exact (le_of_mem_moves (by rw [h]; simp)).trans ih

/-- The spans of a way lie inside it. -/
theorem Taken.inside (h : Taken subject pattern Rejected pi si spans e) :
    ∀ s ∈ spans, si ≤ s.1 ∧ s.1 ≤ s.2 ∧ s.2 ≤ e := by
  induction h with
  | done h => simp
  | dollar h hs => simp
  | @group pi si close len e spans hp h rest ih =>
    intro s hs
    have hle := rest.le
    rcases List.mem_cons.mp hs with rfl | hs
    · exact ⟨le_rfl, Nat.le_add_right _ _, hle⟩
    · obtain ⟨h1, h2, h3⟩ := ih s hs
      exact ⟨by omega, h2, h3⟩
  | item hp h hb _ ih =>
    intro s hs
    obtain ⟨h1, h2, h3⟩ := ih s hs
    exact ⟨(le_of_mem_moves (by rw [h]; simp)).trans h1, h2, h3⟩

/-- The spans of a way come one behind the other. -/
theorem Taken.ordered (h : Taken subject pattern Rejected pi si spans e) : spans.Pairwise fun a b => a.2 ≤ b.1 := by
  induction h with
  | done h => exact .nil
  | dollar h hs => exact .nil
  | group hp h rest ih => exact .cons (fun s hs => (rest.inside s hs).1) ih
  | item hp h hb _ ih => exact ih

theorem IsItem.lt (h : IsItem pattern pi) : pi < pattern.length := by
  obtain ⟨b, hb, -, -⟩ := h
  exact (List.getElem?_eq_some_iff.mp hb).1

/-- Where a pattern goes on: it has ended, or there is a `$`, a group or an item. -/
theorem place_cases (pattern : List UInt8) (pi : ℕ) :
    pattern.length ≤ pi ∨ pattern[pi]? = some 36 ∨ pattern[pi]? = some 40 ∨ IsItem pattern pi := by
  by_cases hlt : pi < pattern.length
  · by_cases hd : pattern[pi] = 36
    · exact .inr (.inl (by rw [List.getElem?_eq_getElem hlt, hd]))
    · by_cases hg : pattern[pi] = 40
      · exact .inr (.inr (.inl (by rw [List.getElem?_eq_getElem hlt, hg])))
      · exact .inr (.inr (.inr ⟨_, List.getElem?_eq_getElem hlt, hd, hg⟩))
  · exact .inl (by omega)

theorem IsItem.not_group (h : IsItem pattern pi) : pattern[pi]? ≠ some 40 := by
  obtain ⟨b, hb, -, hne⟩ := h
  simp [hb, hne]

theorem IsItem.not_dollar (h : IsItem pattern pi) : pattern[pi]? ≠ some 36 := by
  obtain ⟨b, hb, hne, -⟩ := h
  simp [hb, hne]

theorem Taken.done_inv (h : Taken subject pattern Rejected pi si spans e) (hp : pattern.length ≤ pi) :
    spans = [] ∧ e = si := by
  cases h with
  | done => exact ⟨rfl, rfl⟩
  | dollar => exact ⟨rfl, rfl⟩
  | group hp' => simp [List.getElem?_eq_none hp] at hp'
  | item hp' => exact absurd hp'.lt (by omega)

theorem Taken.dollar_inv (h : Taken subject pattern Rejected pi si spans e) (hp : pattern[pi]? = some 36) :
    si = subject.length ∧ spans = [] ∧ e = si := by
  cases h with
  | done hp' => simp [List.getElem?_eq_none hp'] at hp
  | dollar _ hs => exact ⟨hs, rfl, rfl⟩
  | group hp' => simp [hp] at hp'
  | item hp' => exact absurd hp hp'.not_dollar

theorem Taken.group_inv (h : Taken subject pattern Rejected pi si spans e) (hp : pattern[pi]? = some 40) :
    ∃ close len more, groupAt subject pattern pi si = some (close, len) ∧ spans = (si, si + len) :: more ∧
      Taken subject pattern Rejected (close + 1) (si + len) more e := by
  cases h with
  | done hp' => simp [List.getElem?_eq_none hp'] at hp
  | dollar hp' => simp [hp] at hp'
  | group _ hg rest => exact ⟨_, _, _, hg, rfl, rest⟩
  | item hp' => exact absurd hp hp'.not_group

theorem Taken.item_inv (h : Taken subject pattern Rejected pi si spans e) (hp : IsItem pattern pi) :
    ∃ before k after, moves subject pattern pi si = before ++ k :: after ∧
      (∀ b ∈ before, Rejected (nextItem pattern pi) b) ∧
      Taken subject pattern Rejected (nextItem pattern pi) k spans e := by
  cases h with
  | done hp' => exact absurd hp.lt (by omega)
  | dollar hp' => exact absurd hp' hp.not_dollar
  | group hp' => exact absurd hp' hp.not_group
  | item _ hm hb rest => exact ⟨_, _, _, hm, hb, rest⟩

/-- **The first way is the only one** whose earlier alternatives all lead nowhere. -/
theorem Taken.unique {spans' : Caps} {e' : ℕ} (h : Taken subject pattern (Abandoned subject pattern) pi si spans e)
    (h' : Taken subject pattern (Abandoned subject pattern) pi si spans' e') : spans = spans' ∧ e = e' := by
  induction h generalizing spans' e' with
  | done h =>
    obtain ⟨rfl, rfl⟩ := h'.done_inv h
    exact ⟨rfl, rfl⟩
  | dollar h hs =>
    obtain ⟨-, rfl, rfl⟩ := h'.dollar_inv h
    exact ⟨rfl, rfl⟩
  | group hp h rest ih =>
    obtain ⟨close, len, more, hg, rfl, rest'⟩ := h'.group_inv hp
    obtain ⟨rfl, rfl⟩ := Prod.mk.inj (Option.some.inj (h.symm.trans hg))
    obtain ⟨rfl, rfl⟩ := ih rest'
    exact ⟨rfl, rfl⟩
  | item hp h hb rest ih =>
    obtain ⟨before, k, after, hm, hb', rest'⟩ := h'.item_inv hp
    obtain ⟨-, rfl, -⟩ := split_unique (h.symm.trans hm) hb rest.matches hb' rest'.matches
    exact ih rest'

/-! ### What the search records -/

/-- The search with the spans that every alternative records, in order: where it ends, and the spans. -/
def trace (subject pattern : List UInt8) : ℕ → (si pi : ℕ) → Option ℕ × Caps
  | 0, _, _ => (none, [])
  | fuel + 1, si, pi =>
    if pi ≥ pattern.length then (some si, [])
    else if pattern[pi]? = some 36 then (if si = subject.length then some si else none, [])
    else if pattern[pi]? = some 40 then
      match groupAt subject pattern pi si with
      | none => (none, [])
      | some (close, len) =>
        ((trace subject pattern fuel (si + len) (close + 1)).1,
          (si, si + len) :: (trace subject pattern fuel (si + len) (close + 1)).2)
    else firstLogged (fun k => trace subject pattern fuel k (nextItem pattern pi)) (moves subject pattern pi si)

section Trace
variable {fuel : ℕ}

theorem trace_done (h : pattern.length ≤ pi) : trace subject pattern (fuel + 1) si pi = (some si, []) := if_pos h

theorem trace_dollar (h : pattern[pi]? = some 36) :
    trace subject pattern (fuel + 1) si pi = (if si = subject.length then some si else none, []) := by
  have hlt : ¬ pi ≥ pattern.length := fun hle => by
    rw [List.getElem?_eq_none hle] at h
    cases h
  rw [trace, if_neg hlt, if_pos h]

theorem trace_group (h : pattern[pi]? = some 40) : trace subject pattern (fuel + 1) si pi =
    (groupAt subject pattern pi si).elim (none, []) fun g =>
      ((trace subject pattern fuel (si + g.2) (g.1 + 1)).1,
        (si, si + g.2) :: (trace subject pattern fuel (si + g.2) (g.1 + 1)).2) := by
  have hlt : ¬ pi ≥ pattern.length := fun hle => by
    rw [List.getElem?_eq_none hle] at h
    cases h
  rw [trace, if_neg hlt, if_neg (by simp [h]), if_pos h]
  cases groupAt subject pattern pi si <;> rfl

theorem trace_item (h : IsItem pattern pi) : trace subject pattern (fuel + 1) si pi =
    firstLogged (fun k => trace subject pattern fuel k (nextItem pattern pi)) (moves subject pattern pi si) := by
  obtain ⟨b, hb, hd, hg⟩ := h
  have hlt : ¬ pi ≥ pattern.length := fun hle => by
    rw [List.getElem?_eq_none hle] at hb
    cases hb
  rw [trace, if_neg hlt, if_neg (by simp [hb, hd]), if_neg (by simp [hb, hg])]

theorem nextItem_gt (h : IsItem pattern pi) : pi < nextItem pattern pi := by
  have hpos := itemSize_pos h.lt
  unfold nextItem
  split_ifs <;> omega

theorem groupAt_gt {close len : ℕ} (h : groupAt subject pattern pi si = some (close, len)) : pi < close := by
  obtain ⟨c, hc, hl⟩ := Option.bind_eq_some_iff.mp h
  obtain ⟨n, -, he⟩ := Option.map_eq_some_iff.mp hl
  obtain ⟨o, -, rfl⟩ := Option.map_eq_some_iff.mp hc
  obtain ⟨rfl, -⟩ := Prod.mk.inj he
  omega

/-- **The search finds the first way**, and fails only where there is none. -/
theorem trace_spec (hf : pattern.length - pi < fuel) :
    (∀ e, (trace subject pattern fuel si pi).1 = some e →
      ∃ spans, Taken subject pattern (Abandoned subject pattern) pi si spans e) ∧
    ((trace subject pattern fuel si pi).1 = none → Abandoned subject pattern pi si) := by
  induction fuel generalizing si pi with
  | zero => omega
  | succ fuel ih =>
    rcases place_cases pattern pi with h | h | h | h
    · rw [trace_done h]
      exact ⟨fun e he => ⟨[], Option.some.inj he ▸ .done h⟩, by simp⟩
    · rw [trace_dollar h]
      by_cases hs : si = subject.length
      · rw [if_pos hs]
        exact ⟨fun e he => ⟨[], Option.some.inj he ▸ .dollar h hs⟩, by simp⟩
      · rw [if_neg hs]
        refine ⟨by simp, fun _ => ?_⟩
        rintro ⟨spans, e, hw⟩
        exact hs (hw.dollar_inv h).1
    · rw [trace_group h]
      cases hg : groupAt subject pattern pi si with
      | none =>
        refine ⟨by simp, fun _ => ?_⟩
        rintro ⟨spans, e, hw⟩
        obtain ⟨close, len, -, hg', -⟩ := hw.group_inv h
        exact Option.some_ne_none _ (hg'.symm.trans hg)
      | some g =>
        obtain ⟨close, len⟩ := g
        have hlt := groupAt_gt hg
        have hpl := (List.getElem?_eq_some_iff.mp h).1
        obtain ⟨hsome, hnone⟩ := @ih (close + 1) (si + len) (by omega)
        constructor
        · intro e he
          obtain ⟨spans, hw⟩ := hsome e he
          exact ⟨_, .group h hg hw⟩
        · intro he
          rintro ⟨spans, e, hw⟩
          obtain ⟨close', len', more, hg', -, rest⟩ := hw.group_inv h
          obtain ⟨rfl, rfl⟩ := Prod.mk.inj (Option.some.inj (hg.symm.trans hg'))
          exact hnone he rest.matches
    · have hgt := nextItem_gt h
      have hlt := h.lt
      have ih := fun k => @ih (nextItem pattern pi) k (by omega)
      rw [trace_item h]
      constructor
      · intro e he
        obtain ⟨l, k, r, hm, hl, hk, -⟩ := firstLogged_some he
        obtain ⟨spans, hw⟩ := (ih k).1 e hk
        exact ⟨spans, .item h hm (fun b hb => (ih b).2 (hl b hb)) hw⟩
      · intro he
        obtain ⟨hall, -⟩ := firstLogged_none he
        rintro ⟨spans, e, hw⟩
        obtain ⟨before, k, after, hm, -, rest⟩ := hw.item_inv h
        exact (ih k).2 (hall k (by rw [hm]; simp)) rest.matches

theorem gmFrom_group {start : ℕ} {caps : Caps} (h : pattern[pi]? = some 40) :
    gmFrom subject pattern (fuel + 1) start si pi caps =
      (groupAt subject pattern pi si).elim (none, caps) fun g =>
        gmFrom subject pattern fuel start (si + g.2) (g.1 + 1) (addCap caps (si, si + g.2)) := by
  have hlt : ¬ pi ≥ pattern.length := fun hle => by
    rw [List.getElem?_eq_none hle] at h
    cases h
  rw [gmFrom, if_neg hlt, if_neg (by simp [h]), if_pos h, groupAt]
  cases findCloseParen pattern pi with
  | none => rfl
  | some close =>
    rw [Option.bind_some]
    dsimp only
    cases matchHere subject si ((pattern.take close).drop (pi + 1)) <;> rfl

/-- `gm_match` is the search, with what it records put behind the captures it is given. -/
theorem gmFrom_eq_trace {start : ℕ} {caps : Caps} (hf : pattern.length - pi < fuel) (hs : start ≤ si) :
    gmFrom subject pattern fuel start si pi caps = ((trace subject pattern fuel si pi).1.map (· - start),
      (trace subject pattern fuel si pi).2.foldl addCap caps) := by
  induction fuel generalizing start si pi caps with
  | zero => omega
  | succ fuel ih =>
    rcases place_cases pattern pi with h | h | h | h
    · rw [gmFrom_done h, trace_done h]
      rfl
    · rw [gmFrom_dollar h, trace_dollar h]
      split_ifs <;> rfl
    · rw [gmFrom_group h, trace_group h]
      cases hg : groupAt subject pattern pi si with
      | none => rfl
      | some g =>
        have hlt := groupAt_gt hg
        have hpl := (List.getElem?_eq_some_iff.mp h).1
        exact ih (by omega) (by omega)
    · have hgt := nextItem_gt h
      have hlt := h.lt
      rw [trace_item h, moves]
      obtain ⟨b, hb, hd, hp⟩ := h
      cases hq : quantAt pattern (pi + itemSize pattern pi) with
      | some q =>
        have hnext : pi + itemSize pattern pi + 1 = nextItem pattern pi := by
          rw [nextItem, hq, Option.isSome_some, if_pos rfl]
        rw [gmFrom_quant hlt (by simp [hb, hd]) (by simp [hb, hp]) hq, hnext]
        refine firstOf_eq_firstLogged caps fun k hk c => ?_
        have hle := le_of_mem_ends subject hk
        rw [ih (by omega) le_rfl, Option.map_map]
        refine Prod.ext ?_ rfl
        cases he : (trace subject pattern fuel k (nextItem pattern pi)).1 with
        | none => rfl
        | some e =>
          obtain ⟨spans, hw⟩ := (trace_spec (by omega)).1 e he
          have := hw.le
          simp only [Option.map_some, Function.comp_apply]
          congr 1
          omega
      | none =>
        have hnext : pi + itemSize pattern pi = nextItem pattern pi := by
          rw [nextItem, hq, Option.isSome_none, if_neg (by decide)]
        rw [gmFrom_single hlt (by simp [hb, hd]) (by simp [hb, hp]) hq, hnext]
        cases matchItem subject si pattern pi with
        | none => rfl
        | some n =>
          dsimp only [Option.map_some, Option.toList_some, Option.getD_some]
          rw [firstLogged_singleton]
          exact @ih (nextItem pattern pi) (si + n) start caps (by omega) (by omega)

/-! ### Where the record goes wrong -/

variable (pattern) in
/-- The first group behind the items from `pi` on. -/
inductive FirstGroup : ℕ → ℕ → Prop
  | here {pi : ℕ} (h : pattern[pi]? = some 40) : FirstGroup pi pi
  | next {pi g : ℕ} (h : IsItem pattern pi) (rest : FirstGroup (nextItem pattern pi) g) : FirstGroup pi g

/-- Every way takes a span at the first group. -/
theorem Taken.firstGroup {g : ℕ} (h : Taken subject pattern Rejected pi si spans e) (hg : FirstGroup pattern pi g) :
    ∃ p close len more, spans = (p, p + len) :: more ∧ groupAt subject pattern g p = some (close, len) ∧
      Matches subject pattern (close + 1) (p + len) := by
  induction h with
  | done h =>
    cases hg with
    | here h' => simp [List.getElem?_eq_none h] at h'
    | next h' => exact absurd h'.lt (by omega)
  | dollar h hs =>
    cases hg with
    | here h' => simp [h] at h'
    | next h' => exact absurd h h'.not_dollar
  | group hp h rest ih =>
    cases hg with
    | here h' => exact ⟨_, _, _, _, rfl, h, rest.matches⟩
    | next h' => exact absurd hp h'.not_group
  | item hp h hb rest ih =>
    cases hg with
    | here h' => exact absurd h' hp.not_group
    | next _ hg => exact ih hg

/-- A failed alternative records nothing exactly when it gets over no group; what it records first is
a span of the first group, behind which nothing matches. -/
theorem trace_none_log (hf : pattern.length - pi < fuel) (hn : (trace subject pattern fuel si pi).1 = none) :
    ((trace subject pattern fuel si pi).2 = [] → ¬ Records subject pattern pi si) ∧
    ∀ x more, (trace subject pattern fuel si pi).2 = x :: more → Records subject pattern pi si ∧
      ∃ g p close len, x = (p, p + len) ∧ FirstGroup pattern pi g ∧ groupAt subject pattern g p = some (close, len) ∧
        Abandoned subject pattern (close + 1) (p + len) := by
  induction fuel generalizing si pi with
  | zero => omega
  | succ fuel ih =>
    rcases place_cases pattern pi with h | h | h | h
    · rw [trace_done h] at hn
      cases hn
    · rw [trace_dollar h]
      refine ⟨fun _ hr => ?_, by simp⟩
      cases hr with
      | group hp => simp [h] at hp
      | item hp => exact absurd h hp.not_dollar
    · rw [trace_group h] at hn ⊢
      cases hg : groupAt subject pattern pi si with
      | none =>
        refine ⟨fun _ hr => ?_, by simp⟩
        cases hr with
        | group _ hg' => simp [hg] at hg'
        | item hp => exact absurd h hp.not_group
      | some g =>
        obtain ⟨close, len⟩ := g
        have hgt := groupAt_gt hg
        have hlt := (List.getElem?_eq_some_iff.mp h).1
        rw [hg] at hn
        refine ⟨by simp, fun x more hx => ⟨.group h hg, pi, si, close, len, ?_, .here h, hg, ?_⟩⟩
        · exact (List.cons.inj hx).1.symm
        · exact (trace_spec (by omega)).2 hn
    · have hgt := nextItem_gt h
      have hlt := h.lt
      have ih := fun k => @ih (nextItem pattern pi) k (by omega)
      rw [trace_item h] at hn ⊢
      obtain ⟨hall, hlog⟩ := firstLogged_none hn
      rw [hlog]
      constructor
      · intro hempty hr
        cases hr with
        | group hp => exact h.not_group hp
        | item _ hk rest => exact (ih _ (hall _ hk)).1 (List.flatMap_eq_nil_iff.mp hempty _ hk) rest
      · intro x more hx
        -- the first alternative that records anything
        obtain ⟨k, hk, more', hmore⟩ := exists_of_flatMap_eq_cons hx
        obtain ⟨hr, g, p, close, len, hx', hfirst, hg, hab⟩ := (ih k (hall k hk)).2 x more' hmore
        exact ⟨.item h hk hr, g, p, close, len, hx', .next h hfirst, hg, hab⟩

/-- **The record of the first way**: the spans of its groups, or else, where an abandoned alternative got
over a group, it goes wrong at some place. -/
theorem trace_log (hf : pattern.length - pi < fuel)
    (h : Taken subject pattern (Abandoned subject pattern) pi si spans e) :
    (trace subject pattern fuel si pi).2 = spans ∧ Taken subject pattern (Unrecorded subject pattern) pi si spans e ∨
      ¬ Taken subject pattern (Unrecorded subject pattern) pi si spans e ∧
        ∃ j < spans.length, (trace subject pattern fuel si pi).2[j]? ≠ spans[j]? := by
  induction h generalizing fuel with
  | @done pi si h =>
    obtain ⟨fuel, rfl⟩ : ∃ f, fuel = f + 1 := ⟨fuel - 1, by omega⟩
    exact .inl ⟨by rw [trace_done h], .done h⟩
  | @dollar pi si h hs =>
    obtain ⟨fuel, rfl⟩ : ∃ f, fuel = f + 1 := ⟨fuel - 1, by omega⟩
    exact .inl ⟨by rw [trace_dollar h], .dollar h hs⟩
  | @group pi si close len e spans hp h rest ih =>
    obtain ⟨fuel, rfl⟩ : ∃ f, fuel = f + 1 := ⟨fuel - 1, by omega⟩
    have hgt := groupAt_gt h
    have hlt := (List.getElem?_eq_some_iff.mp hp).1
    rw [trace_group hp, h]
    rcases @ih fuel (by omega) with ⟨hlog, hclean⟩ | ⟨hdirty, j, hj, hne⟩
    · exact .inl ⟨congrArg _ hlog, .group hp h hclean⟩
    · refine .inr ⟨fun hc => ?_, j + 1, by simpa using hj, by simpa using hne⟩
      obtain ⟨close', len', more, hg, heq, hrest⟩ := hc.group_inv hp
      obtain ⟨rfl, rfl⟩ := Prod.mk.inj (Option.some.inj (h.symm.trans hg))
      obtain ⟨-, rfl⟩ := List.cons.inj heq
      exact hdirty hrest
  | @item pi si k e before after spans hp h hb rest ih =>
    obtain ⟨fuel, rfl⟩ : ∃ f, fuel = f + 1 := ⟨fuel - 1, by omega⟩
    have hgt := nextItem_gt hp
    have hlt := hp.lt
    have hspec := fun b => @trace_spec subject pattern (nextItem pattern pi) b fuel (by omega)
    have hmatch : ∀ b, (trace subject pattern fuel b (nextItem pattern pi)).1 ≠ none →
        Matches subject pattern (nextItem pattern pi) b := fun b hne => by
      obtain ⟨e', he⟩ := Option.ne_none_iff_exists'.mp hne
      obtain ⟨spans', hw⟩ := (hspec b).1 e' he
      exact hw.matches
    -- the search comes to `k` behind the alternatives in `before`
    have hlog : (trace subject pattern (fuel + 1) si pi).2 =
        before.flatMap (fun b => (trace subject pattern fuel b (nextItem pattern pi)).2) ++
          (trace subject pattern fuel k (nextItem pattern pi)).2 := by
      rw [trace_item hp]
      cases hr : (firstLogged (fun k => trace subject pattern fuel k (nextItem pattern pi))
          (moves subject pattern pi si)).1 with
      | none =>
        obtain ⟨hall, -⟩ := firstLogged_none hr
        exact absurd rest.matches ((hspec k).2 (hall k (by rw [h]; simp)))
      | some e' =>
        obtain ⟨l, k', r, hm, hl, hk', hw⟩ := firstLogged_some hr
        obtain ⟨rfl, rfl, -⟩ := split_unique (h.symm.trans hm) hb rest.matches (fun b hbl => (hspec b).2 (hl b hbl))
          (hmatch k' (by simp [hk']))
        exact hw
    have hnone : ∀ b ∈ before, (trace subject pattern fuel b (nextItem pattern pi)).1 = none := by
      intro b hbm
      by_contra hne
      exact hb b hbm (hmatch b hne)
    have hlogs := fun b hbm => @trace_none_log subject pattern (nextItem pattern pi) b fuel (by omega) (hnone b hbm)
    -- a clean way abandons the same alternatives
    have hclean : Taken subject pattern (Unrecorded subject pattern) pi si spans e →
        (∀ b ∈ before, ¬ Records subject pattern (nextItem pattern pi) b) ∧
          Taken subject pattern (Unrecorded subject pattern) (nextItem pattern pi) k spans e := by
      intro hc
      obtain ⟨before', k', after', hm, hb', rest'⟩ := hc.item_inv hp
      obtain ⟨rfl, rfl, -⟩ :=
        split_unique (h.symm.trans hm) hb rest.matches (fun b hbm => (hb' b hbm).1) rest'.matches
      exact ⟨fun b hbm => (hb' b hbm).2, rest'⟩
    rw [hlog]
    cases hempty : before.flatMap (fun b => (trace subject pattern fuel b (nextItem pattern pi)).2) with
    | nil =>
      have hquiet : ∀ b ∈ before, ¬ Records subject pattern (nextItem pattern pi) b := fun b hbm =>
        (hlogs b hbm).1 (List.flatMap_eq_nil_iff.mp hempty b hbm)
      rw [List.nil_append]
      rcases @ih fuel (by omega) with ⟨hw, hc⟩ | ⟨hdirty, hj⟩
      · exact .inl ⟨hw, .item hp h (fun b hbm => ⟨hb b hbm, hquiet b hbm⟩) hc⟩
      · exact .inr ⟨fun hc => hdirty (hclean hc).2, hj⟩
    | cons x more =>
      obtain ⟨b, hbm, more', hmore⟩ := exists_of_flatMap_eq_cons hempty
      obtain ⟨hrec, g, p, close, len, rfl, hfirst, hg, hab⟩ := (hlogs b hbm).2 x more' hmore
      obtain ⟨p', close', len', spans', rfl, hg', hm⟩ := rest.firstGroup hfirst
      refine .inr ⟨fun hc => (hclean hc).1 b hbm hrec, 0, by simp, ?_⟩
      -- the way that matches cannot take the span behind which nothing matches
      intro heq
      have hspan : (p, p + len) = (p', p' + len') := by simpa using heq
      obtain ⟨rfl, hlen⟩ := Prod.mk.inj hspan
      obtain ⟨rfl, rfl⟩ := Prod.mk.inj (Option.some.inj (hg.symm.trans hg'))
      exact hab hm

end Trace

/-! ### Counting the groups -/

section Groups

/-- Where the group, item or `$` behind the one at `pi` starts. -/
def nextPlace (pattern : List UInt8) (pi : ℕ) : ℕ :=
  if pattern[pi]? = some 40 then ((findCloseParen pattern pi).map (· + 1)).getD pattern.length
  else nextItem pattern pi

/-- Where the groups, the items and the `$` of a pattern start. -/
def places (pattern : List UInt8) : ℕ → ℕ → List ℕ
  | 0, _ => []
  | fuel + 1, pi => if pi ≥ pattern.length then [] else pi :: places pattern fuel (nextPlace pattern pi)

def isGroup (pattern : List UInt8) (pi : ℕ) : Bool := pattern[pi]? = some 40
def isDollar (pattern : List UInt8) (pi : ℕ) : Bool := pattern[pi]? = some 36

/-- The number of capture groups. -/
def groupCount (pattern : List UInt8) : ℕ :=
  ((places pattern (pattern.length + 1) 0).filter (isGroup pattern)).length

/-- No group stands behind a `$`. -/
def NoGroupBehindDollar (pattern : List UInt8) : Prop :=
  ((places pattern (pattern.length + 1) 0).dropWhile fun pi => !isDollar pattern pi).filter (isGroup pattern) = []

instance (pattern : List UInt8) : Decidable (NoGroupBehindDollar pattern) := inferInstanceAs (Decidable (_ = _))

/-- A way takes one span for each group in front of the `$`. -/
theorem Taken.length_eq {fuel : ℕ} (h : Taken subject pattern Rejected pi si spans e)
    (hf : pattern.length - pi < fuel) : spans.length =
      (((places pattern fuel pi).takeWhile fun pi => !isDollar pattern pi).filter (isGroup pattern)).length := by
  induction h generalizing fuel with
  | @done pi si h =>
    obtain ⟨fuel, rfl⟩ : ∃ f, fuel = f + 1 := ⟨fuel - 1, by omega⟩
    rw [places, if_pos h]
    rfl
  | @dollar pi si h hs =>
    obtain ⟨fuel, rfl⟩ : ∃ f, fuel = f + 1 := ⟨fuel - 1, by omega⟩
    have hlt := (List.getElem?_eq_some_iff.mp h).1
    simp [places, hlt.not_ge, isDollar, h]
  | @group pi si close len e spans hp h rest ih =>
    obtain ⟨fuel, rfl⟩ : ∃ f, fuel = f + 1 := ⟨fuel - 1, by omega⟩
    have hgt := groupAt_gt h
    have hlt := (List.getElem?_eq_some_iff.mp hp).1
    have hnext : nextPlace pattern pi = close + 1 := by
      obtain ⟨c, hc, hl⟩ := Option.bind_eq_some_iff.mp h
      obtain ⟨n, -, he⟩ := Option.map_eq_some_iff.mp hl
      obtain ⟨rfl, -⟩ := Prod.mk.inj he
      rw [nextPlace, if_pos hp, hc]
      rfl
    have ih := @ih fuel (by omega)
    rw [places, if_neg hlt.not_ge, hnext, List.takeWhile_cons_of_pos (by simp [isDollar, hp]),
      List.filter_cons_of_pos (by simp [isGroup, hp]), List.length_cons, List.length_cons, ih]
  | @item pi si k e before after spans hp h hb rest ih =>
    obtain ⟨fuel, rfl⟩ : ∃ f, fuel = f + 1 := ⟨fuel - 1, by omega⟩
    have hgt := nextItem_gt hp
    have hlt := hp.lt
    have hnext : nextPlace pattern pi = nextItem pattern pi := if_neg hp.not_group
    have ih := @ih fuel (by omega)
    rw [places, if_neg hlt.not_ge, hnext, List.takeWhile_cons_of_pos (by simp [isDollar, hp.not_dollar]),
      List.filter_cons_of_neg (by simp [isGroup, hp.not_group]), ih]

/-- Every group has its span exactly when none stands behind a `$`. -/
theorem Taken.count_iff (h : Taken subject pattern Rejected 0 si spans e) :
    spans.length ≤ groupCount pattern ∧ (spans.length = groupCount pattern ↔ NoGroupBehindDollar pattern) := by
  have hl := h.length_eq (Nat.lt_succ_self _)
  rw [Nat.sub_zero] at hl
  have hsplit : groupCount pattern = spans.length +
      (((places pattern (pattern.length + 1) 0).dropWhile fun pi => !isDollar pattern pi).filter
        (isGroup pattern)).length := by
    rw [hl, ← List.length_append, ← List.filter_append, List.takeWhile_append_dropWhile]
    rfl
  rw [hsplit, NoGroupBehindDollar, ← List.length_eq_zero_iff]
  omega

end Groups

/-! ### What captures are for -/

/-- The captures of a match are the spans of the groups in the first way through the pattern, one for
each group, in order and inside the match. -/
structure DescribesMatch (subject pattern : List UInt8) (m : GmatchMatch) : Prop where
  taken : Taken subject pattern (Abandoned subject pattern) 0 m.mstart m.caps m.mend
  count : m.caps.length = groupCount pattern
  ordered : m.caps.Pairwise fun a b => a.2 ≤ b.1
  inside : ∀ s ∈ m.caps, m.mstart ≤ s.1 ∧ s.1 ≤ s.2 ∧ s.2 ≤ m.mend

/-- `i` is the first position from which there is a way through the pattern. -/
structure FirstAt (subject pattern : List UInt8) (start i : ℕ) : Prop where
  allowed : Reachable (anchored pattern) subject.length start i
  matches_ : Matches subject (unanchored pattern) 0 i
  first : ∀ k, start ≤ k → k < i → ¬ Matches subject (unanchored pattern) 0 k

/-- On the first way from `i` no alternative that was abandoned had got over a group. -/
def Clean (subject pattern : List UInt8) (i : ℕ) : Prop :=
  ∃ spans e, Taken subject pattern (Unrecorded subject pattern) 0 i spans e

section Describe

theorem foldl_addCap : ∀ (ws caps : Caps), caps.length ≤ GM_CAPS → ws.foldl addCap caps = (caps ++ ws).take GM_CAPS
  | [], caps, h => by rw [List.foldl_nil, List.append_nil, List.take_of_length_le h]
  | w :: ws, caps, h => by
    rw [List.foldl_cons, addCap]
    split_ifs with hlt
    · rw [foldl_addCap ws _ (by rw [List.length_append]; exact hlt), List.append_assoc]
      rfl
    · have hfull : caps.length = GM_CAPS := by omega
      rw [foldl_addCap ws caps h, ← hfull, List.take_left, List.take_left]

/-- What `gm_find` tries at a position. -/
theorem gmAt_eq_trace (i : ℕ) : gmAt subject pattern i =
    (trace subject pattern (pattern.length + 1) i 0).1.map fun e =>
      ⟨i, e, (trace subject pattern (pattern.length + 1) i 0).2.take GM_CAPS⟩ := by
  rw [gmAt, gmMatch, Nat.sub_zero, gmFrom_eq_trace (by omega) le_rfl, foldl_addCap _ _ (Nat.zero_le _), List.nil_append,
    Option.map_map]
  cases he : (trace subject pattern (pattern.length + 1) i 0).1 with
  | none => rfl
  | some e =>
    obtain ⟨spans, hw⟩ := (trace_spec (by omega)).1 e he
    have hle := hw.le
    simp only [Option.map_some, Function.comp_apply]
    congr 2
    omega

theorem gmAt_eq_none_iff {i : ℕ} : gmAt subject pattern i = none ↔ ¬ Matches subject pattern 0 i := by
  have hspec := @trace_spec subject pattern 0 i (pattern.length + 1) (by omega)
  rw [gmAt_eq_trace, Option.map_eq_none_iff]
  refine ⟨hspec.2, fun h => ?_⟩
  by_contra hne
  obtain ⟨e, he⟩ := Option.ne_none_iff_exists'.mp hne
  obtain ⟨spans, hw⟩ := hspec.1 e he
  exact h hw.matches

theorem gmFind_eq_leftmost (subject pattern : List UInt8) (start : ℕ) : gmFind subject pattern start =
    leftmost (gmAt subject (unanchored pattern)) (anchored pattern) subject.length start := by
  rw [gmFind]
  split_ifs with h
  · subst h
    have hat : gmAt subject (unanchored []) start = some ⟨start, start, []⟩ := by
      simp [unanchored, anchored, gmAt, gmMatch, gmFrom]
    rw [leftmost_of_some hat]
  · rfl

/-- `gm_find` finds what it tries at the first position with a way. -/
theorem gmFind_eq_some_iff {start : ℕ} {m : GmatchMatch} : gmFind subject pattern start = some m ↔
    ∃ i, FirstAt subject pattern start i ∧ gmAt subject (unanchored pattern) i = some m := by
  rw [gmFind_eq_leftmost, leftmost_eq_some_iff]
  constructor
  · rintro ⟨i, hr, hm, hbefore⟩
    refine ⟨i, ⟨hr, ?_, fun k hk hlt => gmAt_eq_none_iff.mp (hbefore k hk hlt)⟩, hm⟩
    by_contra hno
    rw [gmAt_eq_none_iff.mpr hno] at hm
    cases hm
  · rintro ⟨i, ⟨hr, -, hfirst⟩, hm⟩
    exact ⟨i, hr, hm, fun k hk hlt => gmAt_eq_none_iff.mpr (hfirst k hk hlt)⟩

/-- What is tried at one position describes its match exactly when the first way is clean. -/
theorem describes_iff {i : ℕ} {m : GmatchMatch} (hk : groupCount pattern ≤ GM_CAPS)
    (hm : gmAt subject pattern i = some m) :
    DescribesMatch subject pattern m ↔ Clean subject pattern i ∧ NoGroupBehindDollar pattern := by
  rw [gmAt_eq_trace] at hm
  obtain ⟨e, he, rfl⟩ := Option.map_eq_some_iff.mp hm
  obtain ⟨spans, hw⟩ := (trace_spec (by omega)).1 e he
  obtain ⟨hle, hcount⟩ := hw.count_iff
  rcases trace_log (Nat.lt_succ_of_le (Nat.sub_le _ _)) hw with ⟨hlog, hclean⟩ | ⟨hdirty, j, hj, hne⟩
  · have hcaps : (trace subject pattern (pattern.length + 1) i 0).2.take GM_CAPS = spans := by
      rw [hlog, List.take_of_length_le (hle.trans hk)]
    rw [hcaps]
    constructor
    · exact fun h => ⟨⟨spans, e, hclean⟩, hcount.mp h.count⟩
    · exact fun h => ⟨hw, hcount.mpr h.2, hw.ordered, hw.inside⟩
  · refine iff_of_false (fun h => ?_) fun h => ?_
    · have hcaps := (h.taken.unique hw).1
      refine hne ?_
      rw [← hcaps, List.getElem?_take_of_lt (hj.trans_le (hle.trans hk))]
    · obtain ⟨spans', e', hc⟩ := h.1
      obtain ⟨rfl, rfl⟩ := (hc.mono fun hr => hr.1).unique hw
      exact hdirty hc

/-- **Captures describe the match** exactly when no alternative that was abandoned on the way to it had
got over a group, and no group stands behind a `$`. -/
theorem captures_describe_match (subject : List UInt8) {pattern : List UInt8} (start : ℕ)
    (hk : groupCount (unanchored pattern) ≤ GM_CAPS) :
    (∀ m, gmFind subject pattern start = some m → DescribesMatch subject (unanchored pattern) m) ↔
      ∀ i, FirstAt subject pattern start i →
        Clean subject (unanchored pattern) i ∧ NoGroupBehindDollar (unanchored pattern) := by
  constructor
  · intro h i hi
    cases hm : gmAt subject (unanchored pattern) i with
    | none => exact absurd hi.matches_ (gmAt_eq_none_iff.mp hm)
    | some m => exact (describes_iff hk hm).mp (h m (gmFind_eq_some_iff.mpr ⟨i, hi, hm⟩))
  · intro h m hm
    obtain ⟨i, hi, hat⟩ := gmFind_eq_some_iff.mp hm
    exact (describes_iff hk hat).mpr (h i hi)

/-- `(%a+)=(%d*)` on `x=1`. -/
theorem captures_describe_assignment :
    (∀ m, gmFind [120, 61, 49] [40, 37, 97, 43, 41, 61, 40, 37, 100, 42, 41] 0 = some m →
      DescribesMatch [120, 61, 49] (unanchored [40, 37, 97, 43, 41, 61, 40, 37, 100, 42, 41]) m) ↔
      ∀ i, FirstAt [120, 61, 49] [40, 37, 97, 43, 41, 61, 40, 37, 100, 42, 41] 0 i →
        Clean [120, 61, 49] (unanchored [40, 37, 97, 43, 41, 61, 40, 37, 100, 42, 41]) i ∧
          NoGroupBehindDollar (unanchored [40, 37, 97, 43, 41, 61, 40, 37, 100, 42, 41]) :=
  captures_describe_match [120, 61, 49] 0 (by decide)

/-- No group holds an opening parenthesis. -/
def Unnested (pattern : List UInt8) : Prop :=
  ∀ g ∈ (places pattern (pattern.length + 1) 0).filter (isGroup pattern), ∀ close ∈ findCloseParen pattern g,
    40 ∉ (pattern.take close).drop (g + 1)

instance (pattern : List UInt8) : Decidable (Unnested pattern) :=
  inferInstanceAs (Decidable (∀ g ∈ _, ∀ close ∈ findCloseParen pattern g, 40 ∉ (pattern.take close).drop (g + 1)))

/-- `a*(.)b` on `aab`: the group also took the `b` behind two `a`s, where no `b` follows. -/
theorem abandoned_capture_left : ¬ ∀ (subject pattern : List UInt8) (start : ℕ) (m : GmatchMatch),
    validGmatchPattern pattern = true → Unnested (unanchored pattern) →
      groupCount (unanchored pattern) ≤ GM_CAPS → gmFind subject pattern start = some m →
        DescribesMatch subject (unanchored pattern) m := by
  intro h
  have hm : gmFind [97, 97, 98] [97, 42, 40, 46, 41, 98] 0 = some ⟨0, 3, [(2, 3), (1, 2)]⟩ := by decide
  have hc := (h _ _ _ _ (by decide) (by decide) (by decide) hm).count
  revert hc
  decide

end Describe

end Pattern
end Lua
end Rustrapper

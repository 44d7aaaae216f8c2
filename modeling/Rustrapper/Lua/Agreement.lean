/-
# The two matchers agree

On a pattern none of whose items is an opening parenthesis `gm_match` is
`match_here` on the rest of the pattern, whatever the pattern: sets without an
end, a `%` at the end and a `$` in the middle included
(`gmFrom_of_noGroups`). So `gm_find` and the non-plain search of `string_find`
succeed together and with the same span (`matchers_agree`).
-/
import Rustrapper.Lua.Pattern

namespace Rustrapper
namespace Lua
namespace Pattern

open Search.Backtrack Search.Repeat

/-! ### Items of a pattern -/

/-- Where the item behind the one at `pi` starts. -/
def nextItem (pattern : List UInt8) (pi : ℕ) : ℕ :=
  if (quantAt pattern (pi + itemSize pattern pi)).isSome then pi + itemSize pattern pi + 1
  else pi + itemSize pattern pi

/-- Where the items from `pi` on start; a `$` ends the pattern wherever it stands. -/
def itemStarts (pattern : List UInt8) : ℕ → ℕ → List ℕ
  | 0, _ => []
  | fuel + 1, pi =>
    if pi ≥ pattern.length ∨ pattern[pi]? = some 36 then []
    else pi :: itemStarts pattern fuel (nextItem pattern pi)

/-- No item is an opening parenthesis. -/
def NoGroups (pattern : List UInt8) : Prop :=
  ∀ pi ∈ itemStarts pattern (pattern.length + 1) 0, pattern[pi]? ≠ some 40

instance (pattern : List UInt8) : Decidable (NoGroups pattern) := inferInstanceAs (Decidable (∀ pi ∈ _, _))

/-! ### One step of `gm_match` -/

section Steps
variable {subject pattern : List UInt8} {fuel start si pi : ℕ} {caps : Caps}

theorem gmFrom_done (h : pattern.length ≤ pi) :
    gmFrom subject pattern (fuel + 1) start si pi caps = (some (si - start), caps) := if_pos h

theorem gmFrom_dollar (h : pattern[pi]? = some 36) : gmFrom subject pattern (fuel + 1) start si pi caps =
    (if si = subject.length then some (si - start) else none, caps) := by
  have hlt : ¬ pi ≥ pattern.length := fun hle => by
    rw [List.getElem?_eq_none hle] at h
    cases h
  rw [gmFrom, if_neg hlt, if_pos h]

theorem gmFrom_quant {q : Quant} (hlt : pi < pattern.length) (hd : pattern[pi]? ≠ some 36)
    (hg : pattern[pi]? ≠ some 40) (hq : quantAt pattern (pi + itemSize pattern pi) = some q) :
    gmFrom subject pattern (fuel + 1) start si pi caps =
      firstOf (fun pos caps =>
        ((gmFrom subject pattern fuel pos pos (pi + itemSize pattern pi + 1) caps).1.map fun len => pos - start + len,
          (gmFrom subject pattern fuel pos pos (pi + itemSize pattern pi + 1) caps).2))
        (ends subject pattern pi q si) caps := by
  rw [gmFrom, if_neg (not_le.mpr hlt), if_neg hd, if_neg hg, if_neg (itemSize_pos hlt).ne', hq]

theorem gmFrom_single (hlt : pi < pattern.length) (hd : pattern[pi]? ≠ some 36) (hg : pattern[pi]? ≠ some 40)
    (hq : quantAt pattern (pi + itemSize pattern pi) = none) :
    gmFrom subject pattern (fuel + 1) start si pi caps =
      ((matchItem subject si pattern pi).map fun n =>
        gmFrom subject pattern fuel start (si + n) (pi + itemSize pattern pi) caps).getD (none, caps) := by
  rw [gmFrom, if_neg (not_le.mpr hlt), if_neg hd, if_neg hg, if_neg (itemSize_pos hlt).ne', hq]
  cases matchItem subject si pattern pi <;> rfl

/-- **Without groups** `gm_match` is `match_here` on the rest of the pattern, and records nothing. -/
theorem gmFrom_of_noGroups (hf : pattern.length - pi < fuel) (hs : start ≤ si)
    (hg : ∀ k ∈ itemStarts pattern fuel pi, pattern[k]? ≠ some 40) :
    gmFrom subject pattern fuel start si pi caps =
      ((matchHere subject si (pattern.drop pi)).map (si - start + ·), caps) := by
  induction fuel generalizing start si pi with
  | zero => omega
  | succ fuel ih =>
    rw [matchHere]
    by_cases hlt : pi < pattern.length
    · have hlen : 0 < (pattern.drop pi).length := by
        rw [List.length_drop]
        omega
      have hget : (pattern.drop pi)[0]? = pattern[pi]? := by rw [List.getElem?_drop, Nat.add_zero]
      have hsize : itemSize (pattern.drop pi) 0 = itemSize pattern pi := itemSize_drop pattern pi 0
      have hpos := itemSize_pos hlt
      by_cases hd : pattern[pi]? = some 36
      · rw [gmFrom_dollar hd, matchFrom_dollar (hget.trans hd), Nat.sub_self]
        split_ifs <;> simp
      · have hd' : (pattern.drop pi)[0]? ≠ some 36 := by rwa [hget]
        rw [itemStarts, if_neg (not_or.mpr ⟨not_le.mpr hlt, hd⟩)] at hg
        have hp := hg pi (by simp)
        have hnext := fun k hk => hg k (List.mem_cons_of_mem pi hk)
        cases hq : quantAt pattern (pi + itemSize pattern pi) with
        | some q =>
          have hq' : quantAt (pattern.drop pi) (0 + itemSize (pattern.drop pi) 0) = some q := by
            rw [quantAt_drop, hsize, Nat.zero_add, hq]
          have hbound := quantAt_lt hq
          rw [nextItem, hq, Option.isSome_some, if_pos rfl] at hnext
          have hsub := fun e (he : si ≤ e) => @ih e e (pi + itemSize pattern pi + 1) (by omega) le_rfl hnext
          rw [gmFrom_quant hlt hd hp hq, matchFrom_quant hlen hd' hq', ends_drop, Nat.add_zero, hsize, Nat.zero_add,
            List.drop_drop, ← Nat.add_assoc, List.map_findSome?]
          refine firstOf_eq_findSome caps _ fun e he => ?_
          have hle := le_of_mem_ends subject he
          rw [hsub e hle, Function.comp_apply, matchFrom_eq (by rw [List.length_drop, List.length_drop]; omega) le_rfl,
            Option.map_map, Option.map_map, Option.map_map, List.drop_zero]
          refine Prod.ext (congrArg (Option.map · _) (funext fun len => ?_)) rfl
          simp only [Function.comp_apply]
          omega
        | none =>
          have hq' : quantAt (pattern.drop pi) (0 + itemSize (pattern.drop pi) 0) = none := by
            rw [quantAt_drop, hsize, Nat.zero_add, hq]
          rw [nextItem, hq, Option.isSome_none, if_neg (by decide)] at hnext
          rw [gmFrom_single hlt hd hp hq, matchFrom_single hlen hd' hq', matchItem_drop, Nat.add_zero, hsize,
            Nat.zero_add]
          cases matchItem subject si pattern pi with
          | none => rfl
          | some n =>
            rw [Option.map_some, Option.getD_some, Option.bind_some, ih (by omega) (by omega) hnext,
              matchFrom_eq (by rw [List.length_drop]; omega) (by omega), List.drop_drop, Option.map_map]
            refine Prod.ext (congrArg (Option.map · _) (funext fun len => ?_)) rfl
            simp only [Function.comp_apply]
            omega
    · rw [gmFrom_done (by omega), matchFrom_done (by rw [List.length_drop]; omega), Nat.sub_self]
      rfl

end Steps

/-! ### The searches -/

/-- The first and the last position of a match, counted from 1. -/
def GmatchMatch.span (m : GmatchMatch) : ℕ × ℕ := (m.mstart + 1, m.mend)

section Searches
variable {subject pattern : List UInt8}

theorem gmAt_of_noGroups (h : NoGroups pattern) (i : ℕ) :
    gmAt subject pattern i = (endHere subject i pattern).map fun j => ⟨i, j, []⟩ := by
  rw [gmAt, gmMatch, Nat.sub_zero, gmFrom_of_noGroups (by omega) le_rfl h, endHere, Option.map_map, List.drop_zero, Option.map_map]
  refine congrArg (Option.map · _) (funext fun len => ?_)
  simp

theorem findPattern_eq_gmFind (h : NoGroups (unanchored pattern)) (start : ℕ) :
    findPattern subject pattern start = (gmFind subject pattern start).map GmatchMatch.span := by
  by_cases hempty : pattern = []
  · rw [findPattern, gmFind, if_pos hempty, if_pos hempty]
    rfl
  · rw [findPattern_eq pattern start hempty, gmFind, if_neg hempty, ← leftmost_map]
    refine leftmost_congr (fun i => ?_) start
    rw [gmAt_of_noGroups h, Option.map_map]
    rfl

theorem caps_of_noGroups (h : NoGroups (unanchored pattern)) {start : ℕ} {m : GmatchMatch}
    (hm : gmFind subject pattern start = some m) : m.caps = [] := by
  by_cases hempty : pattern = []
  · rw [gmFind, if_pos hempty] at hm
    exact Option.some.inj hm ▸ rfl
  · rw [gmFind, if_neg hempty] at hm
    obtain ⟨i, -, hi, -⟩ := leftmost_eq_some_iff.mp hm
    rw [gmAt_of_noGroups h] at hi
    obtain ⟨j, -, rfl⟩ := Option.map_eq_some_iff.mp hi
    rfl

/-- **The two matchers agree** on every pattern in which no item is an opening parenthesis. -/
theorem matchers_agree (subject : List UInt8) {pattern : List UInt8} (start : ℕ) (h : NoGroups (unanchored pattern)) :
    ((∃ m, gmFind subject pattern start = some m) ↔
      ∃ i j, stringFind subject pattern start false = .ok (some (i, j))) ∧
    ∀ m, gmFind subject pattern start = some m →
      stringFind subject pattern start false = .ok (some (m.mstart + 1, m.mend)) ∧ m.caps = [] := by
  have hfind : stringFind subject pattern start false = .ok (findPattern subject pattern start) := rfl
  rw [hfind, findPattern_eq_gmFind h]
  refine ⟨?_, fun m hm => ⟨by rw [hm]; rfl, caps_of_noGroups h hm⟩⟩
  cases gmFind subject pattern start with
  | none => simp
  | some m => simp [GmatchMatch.span]

/-- `a-[(]$b(` on `xaa(`: a lazy item, a set with a parenthesis, and a `$` in front of more. -/
theorem matchers_agree_dollar :
    ((∃ m, gmFind [120, 97, 97, 40] [97, 45, 91, 40, 93, 36, 98, 40] 0 = some m) ↔
      ∃ i j, stringFind [120, 97, 97, 40] [97, 45, 91, 40, 93, 36, 98, 40] 0 false = .ok (some (i, j))) ∧
    ∀ m, gmFind [120, 97, 97, 40] [97, 45, 91, 40, 93, 36, 98, 40] 0 = some m →
      stringFind [120, 97, 97, 40] [97, 45, 91, 40, 93, 36, 98, 40] 0 false = .ok (some (m.mstart + 1, m.mend)) ∧
        m.caps = [] :=
  matchers_agree [120, 97, 97, 40] 0 (by decide)

end Searches

end Pattern
end Lua
end Rustrapper

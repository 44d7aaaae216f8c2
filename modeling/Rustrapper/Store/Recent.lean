/-
# The last few of a history

A history kept in bounded room, in which nothing stands next to itself: what is
kept is the end of the history without its repetitions (`recent`), and a new
event is added to what is kept (`recent_concat`).
-/
import Mathlib.Data.List.Destutter
import Mathlib.Data.List.DropRight
import Mathlib.Tactic.Common

namespace Store

variable {α : Type*} [DecidableEq α]

/-- The last `n` events, of those that differ from the one before. -/
def recent (n : ℕ) (events : List α) : List α := (events.destutter (· ≠ ·)).rtake n

theorem destutter'_concat (a : α) (as : List α) (b : α) :
    (as ++ [b]).destutter' (· ≠ ·) a =
      as.destutter' (· ≠ ·) a ++ if (a :: as).getLast? = some b then [] else [b] := by
  induction as generalizing a with
  | nil => by_cases h : a = b <;> simp [h]
  | cons c as ih =>
    rw [List.cons_append, List.getLast?_cons_cons]
    by_cases h : a = c
    · rw [List.destutter'_cons_neg _ (not_not_intro h), List.destutter'_cons_neg _ (not_not_intro h), ih, h]
    · rw [List.destutter'_cons_pos _ h, List.destutter'_cons_pos _ h, ih, List.cons_append]

/-- A new event joins unless it is the last one again. -/
theorem destutter_concat (as : List α) (b : α) :
    (as ++ [b]).destutter (· ≠ ·) = as.destutter (· ≠ ·) ++ if as.getLast? = some b then [] else [b] := by
  cases as with
  | nil => simp
  | cons a as => exact destutter'_concat a as b

theorem getLast?_destutter (as : List α) : (as.destutter (· ≠ ·)).getLast? = as.getLast? := by
  induction as using List.reverseRecOn with
  | nil => rfl
  | append_singleton as b ih =>
    rw [destutter_concat, List.getLast?_concat]
    by_cases h : as.getLast? = some b
    · rw [if_pos h, List.append_nil, ih, h]
    · rw [if_neg h, List.getLast?_concat]

theorem getLast?_recent (n : ℕ) (as : List α) : (recent (n + 1) as).getLast? = as.getLast? := by
  rw [← getLast?_destutter as, recent]
  generalize as.destutter (· ≠ ·) = bs
  induction bs using List.reverseRecOn with
  | nil => rw [List.rtake_nil]
  | append_singleton bs b _ => rw [List.rtake_concat_succ, List.getLast?_concat, List.getLast?_concat]

omit [DecidableEq α] in
theorem rtake_concat_drop (n : ℕ) (as : List α) (b : α) : (as ++ [b]).rtake (n + 1) =
    (if (as.rtake (n + 1)).length ≥ n + 1 then (as.rtake (n + 1)).drop 1 else as.rtake (n + 1)) ++ [b] := by
  rw [List.rtake_concat_succ, List.rtake, List.rtake, List.length_drop, List.drop_drop]
  by_cases h : n + 1 ≤ as.length
  · rw [if_pos (by omega)]
    congr 2
    omega
  · rw [if_neg (by omega)]
    congr 2
    omega

/-- **A new event joins what is kept**, unless it is the last one again; the
oldest goes when there is no room. -/
theorem recent_concat (n : ℕ) (as : List α) (b : α) : recent (n + 1) (as ++ [b]) =
    if (recent (n + 1) as).getLast? = some b then recent (n + 1) as
    else (if (recent (n + 1) as).length ≥ n + 1 then (recent (n + 1) as).drop 1 else recent (n + 1) as) ++ [b] := by
  rw [getLast?_recent, recent, destutter_concat]
  by_cases h : as.getLast? = some b
  · rw [if_pos h, if_pos h, List.append_nil]
    rfl
  · rw [if_neg h, if_neg h, rtake_concat_drop]
    rfl

end Store

/-
# The pattern matchers

The two backtracking matchers of `eval.rs` and what they share. `match_here`
cuts the pattern anew for every rest it tries and gives the length of a match;
`gm_match` carries an index into one pattern and, through the search, the spans
of the capture groups. A position of the pattern is an index, as in the source;
what stands there is read from the bytes behind it.

Both loops take at least one byte of the pattern a step. `fuel` counts the
steps; the callers give more than there are bytes.
-/
import Rustrapper.Search.Repeat
import Rustrapper.Lua.Value

namespace Rustrapper
namespace Lua
namespace Pattern

open Search.Backtrack Search.Repeat

/-! ### Items -/

def isUpper (c : UInt8) : Bool := 65 ≤ c && c ≤ 90
def isLower (c : UInt8) : Bool := 97 ≤ c && c ≤ 122
def isDigit (c : UInt8) : Bool := 48 ≤ c && c ≤ 57
def isAlpha (c : UInt8) : Bool := isUpper c || isLower c
def isHex (c : UInt8) : Bool := isDigit c || (65 ≤ c && c ≤ 70) || (97 ≤ c && c ≤ 102)
def isSpace (c : UInt8) : Bool := c = 32 || c = 9 || c = 10 || c = 12 || c = 13

/-- `is_ascii_punctuation`. -/
def isPunct (c : UInt8) : Bool :=
  (33 ≤ c && c ≤ 47) || (58 ≤ c && c ≤ 64) || (91 ≤ c && c ≤ 96) || (123 ≤ c && c ≤ 126)

/-- `class_match`. -/
def classMatch (c cls : UInt8) : Bool :=
  if cls = 97 then isAlpha c
  else if cls = 65 then isUpper c
  else if cls = 99 then c < 32 || c = 127
  else if cls = 100 then isDigit c
  else if cls = 108 then isLower c
  else if cls = 112 then isPunct c
  else if cls = 115 then isSpace c
  else if cls = 117 then isUpper c
  else if cls = 119 then isAlpha c || isDigit c
  else if cls = 120 then isHex c
  else c = cls

/-- The bytes of a set in front of its `]`, or all there are. -/
def setLength : List UInt8 → ℕ
  | [] => 0
  | [b] => if b = 93 then 0 else 1
  | b :: c :: p => if b = 93 then 0 else if b = 37 then setLength p + 2 else setLength (c :: p) + 1

/-- `item_size`. -/
def itemSize (pattern : List UInt8) (pi : ℕ) : ℕ :=
  match pattern.drop pi with
  | [] => 0
  | b :: p =>
    if b = 37 then 2
    else if b = 91 then if setLength p < p.length then setLength p + 2 else p.length + 1
    else 1

/-- `bracket_elem`: the byte, the class and the length of the element at the front. -/
def bracketElem : List UInt8 → UInt8 × UInt8 × ℕ
  | [] => (0, 0, 0)
  | [b] => (b, 0, 1)
  | b :: c :: _ => if b = 37 then (0, c, 2) else (b, 0, 1)

/-- Whether a `-` with an upper end comes next. -/
def rangeNext : List UInt8 → Bool
  | b :: c :: _ => b = 45 && c ≠ 93
  | _ => false

/-- `in_range`. -/
def inRange (c lo loCls hi hiCls : UInt8) : Bool :=
  if loCls = 0 ∧ hiCls = 0 then lo ≤ c && c ≤ hi
  else if loCls ≠ 0 ∧ hiCls = 0 then classMatch c loCls || (lo ≤ c && c ≤ hi)
  else if loCls = 0 ∧ hiCls ≠ 0 then (lo ≤ c && c ≤ hi) || classMatch c hiCls
  else classMatch c loCls || classMatch c hiCls

/-- The loop of `match_bracket`: whether an element of the set matches. -/
def bracketLoop (c : UInt8) : ℕ → List UInt8 → Bool → Bool
  | 0, _, matched => matched
  | fuel + 1, p, matched =>
    if p = [] ∨ p.head? = some 93 then matched
    else
      let (lo, loCls, n) := bracketElem p
      let p := p.drop n
      if rangeNext p then
        let (hi, hiCls, n) := bracketElem (p.drop 1)
        bracketLoop c fuel ((p.drop 1).drop n) (matched || inRange c lo loCls hi hiCls)
      else bracketLoop c fuel p (matched || if loCls ≠ 0 then classMatch c loCls else c = lo)

/-- `Some(1)` when the byte at `si` is there and passes. -/
def oneByte (subject : List UInt8) (si : ℕ) (test : UInt8 → Bool) : Option ℕ :=
  if subject[si]?.any test then some 1 else none

/-- `match_bracket`, on the bytes behind the `[`. -/
def matchBracket (subject : List UInt8) (si : ℕ) (p : List UInt8) : Option ℕ :=
  let negate : Bool := p.head? = some 94
  let p := if negate then p.drop 1 else p
  oneByte subject si fun c => bracketLoop c p.length p false != negate

/-- `match_item`. -/
def matchItem (subject : List UInt8) (si : ℕ) (pattern : List UInt8) (pi : ℕ) : Option ℕ :=
  match pattern.drop pi with
  | [] => some 0
  | ch :: p =>
    if ch = 46 then oneByte subject si fun _ => true
    else if ch = 37 then
      match p with
      | [] => none
      | cls :: _ => oneByte subject si fun c => if cls = 37 then c = 37 else classMatch c cls
    else if ch = 91 then matchBracket subject si p
    else if ch = 94 ∨ ch = 36 then some 0
    else oneByte subject si fun c => c = ch

/-! ### Quantifiers -/

/-- The quantifier a byte is. -/
def quantOf (b : UInt8) : Option Quant :=
  if b = 42 then some .star
  else if b = 43 then some .plus
  else if b = 45 then some .lazy
  else if b = 63 then some .opt
  else none

/-- The quantifier behind an item. -/
def quantAt (pattern : List UInt8) (k : ℕ) : Option Quant := pattern[k]?.bind quantOf

/-- `while let Some(n) = match_item(..)`: where the greedy loop ends. -/
def greedyEnd (item : ℕ → Option ℕ) : ℕ → ℕ → ℕ
  | 0, pos => pos
  | fuel + 1, pos =>
    match item pos with
    | some (n + 1) => greedyEnd item fuel (pos + (n + 1))
    | _ => pos

/-- The positions at which the lazy loop tries the rest. -/
def lazyEnds (item : ℕ → Option ℕ) : ℕ → ℕ → List ℕ
  | 0, pos => [pos]
  | fuel + 1, pos =>
    pos :: match item pos with
      | some (n + 1) => lazyEnds item fuel (pos + (n + 1))
      | _ => []

/-- The positions at which the rest behind a quantified item is tried, in order. -/
def ends (subject pattern : List UInt8) (pi : ℕ) (q : Quant) (si : ℕ) : List ℕ :=
  let item pos := matchItem subject pos pattern pi
  let most := greedyEnd item subject.length si - si
  match q with
  | .opt => ((item si).map (si + ·)).toList ++ [si]
  | .lazy => lazyEnds item subject.length si
  | .plus => ((List.range (most + 1)).reverse.filter (1 ≤ ·)).map (si + ·)
  | .star => (List.range (most + 1)).reverse.map (si + ·)
  | .one => []

/-! ### `match_here` -/

/-- The loop of `match_here`. -/
def matchFrom (subject : List UInt8) : ℕ → List UInt8 → (i si pi : ℕ) → Option ℕ
  | 0, _, _, _, _ => none
  | fuel + 1, pattern, i, si, pi =>
    if pi ≥ pattern.length then some (si - i)
    else if pattern[pi]? = some 36 then if si = subject.length then some (si - i) else none
    else
      let size := itemSize pattern pi
      if size = 0 then none
      else
        match quantAt pattern (pi + size) with
        | some q =>
          let rest := pattern.drop (pi + size + 1)
          (ends subject pattern pi q si).findSome? fun pos =>
            (matchFrom subject fuel rest pos pos 0).map fun len => pos - i + len
        | none => (matchItem subject si pattern pi).bind fun n => matchFrom subject fuel pattern i (si + n) (pi + size)

/-- `match_here`. -/
def matchHere (subject : List UInt8) (i : ℕ) (pattern : List UInt8) : Option ℕ :=
  matchFrom subject (pattern.length + 1) pattern i i 0

/-- The pattern starts with `^`. -/
def anchored (pattern : List UInt8) : Bool := pattern.head? = some 94

/-- The pattern without a `^` at its start. -/
def unanchored (pattern : List UInt8) : List UInt8 := if anchored pattern then pattern.drop 1 else pattern

/-- The pattern search of `string_find`. -/
def findPattern (subject pattern : List UInt8) (start : ℕ) : Option (ℕ × ℕ) :=
  if pattern = [] then some (start + 1, start)
  else
    leftmost (fun i => (matchHere subject i (unanchored pattern)).map fun len => (i + 1, i + len))
      (anchored pattern) subject.length start

/-- `find_plain`. With a pattern longer than the subject `limit` underflows; where that wraps, the
first slice is out of range. -/
def findPlain (subject pattern : List UInt8) (start : ℕ) : Except Fault (Option (ℕ × ℕ)) :=
  if pattern = [] then .ok (some (start + 1, start))
  else if start > subject.length then .ok none
  else if subject.length < pattern.length then .error .index
  else
    let limit := subject.length - pattern.length
    .ok (((List.range' start (limit + 1 - start)).find? fun i => (subject.drop i).take pattern.length = pattern).map
      fun i => (i + 1, i + pattern.length))

/-- `string_find`: the first and the last position of a match, counted from 1. -/
def stringFind (subject pattern : List UInt8) (start : ℕ) (plain : Bool) : Except Fault (Option (ℕ × ℕ)) :=
  if plain then findPlain subject pattern start else .ok (findPattern subject pattern start)

/-! ### `gm_match` -/

def GM_CAPS : ℕ := 8

/-- The spans of the groups so far. -/
abbrev Caps := List (ℕ × ℕ)

/-- `GmatchMatch`; `ncap` is the length of `caps`. -/
structure GmatchMatch where
  mstart : ℕ
  mend : ℕ
  caps : Caps
deriving DecidableEq

/-- How far the first `)` that is not escaped is. -/
def closeOffset : List UInt8 → Option ℕ
  | [] => none
  | [b] => if b = 41 then some 0 else none
  | b :: c :: p =>
    if b = 37 then (closeOffset p).map (· + 2)
    else if b = 41 then some 0
    else (closeOffset (c :: p)).map (· + 1)

/-- `find_close_paren`. -/
def findCloseParen (pattern : List UInt8) (pos : ℕ) : Option ℕ :=
  (closeOffset (pattern.drop (pos + 1))).map (pos + 1 + ·)

/-- Record a span, while there is room. -/
def addCap (caps : Caps) (span : ℕ × ℕ) : Caps := if caps.length < GM_CAPS then caps ++ [span] else caps

/-- The loop of `gm_match`. -/
def gmFrom (subject pattern : List UInt8) : ℕ → (start si pi : ℕ) → Caps → Option ℕ × Caps
  | 0, _, _, _, caps => (none, caps)
  | fuel + 1, start, si, pi, caps =>
    if pi ≥ pattern.length then (some (si - start), caps)
    else if pattern[pi]? = some 36 then (if si = subject.length then some (si - start) else none, caps)
    else if pattern[pi]? = some 40 then
      match findCloseParen pattern pi with
      | none => (none, caps)
      | some close =>
        match matchHere subject si ((pattern.take close).drop (pi + 1)) with
        | none => (none, caps)
        | some len => gmFrom subject pattern fuel start (si + len) (close + 1) (addCap caps (si, si + len))
    else
      let size := itemSize pattern pi
      if size = 0 then (none, caps)
      else
        match quantAt pattern (pi + size) with
        | some q =>
          firstOf (fun pos caps =>
            let r := gmFrom subject pattern fuel pos pos (pi + size + 1) caps
            (r.1.map fun len => pos - start + len, r.2)) (ends subject pattern pi q si) caps
        | none =>
          match matchItem subject si pattern pi with
          | none => (none, caps)
          | some n => gmFrom subject pattern fuel start (si + n) (pi + size) caps

/-- `gm_match`. -/
def gmMatch (subject : List UInt8) (si : ℕ) (pattern : List UInt8) (pi : ℕ) (caps : Caps) : Option ℕ × Caps :=
  gmFrom subject pattern (pattern.length - pi + 1) si si pi caps

/-- A match of `gm_find` at position `i`. -/
def gmAt (subject pattern : List UInt8) (i : ℕ) : Option GmatchMatch :=
  let r := gmMatch subject i pattern 0 []
  r.1.map fun len => ⟨i, i + len, r.2⟩

/-- `gm_find`. -/
def gmFind (subject pattern : List UInt8) (start : ℕ) : Option GmatchMatch :=
  if pattern = [] then some ⟨start, start, []⟩
  else leftmost (gmAt subject (unanchored pattern)) (anchored pattern) subject.length start

/-- The depth of open groups behind a byte. -/
def parenStep (depth : ℕ) (b : UInt8) : Option ℕ :=
  if b = 40 then some (depth + 1)
  else if b = 41 then if depth = 0 then none else some (depth - 1)
  else some depth

/-- The loop of `valid_gmatch_pattern`. -/
def validFrom : ℕ → List UInt8 → Bool
  | depth, [] => depth = 0
  | depth, [b] => parenStep depth b = some 0
  | depth, b :: c :: p =>
    if b = 37 then validFrom depth p
    else
      match parenStep depth b with
      | none => false
      | some depth => validFrom depth (c :: p)

/-- `valid_gmatch_pattern`. -/
def validGmatchPattern (pattern : List UInt8) : Bool := validFrom 0 pattern

/-! ### One step of `match_here` -/

section Steps
variable (subject : List UInt8)

theorem itemSize_drop (pattern : List UInt8) (k pi : ℕ) :
    itemSize (pattern.drop k) pi = itemSize pattern (k + pi) := by
  rw [itemSize, itemSize, List.drop_drop]

theorem matchItem_drop (si : ℕ) (pattern : List UInt8) (k pi : ℕ) :
    matchItem subject si (pattern.drop k) pi = matchItem subject si pattern (k + pi) := by
  rw [matchItem, matchItem, List.drop_drop]

theorem ends_drop (pattern : List UInt8) (k pi : ℕ) (q : Quant) (si : ℕ) :
    ends subject (pattern.drop k) pi q si = ends subject pattern (k + pi) q si := by
  simp only [ends, matchItem_drop]

theorem quantAt_drop (pattern : List UInt8) (k pi : ℕ) : quantAt (pattern.drop k) pi = quantAt pattern (k + pi) := by
  rw [quantAt, quantAt, List.getElem?_drop]

theorem itemSize_pos {pattern : List UInt8} {pi : ℕ} (h : pi < pattern.length) : 0 < itemSize pattern pi := by
  rw [itemSize, List.drop_eq_getElem_cons h]
  dsimp only
  split_ifs <;> omega

theorem quantAt_lt {pattern : List UInt8} {k : ℕ} {q : Quant} (h : quantAt pattern k = some q) : k < pattern.length := by
  by_contra hk
  rw [quantAt, List.getElem?_eq_none (not_lt.mp hk)] at h
  cases h

theorem le_greedyEnd (item : ℕ → Option ℕ) : ∀ fuel pos, pos ≤ greedyEnd item fuel pos
  | 0, pos => le_rfl
  | fuel + 1, pos => by
    rw [greedyEnd]
    split
    · exact (Nat.le_add_right _ _).trans (le_greedyEnd item fuel _)
    · exact le_rfl

theorem le_of_mem_lazyEnds (item : ℕ → Option ℕ) {e : ℕ} : ∀ {fuel pos}, e ∈ lazyEnds item fuel pos → pos ≤ e
  | 0, pos, h => (List.mem_singleton.mp h).ge
  | fuel + 1, pos, h => by
    rcases List.mem_cons.mp h with rfl | h
    · exact le_rfl
    · split at h
      · exact (Nat.le_add_right _ _).trans (le_of_mem_lazyEnds item h)
      · simp at h

/-- The rest of a pattern is tried behind what is matched. -/
theorem le_of_mem_ends {pattern : List UInt8} {pi : ℕ} {q : Quant} {si e : ℕ}
    (h : e ∈ ends subject pattern pi q si) : si ≤ e := by
  cases q with
  | lazy => exact le_of_mem_lazyEnds _ h
  | opt =>
    rcases List.mem_append.mp h with h | h
    · obtain ⟨n, -, rfl⟩ := Option.map_eq_some_iff.mp (Option.mem_toList.mp h)
      omega
    · exact (List.mem_singleton.mp h).ge
  | one => cases h
  | star | plus =>
    obtain ⟨n, -, rfl⟩ := List.mem_map.mp h
    omega

variable {subject}

section From
variable {pattern : List UInt8} {fuel i si pi : ℕ}

theorem matchFrom_done (h : pattern.length ≤ pi) : matchFrom subject (fuel + 1) pattern i si pi = some (si - i) :=
  if_pos h

theorem matchFrom_dollar (h : pattern[pi]? = some 36) : matchFrom subject (fuel + 1) pattern i si pi =
    if si = subject.length then some (si - i) else none := by
  have hlt : ¬ pi ≥ pattern.length := fun hle => by
    rw [List.getElem?_eq_none hle] at h
    cases h
  rw [matchFrom, if_neg hlt, if_pos h]

theorem matchFrom_quant {q : Quant} (hlt : pi < pattern.length) (hd : pattern[pi]? ≠ some 36)
    (hq : quantAt pattern (pi + itemSize pattern pi) = some q) : matchFrom subject (fuel + 1) pattern i si pi =
      (ends subject pattern pi q si).findSome? fun pos =>
        (matchFrom subject fuel (pattern.drop (pi + itemSize pattern pi + 1)) pos pos 0).map fun len => pos - i + len := by
  rw [matchFrom, if_neg (not_le.mpr hlt), if_neg hd, if_neg (itemSize_pos hlt).ne', hq]

theorem matchFrom_single (hlt : pi < pattern.length) (hd : pattern[pi]? ≠ some 36)
    (hq : quantAt pattern (pi + itemSize pattern pi) = none) : matchFrom subject (fuel + 1) pattern i si pi =
      (matchItem subject si pattern pi).bind fun n =>
        matchFrom subject fuel pattern i (si + n) (pi + itemSize pattern pi) := by
  rw [matchFrom, if_neg (not_le.mpr hlt), if_neg hd, if_neg (itemSize_pos hlt).ne', hq]

end From

/-- An index into a pattern is the pattern cut there, and the fuel does not matter. -/
theorem matchFrom_eq {pattern : List UInt8} {fuel i si pi : ℕ} (hf : pattern.length - pi < fuel) (hi : i ≤ si) :
    matchFrom subject fuel pattern i si pi = (matchHere subject si (pattern.drop pi)).map (si - i + ·) := by
  induction hn : pattern.length - pi using Nat.strong_induction_on generalizing pattern fuel i si pi with
  | h n ih =>
    obtain ⟨fuel, rfl⟩ : ∃ f, fuel = f + 1 := ⟨fuel - 1, by omega⟩
    have hlen : (pattern.drop pi).length = n := by rw [List.length_drop, hn]
    rw [matchHere]
    by_cases hlt : pi < pattern.length
    · have hlt' : 0 < (pattern.drop pi).length := by omega
      have hget : (pattern.drop pi)[0]? = pattern[pi]? := by rw [List.getElem?_drop, Nat.add_zero]
      have hsize : itemSize (pattern.drop pi) 0 = itemSize pattern pi := itemSize_drop pattern pi 0
      have hpos := itemSize_pos hlt
      by_cases hd : pattern[pi]? = some 36
      · rw [matchFrom_dollar hd, matchFrom_dollar (hget.trans hd), Nat.sub_self]
        split_ifs <;> simp
      · have hd' : (pattern.drop pi)[0]? ≠ some 36 := by rwa [hget]
        cases hq : quantAt pattern (pi + itemSize pattern pi) with
        | some q =>
          have hq' : quantAt (pattern.drop pi) (0 + itemSize (pattern.drop pi) 0) = some q := by
            rw [quantAt_drop, hsize, Nat.zero_add, hq]
          have hbound := quantAt_lt hq
          rw [matchFrom_quant hlt hd hq, matchFrom_quant hlt' hd' hq', ends_drop, Nat.add_zero, hsize, Nat.zero_add,
            List.drop_drop, ← Nat.add_assoc, List.map_findSome?]
          refine findSome_congr fun e he => ?_
          have hle := le_of_mem_ends subject he
          have hrest : (pattern.drop (pi + itemSize pattern pi + 1)).length - 0 < n := by
            rw [List.length_drop]
            omega
          rw [Function.comp_apply, ih _ hrest (by omega) le_rfl rfl, ih _ hrest (by omega) le_rfl rfl]
          simp only [Option.map_map]
          congr 1
          funext len
          simp only [Function.comp_apply]
          omega
        | none =>
          have hq' : quantAt (pattern.drop pi) (0 + itemSize (pattern.drop pi) 0) = none := by
            rw [quantAt_drop, hsize, Nat.zero_add, hq]
          rw [matchFrom_single hlt hd hq, matchFrom_single hlt' hd' hq', matchItem_drop, Nat.add_zero, hsize,
            Nat.zero_add, Option.map_bind]
          refine Option.bind_congr fun k _ => ?_
          have hrest : pattern.length - (pi + itemSize pattern pi) < n := by omega
          have hrest' : (pattern.drop pi).length - itemSize pattern pi < n := by omega
          rw [Function.comp_apply, ih _ hrest (by omega) (by omega) rfl, ih _ hrest' (by omega) (by omega) rfl,
            List.drop_drop, Option.map_map]
          congr 1
          funext len
          simp only [Function.comp_apply]
          omega
    · rw [matchFrom_done (by omega), matchFrom_done (by omega), Nat.sub_self]
      rfl

/-! ### Ends of matches -/

variable (subject) in
/-- Where a match at `i` ends. -/
def endHere (i : ℕ) (p : List UInt8) : Option ℕ := (matchHere subject i p).map (i + ·)

theorem endHere_nil (i : ℕ) : endHere subject i [] = some i := by
  rw [endHere, matchHere, matchFrom_done (Nat.zero_le _)]
  simp

theorem endHere_dollar (i : ℕ) {p : List UInt8} (h : p[0]? = some 36) :
    endHere subject i p = if i = subject.length then some i else none := by
  rw [endHere, matchHere, matchFrom_dollar h]
  split_ifs <;> simp

theorem map_add_matchHere {i e : ℕ} (he : i ≤ e) (p : List UInt8) :
    (matchHere subject e p).map (fun len => i + (e - i + len)) = endHere subject e p := by
  rw [endHere]
  congr 1
  funext len
  omega

/-- Behind an item with a quantifier the rest is tried at the ends of its repetitions. -/
theorem endHere_quant (i : ℕ) {p : List UInt8} {q : Quant} (hp : p ≠ []) (hd : p[0]? ≠ some 36)
    (hq : quantAt p (itemSize p 0) = some q) :
    endHere subject i p = (ends subject p 0 q i).findSome? fun e => endHere subject e (p.drop (itemSize p 0 + 1)) := by
  rw [endHere, matchHere, matchFrom_quant (List.length_pos_iff.mpr hp) hd (by rwa [Nat.zero_add]), Nat.zero_add,
    List.map_findSome?]
  refine findSome_congr fun e he => ?_
  have hlt := quantAt_lt hq
  rw [Function.comp_apply, matchFrom_eq (by rw [List.length_drop]; omega) le_rfl, Option.map_map, Option.map_map,
    ← map_add_matchHere (le_of_mem_ends subject he), List.drop_zero]
  congr 1
  funext len
  simp only [Function.comp_apply]
  omega

/-- An item without one is matched once. -/
theorem endHere_single (i : ℕ) {p : List UInt8} (hp : p ≠ []) (hd : p[0]? ≠ some 36)
    (hq : quantAt p (itemSize p 0) = none) :
    endHere subject i p = (matchItem subject i p 0).bind fun n => endHere subject (i + n) (p.drop (itemSize p 0)) := by
  have hsize := itemSize_pos (List.length_pos_iff.mpr hp)
  rw [endHere, matchHere, matchFrom_single (List.length_pos_iff.mpr hp) hd (by rwa [Nat.zero_add]), Nat.zero_add,
    Option.map_bind]
  refine Option.bind_congr fun n _ => ?_
  have hlen := List.length_pos_iff.mpr hp
  rw [Function.comp_apply, matchFrom_eq (by omega) (by omega), Option.map_map,
    ← map_add_matchHere (Nat.le_add_right i n)]
  rfl

theorem findPattern_eq (pattern : List UInt8) (start : ℕ) (h : pattern ≠ []) :
    findPattern subject pattern start =
      leftmost (fun i => (endHere subject i (unanchored pattern)).map fun j => (i + 1, j)) (anchored pattern)
        subject.length start := by
  rw [findPattern, if_neg h]
  refine leftmost_congr (fun i => ?_) start
  rw [endHere, Option.map_map]
  rfl

end Steps

end Pattern
end Lua
end Rustrapper

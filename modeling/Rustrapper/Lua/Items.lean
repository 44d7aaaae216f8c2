/-
# Patterns of single-byte items

Patterns built from literals, `.`, `%x` and sets, each with a quantifier or
none, with an optional `^` in front and an optional `$` behind. What such a
pattern means needs no matcher: its items are pieces of a backtracking search
over the subject, and a match is an admissible choice of repetition counts
(`Search.Backtrack`). The non-plain search of `string_find` finds the least
position that has one, and the first choice there (`search_sound_and_complete`).

A value of `Simple` can be written: its items keep the rules of the syntax.
-/
import Rustrapper.Lua.Pattern

namespace Rustrapper
namespace Lua
namespace Pattern

open Search Search.Backtrack Search.Repeat

/-! ### The items -/

/-- The bytes with a meaning of their own in a pattern: `^$()%.[]*+-?`. -/
def magic : List UInt8 := [94, 36, 40, 41, 37, 46, 91, 93, 42, 43, 45, 63]

/-- An element of a set: a byte, `%x`, or a range. -/
inductive SetElem where
  | byte (c : UInt8)
  | esc (c : UInt8)
  | range (lo hi : UInt8)

def SetElem.spell : SetElem → List UInt8
  | .byte c => [c]
  | .esc c => [37, c]
  | .range lo hi => [lo, 45, hi]

def SetElem.test : SetElem → UInt8 → Bool
  | .byte c, b => b = c
  | .esc c, b => classMatch b c
  | .range lo hi, b => lo ≤ b && b ≤ hi

def spellElems (es : List SetElem) : List UInt8 := es.flatMap SetElem.spell

/-- A byte that stands for itself in a set. -/
def Plain (c : UInt8) : Prop := c ≠ 93 ∧ c ≠ 37

/-- No `-` follows, but as the last byte of the set. -/
def NoRange (next : List UInt8) : Prop := next.head? = some 45 → next.length ≤ 1

/-- An element in front of the bytes `next`. -/
def SetElem.Valid (next : List UInt8) : SetElem → Prop
  | .byte c => Plain c ∧ NoRange next
  | .esc _ => NoRange next
  | .range lo hi => Plain lo ∧ Plain hi

def ElemsValid : List SetElem → Prop
  | [] => True
  | e :: es => e.Valid (spellElems es) ∧ ElemsValid es

/-- A single-byte item. -/
inductive Item where
  | byte (c : UInt8)
  | any
  | esc (c : UInt8)
  | set (negated : Bool) (elems : List SetElem)

def Item.spell : Item → List UInt8
  | .byte c => [c]
  | .any => [46]
  | .esc c => [37, c]
  | .set negated es => 91 :: ((if negated then [94] else []) ++ spellElems es ++ [93])

def Item.test : Item → UInt8 → Bool
  | .byte c, b => b = c
  | .any, _ => true
  | .esc c, b => classMatch b c
  | .set negated es, b => es.any (·.test b) != negated

/-- A literal is not magic; a set has elements, and only `[^` starts with `^`. -/
def Item.Valid : Item → Prop
  | .byte c => c ∉ magic
  | .set negated es => es ≠ [] ∧ ElemsValid es ∧ (negated = false → (spellElems es).head? ≠ some 94)
  | _ => True

/-- The bytes of a quantifier. -/
def spellQuant : Quant → List UInt8
  | .one => []
  | .opt => [63]
  | .star => [42]
  | .plus => [43]
  | .lazy => [45]

/-- A pattern of single-byte items. -/
structure Simple where
  anchored : Bool
  items : List (Item × Quant)
  atEnd : Bool
  valid : ∀ p ∈ items, p.1.Valid

def spellItems (items : List (Item × Quant)) : List UInt8 := items.flatMap fun p => p.1.spell ++ spellQuant p.2

/-- The `$`, if there is one. -/
def spellEnd (atEnd : Bool) : List UInt8 := if atEnd then [36] else []

/-- The bytes of a pattern. -/
def Simple.spell (P : Simple) : List UInt8 :=
  (if P.anchored then [94] else []) ++ (spellItems P.items ++ spellEnd P.atEnd)

/-! ### What a pattern means -/

/-- The items as steps over the subject. -/
def Simple.steps (P : Simple) (subject : List UInt8) : List Step :=
  P.items.map fun p => Piece.step subject ⟨p.1.test, p.2⟩

/-- A match may end here. -/
def accepts (subject : List UInt8) (atEnd : Bool) (j : ℕ) : Bool := !atEnd || j = subject.length

/-- The repetition counts match from position `k` on. -/
def Simple.Chooses (P : Simple) (subject : List UInt8) (k : ℕ) (ns : List ℕ) : Prop :=
  Admissible (accepts subject P.atEnd) (P.steps subject) k ns

/-- The first counts that match from position `k` on. -/
def Simple.FirstChoice (P : Simple) (subject : List UInt8) (k : ℕ) (ns : List ℕ) : Prop :=
  First (accepts subject P.atEnd) (P.steps subject) k ns

/-- A position the search may use: at or after the start, and only the start with `^`. -/
def Simple.From (P : Simple) (start k : ℕ) : Prop := start ≤ k ∧ (P.anchored = true → k = start)

/-! ### Sets -/

section Sets

theorem setLength_cons {b : UInt8} (h93 : b ≠ 93) (h37 : b ≠ 37) (p : List UInt8) :
    setLength (b :: p) = setLength p + 1 := by
  cases p with
  | nil => simp [setLength, h93]
  | cons c p => rw [setLength, if_neg h93, if_neg h37]

theorem setLength_esc (c : UInt8) (p : List UInt8) : setLength (37 :: c :: p) = setLength p + 2 := by
  rw [setLength, if_neg (by decide), if_pos rfl]

theorem setLength_close (p : List UInt8) : setLength (93 :: p) = 0 := by
  cases p <;> simp [setLength]

theorem setLength_elems : ∀ {es : List SetElem}, ElemsValid es → ∀ rest,
    setLength (spellElems es ++ 93 :: rest) = (spellElems es).length
  | [], _, rest => setLength_close rest
  | e :: es, h, rest => by
    have ih := setLength_elems h.2 rest
    have hs : spellElems (e :: es) = e.spell ++ spellElems es := rfl
    rw [hs, List.append_assoc, List.length_append, ← ih]
    cases e with
    | byte c =>
      have hc := h.1.1
      rw [SetElem.spell, List.singleton_append, setLength_cons hc.1 hc.2]
      simp [Nat.add_comm]
    | esc c =>
      rw [SetElem.spell, List.cons_append, List.singleton_append, setLength_esc]
      simp [Nat.add_comm]
    | range lo hi =>
      obtain ⟨hlo, hhi⟩ := h.1
      simp only [SetElem.spell, List.cons_append, List.nil_append]
      rw [setLength_cons hlo.1 hlo.2, setLength_cons (by decide) (by decide), setLength_cons hhi.1 hhi.2]
      simp only [List.length_cons, List.length_nil]
      omega

theorem rangeNext_elems {es : List SetElem} (h : NoRange (spellElems es)) (rest : List UInt8) :
    rangeNext (spellElems es ++ 93 :: rest) = false := by
  rcases hs : spellElems es with _ | ⟨b, _ | ⟨c, p⟩⟩
  · cases rest <;> simp [rangeNext]
  · simp [rangeNext]
  · have hb : b ≠ 45 := by
      rintro rfl
      have := h (by rw [hs]; rfl)
      simp [hs] at this
    simp [rangeNext, hb]

theorem bracketElem_byte {b : UInt8} (hb : b ≠ 37) (p : List UInt8) : bracketElem (b :: p) = (b, 0, 1) := by
  cases p <;> simp [bracketElem, hb]

theorem classMatch_zero (b : UInt8) : classMatch b 0 = decide (b = 0) := rfl

/-- **The loop of `match_bracket`** finds out whether an element of the set passes. -/
theorem bracketLoop_elems (c : UInt8) : ∀ {es : List SetElem}, ElemsValid es → ∀ (rest : List UInt8) {fuel : ℕ}
    (_ : es.length < fuel) (m : Bool), bracketLoop c fuel (spellElems es ++ 93 :: rest) m = (m || es.any (·.test c))
  | [], _, rest, fuel + 1, _, m => by simp [bracketLoop, spellElems]
  | e :: es, h, rest, fuel + 1, hf, m => by
    have ih := @bracketLoop_elems c es h.2 rest fuel (by simpa using hf)
    have hs : spellElems (e :: es) = e.spell ++ spellElems es := rfl
    have hne : ¬ (spellElems (e :: es) ++ 93 :: rest = [] ∨ (spellElems (e :: es) ++ 93 :: rest).head? = some 93) := by
      rintro (he | he)
      · simp at he
      · cases e <;> simp [spellElems, SetElem.spell] at he
        · exact h.1.1.1 he
        · exact h.1.1.1 he
    rw [bracketLoop, if_neg hne, hs, List.append_assoc, List.any_cons]
    cases e with
    | byte b =>
      have hb := h.1
      simp only [SetElem.spell, List.singleton_append, bracketElem_byte hb.1.2, List.drop_succ_cons, List.drop_zero,
        rangeNext_elems hb.2 rest, ih, SetElem.test]
      simp [Bool.or_assoc]
    | esc b =>
      simp only [SetElem.spell, List.cons_append, List.nil_append, bracketElem, if_true, List.drop_succ_cons,
        List.drop_zero, rangeNext_elems h.1 rest, ih, SetElem.test]
      by_cases hb : b = 0
      · subst hb
        simp [classMatch_zero, Bool.or_assoc]
      · simp [hb, Bool.or_assoc]
    | range lo hi =>
      obtain ⟨hlo, hhi⟩ := h.1
      have hr : rangeNext (45 :: hi :: (spellElems es ++ 93 :: rest)) = true := by simp [rangeNext, hhi.1]
      simp only [SetElem.spell, List.cons_append, List.nil_append, bracketElem_byte hlo.2, List.drop_succ_cons,
        List.drop_zero, hr, bracketElem_byte hhi.2, ih, SetElem.test]
      simp [inRange, Bool.or_assoc]

end Sets

/-! ### Items at the front of a pattern -/

section Front
variable {it : Item} (rest : List UInt8)

theorem length_elems_le (es : List SetElem) : es.length ≤ (spellElems es).length := by
  induction es with
  | nil => rfl
  | cons e es ih =>
    have hs : spellElems (e :: es) = e.spell ++ spellElems es := rfl
    rw [hs, List.length_append, List.length_cons]
    cases e <;> simp only [SetElem.spell, List.length_cons, List.length_nil] <;> omega

theorem itemSize_set (p : List UInt8) :
    itemSize (91 :: p) 0 = if setLength p < p.length then setLength p + 2 else p.length + 1 := rfl

theorem itemSize_spell (h : it.Valid) : itemSize (it.spell ++ rest) 0 = it.spell.length := by
  cases it with
  | byte c =>
    have hc : c ≠ 37 ∧ c ≠ 91 := by
      constructor <;> rintro rfl <;> exact h (by decide)
    simp [itemSize, Item.spell, hc.1, hc.2]
  | any => rfl
  | esc c => rfl
  | set negated es =>
    have hl := setLength_elems h.2.1 rest
    simp only [Item.spell, List.cons_append, List.append_assoc, List.nil_append]
    cases negated with
    | false =>
      rw [if_neg (by decide), List.nil_append, itemSize_set, hl, if_pos (by simp)]
      simp
    | true =>
      rw [if_pos rfl, List.singleton_append, itemSize_set, setLength_cons (by decide) (by decide), hl,
        if_pos (by simp)]
      simp

theorem matchBracket_plain {p : List UInt8} (h : p.head? ≠ some 94) (subject : List UInt8) (si : ℕ) :
    matchBracket subject si p = oneByte subject si fun c => bracketLoop c p.length p false != false := by
  simp only [matchBracket, h, decide_false, Bool.false_eq_true, if_false]

theorem matchBracket_negated (p subject : List UInt8) (si : ℕ) :
    matchBracket subject si (94 :: p) = oneByte subject si fun c => bracketLoop c p.length p false != true := rfl

theorem matchBracket_spell {negated : Bool} {es : List SetElem} (h : (Item.set negated es).Valid)
    (subject : List UInt8) (si : ℕ) :
    matchBracket subject si ((if negated then [94] else []) ++ spellElems es ++ [93] ++ rest) =
      oneByte subject si (Item.set negated es).test := by
  obtain ⟨hne, hv, hhead⟩ := h
  have hloop : ∀ c, bracketLoop c (spellElems es ++ 93 :: rest).length (spellElems es ++ 93 :: rest) false =
      es.any (·.test c) := by
    intro c
    have hlen := length_elems_le es
    rw [bracketLoop_elems c hv rest (by simp; omega) false, Bool.false_or]
  simp only [List.append_assoc, List.singleton_append]
  cases negated with
  | false =>
    have hh : (spellElems es ++ 93 :: rest).head? ≠ some 94 := by
      have hf := hhead rfl
      cases hs : spellElems es with
      | nil => simp
      | cons b p =>
        rw [hs] at hf
        simpa using hf
    rw [if_neg (by decide), List.nil_append, matchBracket_plain hh]
    simp only [hloop]
    rfl
  | true =>
    rw [if_pos rfl, List.singleton_append, matchBracket_negated]
    simp only [hloop]
    rfl

theorem matchItem_spell (h : it.Valid) (subject : List UInt8) (si : ℕ) :
    matchItem subject si (it.spell ++ rest) 0 = oneByte subject si it.test := by
  cases it with
  | byte c =>
    have hc : c ≠ 46 ∧ c ≠ 37 ∧ c ≠ 91 ∧ c ≠ 94 ∧ c ≠ 36 := by
      refine ⟨?_, ?_, ?_, ?_, ?_⟩ <;> rintro rfl <;> exact h (by decide)
    simp [matchItem, Item.spell, hc]
    rfl
  | any => rfl
  | esc c =>
    by_cases hc : c = 37
    · subst hc
      rfl
    · simp [matchItem, Item.spell, hc]
      rfl
  | set negated es =>
    have hb := matchBracket_spell rest h subject si
    simpa [matchItem, Item.spell] using hb

/-- No item starts with a quantifier, `$` or `^`. -/
theorem head_spell (h : it.Valid) : ∃ b p, it.spell = b :: p ∧ quantOf b = none ∧ b ≠ 36 ∧ b ≠ 94 := by
  cases it with
  | byte c =>
    have hc : c ≠ 42 ∧ c ≠ 43 ∧ c ≠ 45 ∧ c ≠ 63 ∧ c ≠ 36 ∧ c ≠ 94 := by
      refine ⟨?_, ?_, ?_, ?_, ?_, ?_⟩ <;> rintro rfl <;> exact h (by decide)
    exact ⟨c, [], rfl, by simp [quantOf, hc], hc.2.2.2.2⟩
  | any => exact ⟨46, [], rfl, rfl, by decide⟩
  | esc c => exact ⟨37, [c], rfl, rfl, by decide⟩
  | set negated es => exact ⟨91, _, rfl, rfl, by decide⟩

end Front

/-! ### Repetitions -/

section Repetitions
variable {subject : List UInt8} {test : UInt8 → Bool}

/-- An item matches one byte, and there is a longer run then, or none. -/
theorem oneByte_cases (subject : List UInt8) (test : UInt8 → Bool) (si : ℕ) :
    oneByte subject si test = some 1 ∧ Repeat.run test subject si = Repeat.run test subject (si + 1) + 1 ∨
      oneByte subject si test = none ∧ Repeat.run test subject si = 0 := by
  cases h : subject[si]?.any test with
  | false => exact .inr ⟨by simp [oneByte, h], run_of_fails h⟩
  | true =>
    obtain ⟨x, hx, ht⟩ : ∃ x, subject[si]? = some x ∧ test x = true := by
      cases hs : subject[si]? with
      | none => simp [hs] at h
      | some x => exact ⟨x, rfl, by simpa [hs] using h⟩
    exact .inl ⟨by simp [oneByte, h], run_of_passes hx ht⟩

theorem greedyEnd_eq (fuel si : ℕ) (hf : subject.length - si ≤ fuel) :
    greedyEnd (fun pos => oneByte subject pos test) fuel si = si + Repeat.run test subject si := by
  induction fuel generalizing si with
  | zero =>
    have hle := @run_le _ test subject si
    rw [greedyEnd]
    omega
  | succ fuel ih =>
    rcases oneByte_cases subject test si with ⟨ho, hr⟩ | ⟨ho, hr⟩
    · have hstep : greedyEnd (fun pos => oneByte subject pos test) (fuel + 1) si =
          greedyEnd (fun pos => oneByte subject pos test) fuel (si + 1) := by rw [greedyEnd, ho]
      rw [hstep, ih (si + 1) (by omega), hr]
      omega
    · rw [greedyEnd, ho, hr]
      rfl

theorem lazyEnds_eq (fuel si : ℕ) (hf : subject.length - si ≤ fuel) :
    lazyEnds (fun pos => oneByte subject pos test) fuel si =
      (List.range (Repeat.run test subject si + 1)).map (si + ·) := by
  induction fuel generalizing si with
  | zero =>
    have hle := @run_le _ test subject si
    have hz : Repeat.run test subject si = 0 := by omega
    simp [lazyEnds, hz]
  | succ fuel ih =>
    rcases oneByte_cases subject test si with ⟨ho, hr⟩ | ⟨ho, hr⟩
    · rw [lazyEnds, ho, hr, List.range_succ_eq_map, List.map_cons, List.map_map]
      dsimp only
      rw [ih (si + 1) (by omega)]
      congr 1
      refine List.map_congr_left fun k _ => ?_
      simp only [Function.comp_apply]
      omega
    · rw [lazyEnds, ho, hr]
      rfl

/-- **The ends of an item's repetitions** are those of its counts, in their order. -/
theorem ends_eq_counts {pattern : List UInt8} {pi : ℕ}
    (h : ∀ pos, matchItem subject pos pattern pi = oneByte subject pos test) {q : Quant} (hq : q ≠ .one) (si : ℕ) :
    ends subject pattern pi q si = (q.counts (Repeat.run test subject si)).map (si + ·) := by
  have hg : greedyEnd (fun pos => matchItem subject pos pattern pi) subject.length si - si =
      Repeat.run test subject si := by
    rw [funext h, greedyEnd_eq _ _ (Nat.sub_le _ _)]
    omega
  cases q with
  | one => exact absurd rfl hq
  | opt =>
    simp only [ends, h]
    rcases oneByte_cases subject test si with ⟨ho, hr⟩ | ⟨ho, hr⟩
    · simp [ho, hr, Quant.counts]
    · simp [ho, hr, Quant.counts]
  | lazy =>
    rw [ends, funext h, lazyEnds_eq _ _ (Nat.sub_le _ _)]
    rfl
  | star =>
    rw [ends, hg]
    rfl
  | plus =>
    have hf : (List.range (Repeat.run test subject si + 1)).filter (1 ≤ ·) =
        List.range' 1 (Repeat.run test subject si) := by
      rw [List.range_succ_eq_map, List.filter_cons_of_neg (by simp), List.filter_eq_self.mpr (by simp),
        List.range'_eq_map_range]
      exact List.map_congr_left fun k _ => Nat.succ_eq_one_add k
    rw [ends, hg, List.filter_reverse, hf]
    rfl

end Repetitions

/-! ### The matcher on written patterns -/

section Written
variable {subject : List UInt8}

theorem quantOf_end (atEnd : Bool) : (spellEnd atEnd).head?.bind quantOf = none := by
  cases atEnd <;> rfl

/-- No quantifier comes first in what follows an item. -/
theorem quantOf_items {items : List (Item × Quant)} (h : ∀ p ∈ items, p.1.Valid) (atEnd : Bool) :
    (spellItems items ++ spellEnd atEnd).head?.bind quantOf = none := by
  cases items with
  | nil => exact quantOf_end atEnd
  | cons p items =>
    obtain ⟨b, bs, hb, hq, -⟩ := head_spell (h p (by simp))
    simp [spellItems, hb, hq]

/-- The quantifier behind an item is the one written there. -/
theorem quantAt_spell (it : Item) (q : Quant) {next : List UInt8} (hn : next.head?.bind quantOf = none) :
    quantAt (it.spell ++ (spellQuant q ++ next)) it.spell.length = if q = .one then none else some q := by
  rw [quantAt, List.getElem?_append_right le_rfl, Nat.sub_self, ← List.head?_eq_getElem?]
  cases q <;> first | exact hn | rfl

/-- Where the matches of a written pattern end. -/
theorem endHere_items (atEnd : Bool) : ∀ {items : List (Item × Quant)}, (∀ p ∈ items, p.1.Valid) → ∀ i,
    endHere subject i (spellItems items ++ spellEnd atEnd) =
      (firstChoice (accepts subject atEnd) (items.map fun p => Piece.step subject ⟨p.1.test, p.2⟩) i).map
        fun ns => i + ns.sum
  | [], _, i => by
    cases atEnd with
    | false => simp [spellItems, spellEnd, endHere_nil, firstChoice, accepts]
    | true =>
      have hd : endHere subject i [36] = if i = subject.length then some i else none := endHere_dollar i rfl
      have hs : spellItems [] ++ spellEnd true = [36] := rfl
      rw [hs, hd]
      by_cases hi : i = subject.length <;> simp [firstChoice, accepts, hi]
  | (it, q) :: items, h, i => by
    have hv : it.Valid := h (it, q) (by simp)
    have htail : ∀ p ∈ items, p.1.Valid := fun p hp => h p (by simp [hp])
    have hs : spellItems ((it, q) :: items) ++ spellEnd atEnd =
        it.spell ++ (spellQuant q ++ (spellItems items ++ spellEnd atEnd)) := by
      simp [spellItems]
    obtain ⟨b, bs, hb, -, hdollar, -⟩ := head_spell hv
    have hne : it.spell ++ (spellQuant q ++ (spellItems items ++ spellEnd atEnd)) ≠ [] := by simp [hb]
    have hd : (it.spell ++ (spellQuant q ++ (spellItems items ++ spellEnd atEnd)))[0]? ≠ some 36 := by simp [hb, hdollar]
    have hsize := itemSize_spell (spellQuant q ++ (spellItems items ++ spellEnd atEnd)) hv
    have hquant := quantAt_spell it q (quantOf_items htail atEnd)
    have hitem := fun pos => matchItem_spell (spellQuant q ++ (spellItems items ++ spellEnd atEnd)) hv subject pos
    have hrest : ∀ n, (endHere subject (i + n) (spellItems items ++ spellEnd atEnd)) =
        ((firstChoice (accepts subject atEnd) (items.map fun p => Piece.step subject ⟨p.1.test, p.2⟩) (i + n)).map
          (n :: ·)).map fun ns => i + ns.sum := by
      intro n
      rw [endHere_items atEnd htail (i + n), Option.map_map]
      congr 1
      funext ns
      rw [Function.comp_apply, List.sum_cons, Nat.add_assoc]
    have hcounts : (Piece.step subject ⟨it.test, q⟩).lengths i = q.counts (Repeat.run it.test subject i) := rfl
    rw [hs, List.map_cons, firstChoice, List.map_findSome?, hcounts]
    by_cases hq : q = .one
    · subst hq
      rw [endHere_single i hne hd (by rw [hsize, hquant, if_pos rfl]), hitem, hsize, List.drop_left]
      rcases oneByte_cases subject it.test i with ⟨ho, hr⟩ | ⟨ho, hr⟩
      · rw [ho, hr, Quant.counts, if_pos (Nat.le_add_left 1 _), List.findSome?_singleton]
        exact hrest 1
      · rw [ho, hr, Quant.counts, if_neg (by omega)]
        rfl
    · obtain ⟨b, hb⟩ : ∃ b, spellQuant q = [b] := by
        cases q with
        | one => exact absurd rfl hq
        | opt => exact ⟨63, rfl⟩
        | star => exact ⟨42, rfl⟩
        | plus => exact ⟨43, rfl⟩
        | lazy => exact ⟨45, rfl⟩
      have hdrop : (it.spell ++ (spellQuant q ++ (spellItems items ++ spellEnd atEnd))).drop (it.spell.length + 1) =
          spellItems items ++ spellEnd atEnd := by
        rw [← List.drop_drop, List.drop_left, hb]
        rfl
      rw [endHere_quant i hne hd (by rw [hsize, hquant, if_neg hq]), ends_eq_counts hitem hq, hsize, hdrop,
        List.findSome?_map]
      exact findSome_congr fun n _ => hrest n

end Written

/-! ### The search -/

/-- `k` is the least position the search may use from which some counts match. -/
structure Simple.LeastMatch (P : Simple) (subject : List UInt8) (start k : ℕ) : Prop where
  allowed : P.From start k
  chooses : ∃ ns, P.Chooses subject k ns
  least : ∀ k', P.From start k' → k' < k → ∀ ns, ¬ P.Chooses subject k' ns

section Find
variable (P : Simple) (subject : List UInt8) (start : ℕ)

/-- Behind the subject only empty repetitions match, and these match everywhere. -/
theorem chooses_of_behind {atEnd : Bool} {k : ℕ} (hk : subject.length < k) (i : ℕ) :
    ∀ {items : List (Item × Quant)} {ns : List ℕ},
      Admissible (accepts subject atEnd) (items.map fun p => Piece.step subject ⟨p.1.test, p.2⟩) k ns →
        Admissible (accepts subject atEnd) (items.map fun p => Piece.step subject ⟨p.1.test, p.2⟩) i ns
  | [], [], h => by
    have ha : atEnd = false := by
      have h : accepts subject atEnd k = true := h
      simpa [accepts, hk.ne'] using h
    subst ha
    rfl
  | [], _ :: _, h => h.elim
  | _ :: _, [], h => h.elim
  | p :: items, n :: ns, h => by
    obtain ⟨⟨hq, hp⟩, hrest⟩ := h
    have hn : n = 0 := by
      by_contra hne
      obtain ⟨x, hx, -⟩ := hp 0 (Nat.pos_of_ne_zero hne)
      rw [List.getElem?_eq_none (by omega)] at hx
      cases hx
    subst hn
    exact ⟨⟨hq, fun k hk => absurd hk (Nat.not_lt_zero k)⟩, chooses_of_behind hk i hrest⟩

theorem anchored_spell : anchored P.spell = P.anchored := by
  rw [anchored, Simple.spell]
  cases hP : P.anchored with
  | true => rfl
  | false =>
    rw [if_neg (by decide), List.nil_append]
    cases hi : P.items with
    | nil => cases P.atEnd <;> rfl
    | cons p items =>
      obtain ⟨b, bs, hb, -, -, hne⟩ := head_spell (P.valid p (by simp [hi]))
      simp [spellItems, hb, hne]

theorem unanchored_spell : unanchored P.spell = spellItems P.items ++ spellEnd P.atEnd := by
  rw [unanchored, anchored_spell, Simple.spell]
  cases P.anchored <;> rfl

/-- The search tries the first choice at one position after the other. -/
theorem findPattern_spell : findPattern subject P.spell start =
    leftmost (fun i => (firstChoice (accepts subject P.atEnd) (P.steps subject) i).map fun ns => (i + 1, i + ns.sum))
      P.anchored subject.length start := by
  have hhere : ∀ i, (endHere subject i (unanchored P.spell)).map (fun j => (i + 1, j)) =
      (firstChoice (accepts subject P.atEnd) (P.steps subject) i).map fun ns => (i + 1, i + ns.sum) := by
    intro i
    rw [unanchored_spell, endHere_items P.atEnd P.valid, Option.map_map]
    rfl
  by_cases hempty : P.spell = []
  · have hu : unanchored P.spell = [] := by rw [hempty]; rfl
    have hstart := hhere start
    rw [hu, endHere_nil] at hstart
    rw [findPattern, if_pos hempty, leftmost_of_some hstart.symm]
  · rw [findPattern_eq _ _ hempty, anchored_spell]
    exact leftmost_congr hhere start

variable {P subject start}

theorem here_eq_some_iff {k i j : ℕ} :
    (firstChoice (accepts subject P.atEnd) (P.steps subject) k).map (fun ns => (k + 1, k + ns.sum)) = some (i, j) ↔
      ∃ ns, i = k + 1 ∧ j = k + ns.sum ∧ P.FirstChoice subject k ns := by
  rw [Option.map_eq_some_iff]
  constructor
  · rintro ⟨ns, hns, he⟩
    obtain ⟨rfl, rfl⟩ := Prod.mk.inj he
    exact ⟨ns, rfl, rfl, firstChoice_eq_some_iff.mp hns⟩
  · rintro ⟨ns, rfl, rfl, hf⟩
    exact ⟨ns, firstChoice_eq_some_iff.mpr hf, rfl⟩

theorem here_eq_none_iff {k : ℕ} :
    (firstChoice (accepts subject P.atEnd) (P.steps subject) k).map (fun ns => (k + 1, k + ns.sum)) = none ↔
      ∀ ns, ¬ P.Chooses subject k ns := by
  rw [Option.map_eq_none_iff, firstChoice_eq_none_iff]
  rfl

/-- A position with a match that the search does not look at has one before it, the start. -/
theorem reachable_or_start {k : ℕ} {ns : List ℕ} (hk : P.From start k) (h : P.Chooses subject k ns) :
    Reachable P.anchored subject.length start k ∨ start < k ∧ P.From start start ∧ P.Chooses subject start ns := by
  obtain ⟨hle, ha⟩ := hk
  by_cases hs : k = start
  · exact .inl ⟨hle, .inl hs⟩
  · have hf : P.anchored = false := by
      by_contra ht
      exact hs (ha (by simpa using ht))
    by_cases hlen : k ≤ subject.length
    · exact .inl ⟨hle, .inr ⟨hf, hlen⟩⟩
    · exact .inr ⟨by omega, ⟨le_rfl, fun _ => rfl⟩, chooses_of_behind subject (by omega) start h⟩

theorem from_of_reachable {k : ℕ} (h : Reachable P.anchored subject.length start k) : P.From start k := by
  refine ⟨h.1, fun ha => ?_⟩
  rcases h.2 with rfl | ⟨hf, -⟩
  · rfl
  · rw [ha] at hf
    cases hf

/-- **The non-plain search of `string_find`** finds the first choice of repetition counts at the
least position from which some choice matches, and nothing exactly when no position has one. -/
theorem search_sound_and_complete (P : Simple) (subject : List UInt8) (start : ℕ) :
    (∀ i j, stringFind subject P.spell start false = .ok (some (i, j)) ↔
      ∃ k ns, i = k + 1 ∧ j = k + ns.sum ∧ P.LeastMatch subject start k ∧ P.FirstChoice subject k ns) ∧
    (stringFind subject P.spell start false = .ok none ↔
      ∀ k, P.From start k → ∀ ns, ¬ P.Chooses subject k ns) := by
  have hfind : stringFind subject P.spell start false = .ok (findPattern subject P.spell start) := rfl
  rw [hfind, findPattern_spell]
  constructor
  · intro i j
    rw [Except.ok.injEq, leftmost_eq_some_iff]
    constructor
    · rintro ⟨k, hk, hhere, hbefore⟩
      obtain ⟨ns, hi, hj, hns⟩ := here_eq_some_iff.mp hhere
      exact ⟨k, ns, hi, hj, ⟨from_of_reachable hk, ⟨ns, hns.admissible⟩,
        fun k' hk' hlt => here_eq_none_iff.mp (hbefore k' hk'.1 hlt)⟩, hns⟩
    · rintro ⟨k, ns, hi, hj, ⟨hk, -, hleast⟩, hns⟩
      have hreach : Reachable P.anchored subject.length start k := by
        rcases reachable_or_start hk hns.admissible with h | ⟨hlt, hs, hc⟩
        · exact h
        · exact absurd hc (hleast start hs hlt ns)
      refine ⟨k, hreach, here_eq_some_iff.mpr ⟨ns, hi, hj, hns⟩, fun k' hk' hlt => here_eq_none_iff.mpr ?_⟩
      refine hleast k' ⟨hk', fun ha => ?_⟩ hlt
      have := hk.2 ha
      omega
  · rw [Except.ok.injEq, leftmost_eq_none_iff]
    constructor
    · intro h k hk ns hns
      rcases reachable_or_start hk hns with hr | ⟨-, -, hs⟩
      · exact here_eq_none_iff.mp (h k hr) ns hns
      · exact here_eq_none_iff.mp (h start ⟨le_rfl, .inl rfl⟩) ns hs
    · exact fun h k hk => here_eq_none_iff.mpr (h k (from_of_reachable hk))

end Find

end Pattern
end Lua
end Rustrapper

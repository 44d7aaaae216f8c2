/-
# Searches and the ends of the subject

`string.find`, `string.match`, `string.gmatch` with its iterations and
`string.gsub`: where their slices of the subject lie. A match that starts
inside the subject lies inside it, with all its captures, those of abandoned
alternatives too. Two calls start a search that leaves the subject: a plain
`string.find` of a pattern longer than the subject, and a `string.match` or
`string.gmatch` from behind the end, with a pattern that matches nothing there
(`searches_stay_inside`).
-/
import Rustrapper.Effect.Raises
import Rustrapper.Lua.Strings
import Rustrapper.Lua.Sort

namespace Rustrapper
namespace Lua
namespace Pattern

open Search.Backtrack Search.Repeat Effect

/-! ### Positions -/

/-- A span behind `lo` that ends in the subject, or at `lo`. -/
def Within (lo len : ℕ) (s : ℕ × ℕ) : Prop := lo ≤ s.1 ∧ s.1 ≤ s.2 ∧ s.2 ≤ max lo len

section Positions
variable {subject pattern : List UInt8} {pi si n e : ℕ}

theorem Within.after {lo k len : ℕ} {s : ℕ × ℕ} (hk : lo ≤ k) (hm : k ≤ max lo len) (h : Within k len s) :
    Within lo len s := by
  obtain ⟨h1, h2, h3⟩ := h
  exact ⟨by omega, h2, by omega⟩

theorem oneByte_within {test : UInt8 → Bool} (h : oneByte subject si test = some n) :
    si + n ≤ max si subject.length := by
  cases hs : subject[si]? with
  | none => simp [oneByte, hs] at h
  | some c =>
    have hlt := (List.getElem?_eq_some_iff.mp hs).1
    rw [oneByte] at h
    split_ifs at h
    obtain rfl := Option.some.inj h
    omega

/-- An item takes a byte of the subject, or nothing. -/
theorem matchItem_within (h : matchItem subject si pattern pi = some n) : si + n ≤ max si subject.length := by
  have hzero : some 0 = some n → si + n ≤ max si subject.length := fun h => by
    obtain rfl := Option.some.inj h
    exact le_max_left _ _
  unfold matchItem at h
  split at h
  · exact hzero h
  · split_ifs at h
    · exact oneByte_within h
    · split at h
      · cases h
      · exact oneByte_within h
    · exact oneByte_within h
    · exact hzero h
    · exact oneByte_within h

section Repeated
variable {item : ℕ → Option ℕ} {len : ℕ} (hitem : ∀ {pos n}, item pos = some n → pos + n ≤ max pos len)
include hitem

theorem greedyEnd_within : ∀ fuel pos, greedyEnd item fuel pos ≤ max pos len
  | 0, pos => le_max_left _ _
  | fuel + 1, pos => by
    rw [greedyEnd]
    split
    · rename_i n h
      have h1 := hitem h
      have h2 := greedyEnd_within fuel (pos + (n + 1))
      omega
    · exact le_max_left _ _

theorem lazyEnds_within : ∀ {fuel pos e : ℕ}, e ∈ lazyEnds item fuel pos → e ≤ max pos len
  | 0, pos, e, h => (List.mem_singleton.mp h).le.trans (le_max_left _ _)
  | fuel + 1, pos, e, h => by
    rcases List.mem_cons.mp h with rfl | h
    · exact le_max_left _ _
    · split at h
      · rename_i n hn
        have h1 := hitem hn
        have h2 := lazyEnds_within h
        omega
      · simp at h

end Repeated

theorem ends_within {q : Quant} (h : e ∈ ends subject pattern pi q si) : e ≤ max si subject.length := by
  have hitem : ∀ {pos n}, matchItem subject pos pattern pi = some n → pos + n ≤ max pos subject.length :=
    fun h => matchItem_within h
  have hgreedy := greedyEnd_within hitem subject.length si
  cases q with
  | lazy => exact lazyEnds_within hitem h
  | opt =>
    rcases List.mem_append.mp h with h | h
    · obtain ⟨n, hn, rfl⟩ := Option.map_eq_some_iff.mp (Option.mem_toList.mp h)
      exact matchItem_within hn
    · exact (List.mem_singleton.mp h).le.trans (le_max_left _ _)
  | one => cases h
  | star =>
    obtain ⟨n, hn, rfl⟩ := List.mem_map.mp h
    rw [List.mem_reverse, List.mem_range] at hn
    omega
  | plus =>
    obtain ⟨n, hn, rfl⟩ := List.mem_map.mp h
    have hn := (List.mem_filter.mp hn).1
    rw [List.mem_reverse, List.mem_range] at hn
    omega

theorem moves_within (h : e ∈ moves subject pattern pi si) : e ≤ max si subject.length := by
  unfold moves at h
  split at h
  · exact ends_within h
  · obtain ⟨n, hn, rfl⟩ := Option.map_eq_some_iff.mp (Option.mem_toList.mp h)
    exact matchItem_within hn

/-- A match of `match_here` ends in the subject, or where it starts. -/
theorem endHere_within (h : endHere subject si pattern = some e) : e ≤ max si subject.length := by
  induction hn : pattern.length using Nat.strong_induction_on generalizing pattern si with
  | h n ih =>
    by_cases hp : pattern = []
    · rw [hp, endHere_nil] at h
      exact (Option.some.inj h).ge.trans (le_max_left _ _)
    by_cases hd : pattern[0]? = some 36
    · rw [endHere_dollar si hd] at h
      split_ifs at h
      exact (Option.some.inj h).ge.trans (le_max_left _ _)
    have hlen := List.length_pos_iff.mpr hp
    have hsize := itemSize_pos hlen
    cases hq : quantAt pattern (itemSize pattern 0) with
    | some q =>
      rw [endHere_quant si hp hd hq] at h
      obtain ⟨k, hk, he⟩ := List.exists_of_findSome?_eq_some h
      have h1 := ends_within hk
      have h2 := ih _ (by rw [List.length_drop]; omega) he rfl
      omega
    | none =>
      rw [endHere_single si hp hd hq] at h
      obtain ⟨k, hk, he⟩ := Option.bind_eq_some_iff.mp h
      have h1 := matchItem_within hk
      have h2 := ih _ (by rw [List.length_drop]; omega) he rfl
      omega

theorem groupAt_within {close len : ℕ} (h : groupAt subject pattern pi si = some (close, len)) :
    si + len ≤ max si subject.length := by
  obtain ⟨c, -, hl⟩ := Option.bind_eq_some_iff.mp h
  obtain ⟨n, hn, he⟩ := Option.map_eq_some_iff.mp hl
  obtain ⟨-, rfl⟩ := Prod.mk.inj he
  have hend : endHere subject si ((pattern.take c).drop (pi + 1)) = some (si + n) := by
    rw [endHere, hn]
    rfl
  exact endHere_within hend

/-- **Everything the search finds and records is inside the subject**, or where the search starts. -/
theorem trace_within : ∀ (fuel si pi : ℕ),
    (∀ e, (trace subject pattern fuel si pi).1 = some e → si ≤ e ∧ e ≤ max si subject.length) ∧
    ∀ s ∈ (trace subject pattern fuel si pi).2, Within si subject.length s
  | 0, si, pi => by simp [trace]
  | fuel + 1, si, pi => by
    have hself : ∀ e, some si = some e → si ≤ e ∧ e ≤ max si subject.length := fun e h => by
      obtain rfl := Option.some.inj h
      exact ⟨le_rfl, le_max_left _ _⟩
    rcases place_cases pattern pi with h | h | h | h
    · rw [trace_done h]
      exact ⟨hself, by simp⟩
    · rw [trace_dollar h]
      refine ⟨fun e he => ?_, by simp⟩
      split_ifs at he
      exact hself e he
    · rw [trace_group h]
      cases hg : groupAt subject pattern pi si with
      | none => simp
      | some g =>
        obtain ⟨close, len⟩ := g
        have hw := groupAt_within hg
        obtain ⟨hend, hlog⟩ := trace_within fuel (si + len) (close + 1)
        constructor
        · intro e he
          obtain ⟨h1, h2⟩ := hend e he
          omega
        · intro s hs
          rcases List.mem_cons.mp hs with rfl | hs
          · exact ⟨le_rfl, Nat.le_add_right _ _, hw⟩
          · exact (hlog s hs).after (Nat.le_add_right _ _) hw
    · rw [trace_item h]
      constructor
      · intro e he
        obtain ⟨l, k, r, hm, -, hk, -⟩ := firstLogged_some he
        have hmem : k ∈ moves subject pattern pi si := by rw [hm]; simp
        have h1 := le_of_mem_moves hmem
        have h2 := moves_within hmem
        obtain ⟨h3, h4⟩ := (trace_within fuel k (nextItem pattern pi)).1 e hk
        omega
      · intro s hs
        obtain ⟨k, hk, hs⟩ := exists_of_mem_firstLogged hs
        exact ((trace_within fuel k (nextItem pattern pi)).2 s hs).after (le_of_mem_moves hk) (moves_within hk)

/-- Where the values of a match lie. -/
theorem gmFind_within {pos : ℕ} {m : GmatchMatch} (h : gmFind subject pattern pos = some m) :
    Within pos subject.length (m.mstart, m.mend) ∧ ∀ s ∈ m.values, Within pos subject.length s := by
  obtain ⟨i, hi, hat⟩ := gmFind_eq_some_iff.mp h
  rw [gmAt_eq_trace] at hat
  obtain ⟨e, he, rfl⟩ := Option.map_eq_some_iff.mp hat
  obtain ⟨hend, hlog⟩ := @trace_within subject (unanchored pattern) ((unanchored pattern).length + 1) i 0
  have hle := hi.allowed.1
  have hmax : i ≤ max pos subject.length := by
    rcases hi.allowed.2 with h | ⟨-, h⟩ <;> omega
  have hspan : Within pos subject.length (i, e) := by
    obtain ⟨h1, h2⟩ := hend e he
    exact ⟨hle, h1, by omega⟩
  refine ⟨hspan, fun s hs => ?_⟩
  unfold GmatchMatch.values at hs
  split_ifs at hs
  · rw [List.mem_singleton.mp hs]
    exact hspan
  · exact (hlog s (List.mem_of_mem_take hs)).after hle hmax

end Positions

/-! ### What a search may stop with -/

/-- An error of the language. -/
def IsError (x : Stop) (_ : LuaState) : Prop := ∃ e, x = .lua e

/-- A run that ends with a result or an error of the language. -/
def Safe {α : Type} (res : EStateM.Result Stop LuaState α) : Prop := ∀ x t, res = .error x t → IsError x t

section Raising
variable {α : Type} {R : Rec} {s : LuaState} {subject : List UInt8} {B : Stop → LuaState → Prop}

theorem safe_ok (a : α) : Safe (.ok a s) := by
  intro x t h
  cases h

theorem safe_lua (e : LuaError) : Safe (.error (.lua e) s : EStateM.Result Stop LuaState α) := by
  intro x t h
  cases h
  exact ⟨e, rfl⟩

theorem not_safe_fault (f : Fault) : ¬ Safe (.error (.fault f) s : EStateM.Result Stop LuaState α) := by
  intro h
  obtain ⟨e, he⟩ := h _ _ rfl
  cases he

theorem Safe.of_raises {x : Exec α} (h : Raises x IsError) : Safe (x s) := h s

theorem exec_internSlice_outside {i j : ℕ} (h : ¬ (i ≤ j ∧ j ≤ subject.length)) :
    R.exec (internSlice subject (i, j)) s = .error (.fault .index) s := by
  rw [internSlice, slice, if_neg h, exec_bind]
  rfl

variable (hB : ∀ e t, B (.lua e) t)
include hB

theorem raises_err (m : String) : Raises (R.exec (err m : LuaM α)) B := Raises.throw (hB _)

theorem raises_pushVal (v : Value) : Raises (R.exec (pushVal v)) B := by
  intro s x t h
  by_cases hv : s.vsp < STACK_CAP
  · rw [exec_pushVal R s v hv] at h
    cases h
  · rw [exec_pushVal_full R s v hv] at h
    cases h
    exact hB _ _

theorem raises_intern (b : List UInt8) : Raises (R.exec (intern b)) B := by
  intro s x t h
  rw [exec_intern] at h
  cases hi : s.toHeap.intern b with
  | ok p =>
    rw [hi] at h
    cases h
  | error m =>
    rw [hi] at h
    cases h
    exact hB _ _

theorem raises_appendTo (cap : ℕ) (out b : List UInt8) : Raises (R.exec (appendTo cap out b)) B := by
  rw [appendTo, exec_ite]
  exact .cond (fun _ => raises_err hB _) fun _ => .pure _

omit hB in
/-- A slice inside the subject is taken. -/
theorem raises_slice {span : ℕ × ℕ} (h : span.1 ≤ span.2 ∧ span.2 ≤ subject.length) :
    Raises (R.exec (slice subject span.1 span.2)) B := by
  rw [slice, if_pos h]
  exact .pure _

theorem raises_internSlice {span : ℕ × ℕ} (h : span.1 ≤ span.2 ∧ span.2 ≤ subject.length) :
    Raises (R.exec (internSlice subject span)) B := by
  rw [internSlice, exec_bind]
  refine (raises_slice h).seq fun b => ?_
  rw [exec_bind]
  exact (raises_intern hB b).seq fun _ => .pure _

theorem raises_pushSlices : ∀ {spans : List (ℕ × ℕ)}, (∀ v ∈ spans, v.1 ≤ v.2 ∧ v.2 ≤ subject.length) →
    Raises (R.exec (pushSlices subject spans)) B
  | [], _ => .pure _
  | v :: spans, h => by
    rw [pushSlices, exec_bind]
    refine (raises_internSlice hB (h v (by simp))).seq fun v => ?_
    rw [exec_bind]
    refine (raises_pushVal hB v).seq fun _ => ?_
    exact raises_pushSlices fun w hw => h w (by simp [hw])

end Raising

/-! ### Single searches -/

section Searches
variable {R : Rec} {s : LuaState} {subject pattern : List UInt8} {pos : ℕ} {m : GmatchMatch}

theorem values_ne_nil (m : GmatchMatch) : m.values ≠ [] := by
  unfold GmatchMatch.values
  split_ifs with h
  · simp
  · exact h

/-- The values of a match that starts inside the subject can be sliced. -/
theorem values_inside (hpos : pos ≤ subject.length) (h : gmFind subject pattern pos = some m) :
    ∀ v ∈ m.values, v.1 ≤ v.2 ∧ v.2 ≤ subject.length := by
  intro v hv
  obtain ⟨-, h2, h3⟩ := (gmFind_within h).2 v hv
  exact ⟨h2, by omega⟩

/-- Those of one behind its end cannot. -/
theorem values_outside (hpos : subject.length < pos) (h : gmFind subject pattern pos = some m) :
    ∃ i j rest, m.values = (i, j) :: rest ∧ ¬ (i ≤ j ∧ j ≤ subject.length) := by
  cases hv : m.values with
  | nil => exact absurd hv (values_ne_nil m)
  | cons v rest =>
    obtain ⟨h1, h2, -⟩ := (gmFind_within h).2 v (by rw [hv]; simp)
    exact ⟨v.1, v.2, rest, rfl, by omega⟩

theorem gmFind_outside_iff (hpos : subject.length < pos) :
    (∃ m, gmFind subject pattern pos = some m) ↔ Matches subject (unanchored pattern) 0 pos := by
  constructor
  · rintro ⟨m, hm⟩
    obtain ⟨i, hi, -⟩ := gmFind_eq_some_iff.mp hm
    obtain rfl : i = pos := by
      rcases hi.allowed.2 with h | ⟨-, h⟩
      · exact h
      · have := hi.allowed.1
        omega
    exact hi.matches_
  · intro h
    cases hat : gmAt subject (unanchored pattern) pos with
    | none => exact absurd h (gmAt_eq_none_iff.mp hat)
    | some m =>
      exact ⟨m, gmFind_eq_some_iff.mpr ⟨pos, ⟨⟨le_rfl, .inl rfl⟩, h, fun k _ _ => by omega⟩, hat⟩⟩

theorem stringFind_error_iff {plain : Bool} : (∃ f, stringFind subject pattern pos plain = .error f) ↔
    plain = true ∧ pos ≤ subject.length ∧ subject.length < pattern.length := by
  unfold stringFind findPlain
  split_ifs with hp he hs hl
  · simp [hp, he]
  · exact iff_of_false (by simp) (by omega)
  · exact iff_of_true ⟨_, rfl⟩ ⟨hp, by omega, hl⟩
  · exact iff_of_false (by simp) (by omega)
  · exact iff_of_false (by simp) (fun h => hp h.1)

theorem safe_findFrom (plain : Bool) : Safe (R.exec (findFrom subject pattern pos plain) s) ↔
    ¬ (plain = true ∧ pos ≤ subject.length ∧ subject.length < pattern.length) := by
  rw [← stringFind_error_iff, findFrom]
  by_cases hpos : pos > subject.length
  · rw [if_pos hpos]
    refine iff_of_true (safe_ok _) ?_
    rw [stringFind_error_iff]
    omega
  rw [if_neg hpos]
  cases hf : stringFind subject pattern pos plain with
  | error f => exact iff_of_false (not_safe_fault f) (by simp)
  | ok r =>
    refine iff_of_true ?_ (by simp)
    cases r with
    | none => exact safe_ok _
    | some ab =>
      obtain ⟨a, b⟩ := ab
      have hB : ∀ e t, IsError (.lua e) t := fun e _ => ⟨e, rfl⟩
      refine Safe.of_raises ?_
      dsimp only
      rw [exec_bind]
      refine (raises_pushVal hB _).seq fun _ => ?_
      rw [exec_bind]
      exact (raises_pushVal hB _).seq fun _ => .pure _

/-- The values of `string.match`, from spans inside the subject. -/
theorem safe_matchFromPos : Safe (R.exec (matchFromPos subject pattern pos) s) ↔
    ¬ (subject.length < pos ∧ Matches subject (unanchored pattern) 0 pos) := by
  have hB : ∀ e t, IsError (.lua e) t := fun e _ => ⟨e, rfl⟩
  rw [matchFromPos]
  cases hm : gmFind subject pattern pos with
  | none =>
    refine iff_of_true (safe_ok _) fun h => ?_
    obtain ⟨m, hm'⟩ := (gmFind_outside_iff h.1).mpr h.2
    simp [hm] at hm'
  | some m =>
    dsimp only
    by_cases hpos : subject.length < pos
    · obtain ⟨i, j, rest, hv, hij⟩ := values_outside hpos hm
      refine iff_of_false ?_ (fun h => h ⟨hpos, (gmFind_outside_iff hpos).mp ⟨m, hm⟩⟩)
      have hout := @exec_internSlice_outside R s subject i j hij
      rw [hv]
      split
      · rename_i a ha
        obtain ⟨rfl, -⟩ := List.cons.inj ha
        rw [exec_bind, bind_error hout]
        exact not_safe_fault _
      · rename_i a b ha
        obtain ⟨rfl, -⟩ := List.cons.inj ha
        rw [exec_bind, bind_error hout]
        exact not_safe_fault _
      · rw [pushSlices, exec_bind, exec_bind, bind_error (bind_error hout _)]
        exact not_safe_fault _
    · refine iff_of_true (Safe.of_raises ?_) (fun h => hpos h.1)
      have hin := values_inside (not_lt.mp hpos) hm
      split
      · rename_i a ha
        rw [exec_bind]
        exact (raises_internSlice hB (hin a (by rw [ha]; simp))).seq fun _ => .pure _
      · rename_i a b ha
        rw [exec_bind]
        refine (raises_internSlice hB (hin a (by rw [ha]; simp))).seq fun _ => ?_
        rw [exec_bind]
        exact (raises_internSlice hB (hin b (by rw [ha]; simp))).seq fun _ => .pure _
      · rw [exec_bind]
        exact (raises_pushSlices hB hin).seq fun _ => .pure _

end Searches

/-! ### The iterations of `string.gmatch` -/

section Iterations
variable {R : Rec} {id : ℕ} {r p : StrRef} {s t : LuaState}

/-- What can become of a state while an iterator is used: its steps, and anything that leaves it and
its strings alone. -/
inductive Iterates (R : Rec) (id : ℕ) (r p : StrRef) (s : LuaState) : LuaState → Prop
  | start : Iterates R id r p s s
  | advance {t : LuaState} (h : Iterates R id r p s t) : Iterates R id r p s (endState (R.exec (gmatchAdvance id) t))
  | other {t u : LuaState} (h : Iterates R id r p s t) (hg : u.gmatches[id]? = t.gmatches[id]?)
      (hr : u.strBytes r = t.strBytes r) (hp : u.strBytes p = t.strBytes p) : Iterates R id r p s u

/-- The buffers hold the strings. -/
def FitBuffers (subject pattern : List UInt8) : Prop := subject.length ≤ STR_CAP ∧ pattern.length ≤ STR_CAP

theorem exec_setGmatch (st : GmatchState) :
    R.exec (setGmatch id st) t = .ok ⟨⟩ { t with gmatches := t.gmatches.set id st } := by
  rw [setGmatch, exec_modify, bind_apply]
  rfl

/-- The step of an iterator that is not done. -/
theorem exec_gmatchAdvance {st : GmatchState} (hst : t.gmatches[id]? = some st) (hd : st.done = false)
    (hfit : FitBuffers (t.strBytes st.subject) (t.strBytes st.pattern)) :
    R.exec (gmatchAdvance id) t =
      (gmFind (t.strBytes st.subject) (t.strBytes st.pattern) st.pos).elim
        (.ok 0 { t with gmatches := t.gmatches.set id { st with done := true } })
        fun m => R.exec (do pushSlices (t.strBytes st.subject) m.values; pure m.values.length)
          { t with gmatches := t.gmatches.set id (behind st m (t.strBytes st.subject).length) } := by
  have hlong : ¬ ((t.strBytes st.subject).length > STR_CAP ∨ (t.strBytes st.pattern).length > STR_CAP) := by
    rintro (h | h)
    · exact absurd hfit.1 (by omega)
    · exact absurd hfit.2 (by omega)
  rw [gmatchAdvance, exec_bind, exec_get, bind_ok (getMachine_apply t), hst]
  simp only [orFault, pure_bind, hd, Bool.false_eq_true, if_false, hlong]
  cases gmFind (t.strBytes st.subject) (t.strBytes st.pattern) st.pos with
  | none =>
    rw [exec_bind, bind_ok (exec_setGmatch _)]
    rfl
  | some m =>
    dsimp only
    rw [exec_bind, bind_ok (exec_setGmatch _)]
    rfl

theorem exec_gmatchAdvance_done {st : GmatchState} (hst : t.gmatches[id]? = some st) (hd : st.done = true) :
    R.exec (gmatchAdvance id) t = .ok 0 t := by
  rw [gmatchAdvance, exec_bind, exec_get, bind_ok (getMachine_apply t), hst]
  simp only [orFault, pure_bind, hd, if_true]
  rfl

theorem exec_gmatchAdvance_long {st : GmatchState} (hst : t.gmatches[id]? = some st) (hd : st.done = false)
    (hfit : ¬ FitBuffers (t.strBytes st.subject) (t.strBytes st.pattern)) :
    R.exec (gmatchAdvance id) t = .ok 0 { t with gmatches := t.gmatches.set id { st with done := true } } := by
  have hlong : (t.strBytes st.subject).length > STR_CAP ∨ (t.strBytes st.pattern).length > STR_CAP := by
    by_contra h
    exact hfit ⟨by omega, by omega⟩
  rw [gmatchAdvance, exec_bind, exec_get, bind_ok (getMachine_apply t), hst]
  simp only [orFault, pure_bind, hd, Bool.false_eq_true, if_false, hlong, if_true]
  rw [exec_bind, bind_ok (exec_setGmatch _)]
  rfl

/-- A string keeps its bytes when another is interned; a reference to nothing may come to name it. -/
theorem strBytes_intern_le {h h' : Heap} {b : List UInt8} {ref : StrRef} (hi : h.intern b = .ok (ref, h')) (r : StrRef) :
    (h.strBytes r).length ≤ (h'.strBytes r).length ∧ h'.gmatches = h.gmatches := by
  unfold Heap.intern at hi
  cases hf : h.strregs.find? fun reg => reg.2 = b with
  | some reg =>
    rw [hf] at hi
    cases hi
    exact ⟨le_rfl, rfl⟩
  | none =>
    rw [hf] at hi
    dsimp only at hi
    split_ifs at hi
    cases hi
    refine ⟨?_, rfl⟩
    unfold Heap.strBytes
    rw [List.find?_append]
    cases h.strregs.find? fun reg => strref reg.1 reg.2.length = r with
    | some reg => exact le_rfl
    | none => exact Nat.zero_le _

/-- What is pushed keeps what other values on the stack and strings of the kind `P` keep. -/
theorem stays_pushSlices {J : LuaState → Prop} {P : List UInt8 → Prop} {subject : List UInt8}
    (hJ : ∀ s vs d, J s → J { s with vstack := vs, mmDepth := d })
    (hi : ∀ s b ref h, P b → J s → s.toHeap.intern b = .ok (ref, h) → J { s with toHeap := h }) :
    ∀ spans : List (ℕ × ℕ), (∀ v ∈ spans, P ((subject.take v.2).drop v.1)) → Stays J (R.exec (pushSlices subject spans))
  | [], _ => .pure _
  | v :: spans, hP => by
    rw [pushSlices, exec_bind, internSlice, exec_bind]
    refine Stays.bind ?_ fun v => ?_
    · intro s hs
      by_cases hv : v.1 ≤ v.2 ∧ v.2 ≤ subject.length
      · rw [slice, if_pos hv, exec_pure, pure_bind, exec_bind]
        refine Stays.bind (fun s hs => ?_) (fun _ => .pure _) s hs
        rw [exec_intern]
        cases hb : s.toHeap.intern ((subject.take v.2).drop v.1) with
        | ok p => exact hi s _ p.1 p.2 (hP v (by simp)) hs hb
        | error m => exact hs
      · rw [slice, if_neg hv]
        exact hs
    · rw [exec_bind]
      exact Stays.bind (stays_pushVal hJ v) fun _ => stays_pushSlices hJ hi spans fun w hw => hP w (by simp [hw])

/-- The next step of the iterator finds nothing behind the end of its subject. -/
def Clear (t : LuaState) (st : GmatchState) : Prop :=
  ¬ (st.done = false ∧ FitBuffers (t.strBytes st.subject) (t.strBytes st.pattern) ∧
    (t.strBytes st.subject).length < st.pos ∧ Matches (t.strBytes st.subject) (unanchored (t.strBytes st.pattern)) 0 st.pos)

/-- An iterator moves on inside its subject. -/
theorem behind_inside {subject pattern : List UInt8} {st : GmatchState} {m : GmatchMatch}
    (hpos : st.pos ≤ subject.length) (hm : gmFind subject pattern st.pos = some m) :
    (behind st m subject.length).subject = st.subject ∧ (behind st m subject.length).pattern = st.pattern ∧
      ((behind st m subject.length).done = true ∨ (behind st m subject.length).pos ≤ subject.length) := by
  obtain ⟨h1, h2, h3⟩ := (gmFind_within hm).1
  dsimp only at h1 h2 h3
  unfold behind
  split_ifs with hlt hend
  · exact ⟨rfl, rfl, .inr (by dsimp only; omega)⟩
  · exact ⟨rfl, rfl, .inl rfl⟩
  · exact ⟨rfl, rfl, .inr (by dsimp only; omega)⟩

/-- **One step of an iterator** is safe exactly when it finds nothing behind the end; then the next is. -/
theorem advance_spec {st : GmatchState} (hst : t.gmatches[id]? = some st) :
    (Safe (R.exec (gmatchAdvance id) t) ↔ Clear t st) ∧
      (Clear t st → ∃ st', (endState (R.exec (gmatchAdvance id) t)).gmatches[id]? = some st' ∧
        st'.subject = st.subject ∧ st'.pattern = st.pattern ∧ Clear (endState (R.exec (gmatchAdvance id) t)) st') := by
  have hid := (List.getElem?_eq_some_iff.mp hst).1
  have hset : ∀ st', (t.gmatches.set id st')[id]? = some st' := fun st' => List.getElem?_set_self hid
  cases hd : st.done with
  | true =>
    have hclear : Clear t st := fun h => by simp [hd] at h
    rw [exec_gmatchAdvance_done hst hd]
    exact ⟨iff_of_true (safe_ok _) hclear, fun _ => ⟨st, hst, rfl, rfl, hclear⟩⟩
  | false =>
    by_cases hfit : FitBuffers (t.strBytes st.subject) (t.strBytes st.pattern)
    swap
    · rw [exec_gmatchAdvance_long hst hd hfit]
      refine ⟨iff_of_true (safe_ok _) (fun h => hfit h.2.1), fun _ => ⟨{ st with done := true }, hset _, rfl, rfl, ?_⟩⟩
      intro h
      cases h.1
    rw [exec_gmatchAdvance hst hd hfit]
    cases hm : gmFind (t.strBytes st.subject) (t.strBytes st.pattern) st.pos with
    | none =>
      refine ⟨iff_of_true (safe_ok _) fun h => ?_, fun _ => ⟨{ st with done := true }, hset _, rfl, rfl, ?_⟩⟩
      · obtain ⟨m, hm'⟩ := (gmFind_outside_iff h.2.2.1).mpr h.2.2.2
        simp [hm] at hm'
      · intro h
        cases h.1
    | some m =>
      rw [Option.elim_some, exec_bind]
      by_cases hpos : (t.strBytes st.subject).length < st.pos
      · have hno : ¬ Clear t st := fun h => h ⟨hd, hfit, hpos, (gmFind_outside_iff hpos).mp ⟨m, hm⟩⟩
        refine ⟨iff_of_false ?_ hno, fun h => absurd h hno⟩
        obtain ⟨i, j, rest, hv, hij⟩ := values_outside hpos hm
        rw [hv, pushSlices, exec_bind, bind_error (bind_error (exec_internSlice_outside hij) _)]
        exact not_safe_fault _
      · have hle := not_lt.mp hpos
        have hclear : Clear t st := fun h => hpos h.2.2.1
        have hin := values_inside hle hm
        refine ⟨iff_of_true (Safe.of_raises ?_) hclear, fun _ => ?_⟩
        · exact (raises_pushSlices (fun e _ => ⟨e, rfl⟩) hin).seq fun _ => .pure _
        · obtain ⟨h1, h2, h3⟩ := behind_inside hle hm
          -- what is pushed leaves the iterator alone, and its subject does not get shorter
          have hstay := Stays.bind (f := fun _ => pure m.values.length) (@stays_pushSlices R
            (fun u => u.gmatches[id]? = some (behind st m (t.strBytes st.subject).length) ∧
              (t.strBytes st.subject).length ≤ (u.strBytes st.subject).length) (fun _ => True) (t.strBytes st.subject)
            (fun _ _ _ h => h)
            (fun u b ref h _ hu hb => ⟨(strBytes_intern_le hb st.subject).2 ▸ hu.1,
              hu.2.trans (strBytes_intern_le hb st.subject).1⟩) m.values fun _ _ => trivial) (fun _ => .pure _)
            { t with gmatches := t.gmatches.set id (behind st m (t.strBytes st.subject).length) }
            ⟨hset (behind st m (t.strBytes st.subject).length), le_rfl⟩
          refine ⟨_, hstay.1, h1, h2, fun h => ?_⟩
          rcases h3 with h3 | h3
          · simp [h3] at h
          · have hlt := h.2.2.1
            rw [h1] at hlt
            exact absurd (hlt.trans_le h3) (not_lt.mpr hstay.2)

/-- **All iterations are safe** exactly when the first is. -/
theorem iterations_safe {st : GmatchState} (hst : s.gmatches[id]? = some st) :
    (∀ t, Iterates R id st.subject st.pattern s t → Safe (R.exec (gmatchAdvance id) t)) ↔ Clear s st := by
  constructor
  · intro h
    exact (advance_spec hst).1.mp (h s .start)
  · intro h t ht
    have hinv : ∃ st', t.gmatches[id]? = some st' ∧ st'.subject = st.subject ∧ st'.pattern = st.pattern ∧ Clear t st' := by
      induction ht with
      | start => exact ⟨st, hst, rfl, rfl, h⟩
      | advance _ ih =>
        obtain ⟨st', hst', h1, h2, hc⟩ := ih
        obtain ⟨st'', hst'', h1', h2', hc'⟩ := (advance_spec hst').2 hc
        exact ⟨st'', hst'', h1'.trans h1, h2'.trans h2, hc'⟩
      | other _ hg hr hp ih =>
        obtain ⟨st', hst', h1, h2, hc⟩ := ih
        refine ⟨st', hg.trans hst', h1, h2, ?_⟩
        rw [Clear, h1, h2] at hc ⊢
        rwa [hr, hp]
    obtain ⟨st', hst', -, -, hc⟩ := hinv
    exact (advance_spec hst').1.mpr hc

end Iterations

/-! ### `string.gsub` -/

/-- What `string.gsub` may stop with: an error of the language, what a call of its replacement stops with,
or a replacement table that does not exist. -/
def OwnStop (R : Rec) (repl : Value) (x : Stop) (t : LuaState) : Prop :=
  IsError x t ∨ (∃ argc u, R.exec (callValue repl argc) u = .error x t) ∨ ∃ tid, repl = .table tid ∧ t.tbls[tid]? = none

section Substitution
variable {R : Rec} {L : Lib} {repl : Value} {subject pattern : List UInt8} {pos : ℕ} {m : GmatchMatch}

theorem ownStop_lua (e : LuaError) (t : LuaState) : OwnStop R repl (.lua e) t := .inl ⟨e, rfl⟩

/-- A match whose spans can be sliced. -/
structure Inside (subject : List UInt8) (m : GmatchMatch) : Prop where
  span : m.mstart ≤ m.mend ∧ m.mend ≤ subject.length
  caps : ∀ v ∈ m.caps, v.1 ≤ v.2 ∧ v.2 ≤ subject.length

theorem inside_of_gmFind (hpos : pos ≤ subject.length) (h : gmFind subject pattern pos = some m) : Inside subject m := by
  obtain ⟨⟨-, h2, h3⟩, -⟩ := gmFind_within h
  dsimp only at h2 h3
  refine ⟨⟨h2, by omega⟩, fun v hv => values_inside hpos h v ?_⟩
  rwa [GmatchMatch.values, if_neg (List.ne_nil_of_mem hv)]

theorem Inside.values (h : Inside subject m) : ∀ v ∈ m.values, v.1 ≤ v.2 ∧ v.2 ≤ subject.length := by
  unfold GmatchMatch.values
  split_ifs
  · intro v hv
    rw [List.mem_singleton.mp hv]
    exact h.span
  · exact h.caps

theorem Inside.capRef (h : Inside subject m) {d : UInt8} {v : ℕ × ℕ} (hv : capRef m d = some v) :
    v.1 ≤ v.2 ∧ v.2 ≤ subject.length := by
  rw [Pattern.capRef] at hv
  split_ifs at hv
  · rw [← Option.some.inj hv]
    exact h.span
  · exact h.caps v (List.mem_of_getElem? hv)

section Errors
variable {B : Stop → LuaState → Prop} (hB : ∀ e t, B (.lua e) t)
include hB

theorem raises_expandRepl (h : Inside subject m) : ∀ rb out : List UInt8,
    Raises (R.exec (expandRepl subject m rb out)) B
  | [], out => .pure _
  | [b], out => by
    rw [expandRepl, exec_ite]
    exact .cond (fun _ => raises_err hB _) fun _ => raises_appendTo hB _ _ _
  | b :: d :: rest, out => by
    rw [expandRepl, exec_ite]
    refine .cond (fun _ => ?_) fun _ => ?_
    · rw [exec_ite]
      refine .cond (fun _ => ?_) fun _ => ?_
      · rw [exec_bind]
        exact (raises_appendTo hB _ _ _).seq fun out => raises_expandRepl h rest out
      · rw [exec_ite]
        refine .cond (fun _ => raises_err hB _) fun _ => ?_
        cases hc : Pattern.capRef m d with
        | none => exact raises_err hB _
        | some span =>
          dsimp only
          rw [exec_bind]
          refine (raises_slice (h.capRef hc)).seq fun src => ?_
          rw [exec_bind]
          exact (raises_appendTo hB _ _ _).seq fun out => raises_expandRepl h rest out
    · rw [exec_bind]
      exact (raises_appendTo hB _ _ _).seq fun out => raises_expandRepl h (d :: rest) out

theorem raises_text {v : Value} (hv : isText v = true) : Raises (R.exec (valueToString L v)) B := by
  cases v with
  | str r => exact .pure _
  | num n => exact raises_intern hB _
  | float f => exact raises_intern hB _
  | _ => cases hv

theorem raises_replBytes (v : Value) : Raises (R.exec (replBytes L v)) B := by
  have htext : isText v = true → Raises (R.exec (do
      let r ← valueToString L v
      let b ← appendTo REPL_CAP [] ((← get).strBytes r)
      pure (some b))) B := fun hv => by
    rw [exec_bind]
    refine (raises_text hB hv).seq fun r => ?_
    rw [exec_bind, exec_get]
    refine Raises.seq (fun _ _ _ h => by cases h) fun s => ?_
    rw [exec_bind]
    exact (raises_appendTo hB _ _ _).seq fun _ => .pure _
  cases v with
  | nil => exact .pure _
  | bool b =>
    cases b with
    | false => exact .pure _
    | true => exact raises_err hB _
  | str r => exact htext rfl
  | num n => exact htext rfl
  | float f => exact htext rfl
  | _ => exact raises_err hB _

end Errors

/-- The error that goes through `dispatchMM` is one of the language, or the computation's own. -/
theorem raises_dispatchMM {α : Type} {x : LuaM α} {B : Stop → LuaState → Prop} (hB : ∀ e t, B (.lua e) t)
    (hx : Raises (R.exec x) B) : Raises (R.exec (dispatchMM x)) B := by
  rw [dispatchMM, exec_bind]
  refine Raises.seq ?_ fun _ => ?_
  · intro s e t h
    rw [enterMM, exec_bind, exec_get, bind_ok (getMachine_apply s), exec_ite] at h
    split_ifs at h
    · cases h
      exact hB _ _
    · cases h
  · rw [exec_bind, exec_attempt]
    refine Raises.seq ?_ fun r => ?_
    · intro s e t h
      unfold catchLua at h
      cases hr : R.exec x s with
      | ok a u =>
        rw [hr] at h
        cases h
      | error e' u =>
        have he := hx s e' u hr
        rw [hr] at h
        cases e' <;> cases h <;> exact he
    · rw [exec_bind]
      refine Raises.seq (fun s e t h => ?_) fun _ => ?_
      · rw [leaveMM, exec_modify, bind_apply] at h
        cases h
      · cases r with
        | ok a => exact .pure _
        | error e => exact Raises.throw (hB e)

/-- What a match inside the subject is replaced by, or else the replacement's own error. -/
theorem raises_replacement (h : Inside subject m) : Raises (R.exec (replacement L subject repl m)) (OwnStop R repl) := by
  have hB : ∀ e t, OwnStop R repl (.lua e) t := ownStop_lua
  have hcall : Raises (R.exec (callRepl L subject repl m)) (OwnStop R repl) := by
    rw [callRepl, exec_bind, exec_get]
    refine Raises.seq (fun _ _ _ h => by cases h) fun s => ?_
    rw [exec_bind]
    refine (raises_pushSlices hB h.values).seq fun _ => ?_
    rw [exec_bind]
    refine (raises_dispatchMM hB fun u x t hx => .inr (.inl ⟨_, u, hx⟩)).seq fun r => ?_
    cases resultCount r with
    | none => exact raises_err hB _
    | some n =>
      cases n with
      | zero => exact .pure _
      | succ n =>
        dsimp only
        rw [exec_bind, exec_get]
        refine Raises.seq (fun _ _ _ h => by cases h) fun s' => ?_
        rw [exec_bind]
        refine Raises.seq (fun u x t hx => ?_) fun _ => raises_replBytes hB _
        rw [exec_setVsp] at hx
        cases hx
  cases repl with
  | str r =>
    rw [replacement, exec_bind, exec_get]
    refine Raises.seq (fun _ _ _ h => by cases h) fun s => ?_
    rw [exec_bind]
    exact (raises_expandRepl hB h _ _).seq fun _ => .pure _
  | table tid =>
    rw [replacement, exec_bind]
    have hhead : (m.values.headD (0, 0)).1 ≤ (m.values.headD (0, 0)).2 ∧ (m.values.headD (0, 0)).2 ≤ subject.length := by
      cases hv : m.values with
      | nil => exact absurd hv (values_ne_nil m)
      | cons v rest => exact h.values v (by rw [hv]; simp)
    refine (raises_slice hhead).seq fun b => ?_
    rw [exec_bind]
    refine (raises_intern hB b).seq fun key => ?_
    rw [exec_bind]
    refine Raises.seq (fun u x t hx => ?_) fun v => raises_replBytes hB v
    cases ht : u.tbls[tid]? with
    | some rec =>
      rw [rawGet, exec_bind, bind_ok (exec_tableRec R ht)] at hx
      cases hx
    | none =>
      have hno : R.exec (tableRec tid) u = .error (.fault .index) u := by
        rw [tableRec, exec_bind, exec_get, bind_ok (getMachine_apply u), ht]
        rfl
      rw [rawGet, exec_bind, bind_error hno] at hx
      cases hx
      exact .inr (.inr ⟨tid, rfl, ht⟩)
  | func fi => exact hcall
  | closure ci => exact hcall
  | num n => exact raises_replBytes hB (.num n)
  | float f => exact raises_replBytes hB (.float f)
  | _ => exact raises_err hB _

variable {ask : GmatchMatch → LuaM (Option (List UInt8))} {B : Stop → LuaState → Prop} (hB : ∀ e t, B (.lua e) t)
  (hask : ∀ m, Inside subject m → Raises (R.exec (ask m)) B)
include hB hask

theorem raises_gsubStep {g : Gsub} (hpos : g.pos ≤ subject.length) (hm : gmFind subject pattern g.pos = some m) :
    Raises (R.exec (gsubStep ask subject g m)) B := by
  have hin := inside_of_gmFind hpos hm
  have hle : g.pos ≤ m.mstart := (gmFind_within hm).1.1
  have hend := hin.span
  rw [gsubStep, exec_bind]
  refine (@raises_slice R subject B (g.pos, m.mstart) ⟨hle, by dsimp only; omega⟩).seq fun before => ?_
  rw [exec_bind]
  refine (raises_appendTo hB _ _ _).seq fun out => ?_
  rw [exec_bind]
  refine (hask m hin).seq fun answer => ?_
  rw [exec_bind]
  refine Raises.seq ?_ fun out => ?_
  · cases answer with
    | some b => exact raises_appendTo hB _ _ _
    | none =>
      rw [putAnswer, exec_bind]
      exact (@raises_slice R subject B (m.mstart, m.mend) hend).seq fun b => raises_appendTo hB _ _ _
  · rw [exec_ite]
    refine .cond (fun _ => .pure _) fun _ => ?_
    rw [exec_bind]
    exact (raises_appendTo hB _ _ _).seq fun _ => .pure _

theorem raises_gsubLoop (maxN : ℕ) : ∀ (fuel : ℕ) (g : Gsub),
    Raises (R.exec (gsubLoop ask subject pattern maxN fuel g)) B
  | 0, g => .pure _
  | fuel + 1, g => by
    rw [gsubLoop, exec_ite]
    refine .cond (fun hg => ?_) fun _ => .pure _
    cases hm : gmFind subject pattern g.pos with
    | none => exact .pure _
    | some m =>
      dsimp only
      rw [exec_bind]
      exact (raises_gsubStep hB hask hg.2 hm).seq fun g => raises_gsubLoop maxN fuel g

/-- A substitution stops with an error of the language, or as its replacement does. -/
theorem raises_gsubAll (maxN : ℕ) : Raises (R.exec (gsubAll ask subject pattern maxN)) B := by
  rw [gsubAll, exec_bind]
  refine (raises_gsubLoop hB hask maxN _ _).seq fun g => ?_
  rw [exec_bind]
  refine (raises_appendTo hB _ _ _).seq fun out => ?_
  rw [exec_bind]
  refine (raises_intern hB _).seq fun r => ?_
  rw [exec_bind]
  refine (raises_pushVal hB _).seq fun _ => ?_
  rw [exec_bind]
  exact (raises_pushVal hB _).seq fun _ => .pure _

end Substitution

/-! ### Calls -/

/-- The first argument left as a start position. -/
def initOf : List Value → Option Int64
  | [] => some 1
  | v :: _ => wholeOf v

/-- A plain `string.find` for a pattern longer than the subject, from inside it. -/
def FindOverruns (bits : ℕ) (subject pattern : List UInt8) (more : List Value) : Prop :=
  more.length ≤ 2 ∧ ∃ init, initOf more = some init ∧ plainArg more = true ∧
    startOf bits init subject.length ≤ subject.length ∧ subject.length < pattern.length

/-- A search from behind the end of the subject, with a pattern that matches there. -/
def MatchOverruns (bits : ℕ) (subject pattern : List UInt8) (more : List Value) : Prop :=
  more.length ≤ 1 ∧ ∃ init, initOf more = some init ∧ validGmatchPattern pattern = true ∧ FitBuffers subject pattern ∧
    subject.length < startOf bits init subject.length ∧
    Matches subject (unanchored pattern) 0 (startOf bits init subject.length)

section Calls
variable {R : Rec} {L : Lib} {bits : ℕ} {s : LuaState} {r p : StrRef} {more : List Value}

theorem exec_initArg {init : Int64} (h : initOf more = some init) : R.exec (initArg more) s = .ok init s := by
  cases more with
  | nil =>
    cases h
    rfl
  | cons v more =>
    have hv : wholeOf v = some init := h
    rw [initArg, integerIndex, hv]
    rfl

theorem exec_initArg_none (h : initOf more = none) :
    R.exec (initArg more) s = .error (.lua (.msg "string index must be an integer")) s := by
  cases more with
  | nil => cases h
  | cons v more =>
    have hv : wholeOf v = none := h
    rw [initArg, integerIndex, hv]
    rfl

theorem safe_find : Safe (R.exec (stringFindF bits (.str r :: .str p :: more)) s) ↔
    ¬ FindOverruns bits (s.strBytes r) (s.strBytes p) more := by
  rw [stringFindF, exec_ite]
  by_cases hlen : more.length > 2
  · rw [if_pos hlen]
    exact iff_of_true (safe_lua _) fun h => by
      have := h.1
      omega
  rw [if_neg hlen, exec_bind, exec_get, bind_ok (getMachine_apply s), exec_bind]
  cases hi : initOf more with
  | none =>
    rw [bind_error (exec_initArg_none hi)]
    refine iff_of_true (safe_lua _) ?_
    rintro ⟨-, init, hinit, -⟩
    simp [hi] at hinit
  | some init =>
    rw [bind_ok (exec_initArg hi), safe_findFrom, not_iff_not]
    constructor
    · rintro ⟨h1, h2, h3⟩
      exact ⟨by omega, init, hi, h1, h2, h3⟩
    · rintro ⟨-, init', hi', h1, h2, h3⟩
      obtain rfl := Option.some.inj (hi.symm.trans hi')
      exact ⟨h1, h2, h3⟩

theorem safe_match : Safe (R.exec (stringMatchF bits (.str r :: .str p :: more)) s) ↔
    ¬ MatchOverruns bits (s.strBytes r) (s.strBytes p) more := by
  rw [stringMatchF, exec_ite]
  by_cases hlen : more.length > 1
  · rw [if_pos hlen]
    exact iff_of_true (safe_lua _) fun h => by
      have := h.1
      omega
  rw [if_neg hlen, exec_bind, exec_get, bind_ok (getMachine_apply s), exec_bind]
  cases hi : initOf more with
  | none =>
    rw [bind_error (exec_initArg_none hi)]
    refine iff_of_true (safe_lua _) ?_
    rintro ⟨-, init, hinit, -⟩
    simp [hi] at hinit
  | some init =>
    rw [bind_ok (exec_initArg hi), exec_ite]
    cases hv : validGmatchPattern (s.strBytes p) with
    | false =>
      refine iff_of_true (safe_lua _) ?_
      rintro ⟨-, _, -, hvalid, -⟩
      simp [hv] at hvalid
    | true =>
      rw [if_neg (by simp), exec_ite]
      by_cases hfit : FitBuffers (s.strBytes r) (s.strBytes p)
      · rw [if_neg (by have := hfit.1; have := hfit.2; omega), safe_matchFromPos, not_iff_not]
        constructor
        · rintro ⟨h1, h2⟩
          exact ⟨by omega, init, hi, hv, hfit, h1, h2⟩
        · rintro ⟨-, init', hi', -, -, h1, h2⟩
          obtain rfl := Option.some.inj (hi.symm.trans hi')
          exact ⟨h1, h2⟩
      · rw [if_pos (by by_contra h; exact hfit ⟨by omega, by omega⟩)]
        refine iff_of_true (safe_lua _) ?_
        rintro ⟨-, _, -, -, h, -⟩
        exact hfit h

/-- The iterator a call of `string.gmatch` gives. -/
theorem exec_gmatch (hlen : more.length ≤ 1) {init : Int64} (hi : initOf more = some init)
    (hv : validGmatchPattern (s.strBytes p) = true) (hg : s.gmatches.length < MAX_GMATCH) :
    R.exec (stringGmatchF bits (.str r :: .str p :: more)) s = .ok (.ret (.gmatch s.gmatches.length))
      { s with gmatches := s.gmatches ++ [⟨r, p, startOf bits init (s.strBytes r).length, false⟩] } := by
  have halloc : R.exec (allocGmatch r p (startOf bits init (s.strBytes r).length)) s = .ok s.gmatches.length
      { s with gmatches := s.gmatches ++ [⟨r, p, startOf bits init (s.strBytes r).length, false⟩] } := by
    rw [allocGmatch, exec_bind, exec_get, bind_ok (getMachine_apply s), exec_ite, if_neg (by omega)]
    rfl
  rw [stringGmatchF, exec_ite, if_neg (by omega), exec_bind, exec_get, bind_ok (getMachine_apply s), exec_bind,
    bind_ok (exec_initArg hi), exec_ite, if_neg (by simp [hv]), exec_bind, bind_ok halloc]
  rfl

/-- Any other ends with an error of the language. -/
theorem exec_gmatch_error (h : ¬ ∃ init, more.length ≤ 1 ∧ initOf more = some init ∧
    validGmatchPattern (s.strBytes p) = true ∧ s.gmatches.length < MAX_GMATCH) :
    ∃ e, R.exec (stringGmatchF bits (.str r :: .str p :: more)) s = .error (.lua e) s := by
  rw [stringGmatchF, exec_ite]
  by_cases hlen : more.length > 1
  · exact ⟨_, by rw [if_pos hlen]; rfl⟩
  rw [if_neg hlen, exec_bind, exec_get, bind_ok (getMachine_apply s), exec_bind]
  cases hi : initOf more with
  | none => exact ⟨_, bind_error (exec_initArg_none hi) _⟩
  | some init =>
    rw [bind_ok (exec_initArg hi), exec_ite]
    cases hv : validGmatchPattern (s.strBytes p) with
    | false => exact ⟨_, rfl⟩
    | true =>
      rw [if_neg (by simp), exec_bind]
      have hg : s.gmatches.length ≥ MAX_GMATCH := by
        by_contra hg
        exact h ⟨init, by omega, hi, hv, by omega⟩
      refine ⟨.msg "too many gmatch iterators", bind_error ?_ _⟩
      rw [allocGmatch, exec_bind, exec_get, bind_ok (getMachine_apply s), exec_ite, if_pos hg]
      rfl

/-- The iterations of `string.gmatch`. -/
theorem safe_gmatch {id : ℕ} {t : LuaState}
    (h : R.exec (stringGmatchF bits (.str r :: .str p :: more)) s = .ok (.ret (.gmatch id)) t) :
    (∀ u, Iterates R id r p t u → Safe (R.exec (gmatchAdvance id) u)) ↔
      ¬ MatchOverruns bits (s.strBytes r) (s.strBytes p) more := by
  by_cases hok : ∃ init, more.length ≤ 1 ∧ initOf more = some init ∧ validGmatchPattern (s.strBytes p) = true ∧
      s.gmatches.length < MAX_GMATCH
  swap
  · obtain ⟨e, he⟩ := @exec_gmatch_error R bits s r p more hok
    rw [he] at h
    cases h
  obtain ⟨init, hlen, hi, hv, hg⟩ := hok
  rw [exec_gmatch hlen hi hv hg] at h
  injection h with hret ht
  injection hret with hret
  injection hret with hid
  subst hid ht
  have hst : (s.gmatches ++ [GmatchState.mk r p (startOf bits init (s.strBytes r).length) false])[s.gmatches.length]? =
      some ⟨r, p, startOf bits init (s.strBytes r).length, false⟩ := by simp
  refine (@iterations_safe R _ _ ⟨r, p, startOf bits init (s.strBytes r).length, false⟩ hst).trans ?_
  rw [Clear, not_iff_not]
  constructor
  · rintro ⟨-, hfit, h1, h2⟩
    exact ⟨hlen, init, hi, hv, hfit, h1, h2⟩
  · rintro ⟨-, init', hi', -, hfit, h1, h2⟩
    obtain rfl := Option.some.inj (hi.symm.trans hi')
    exact ⟨rfl, hfit, h1, h2⟩

/-- A call of `string.gsub` stops with an error of the language, or as its replacement does. -/
theorem raises_gsub (repl : Value) :
    Raises (R.exec (stringGsubF L bits (.str r :: .str p :: repl :: more))) (OwnStop R repl) := by
  have hB : ∀ e t, OwnStop R repl (.lua e) t := ownStop_lua
  rw [stringGsubF, exec_ite]
  refine .cond (fun _ => raises_err hB _) fun _ => ?_
  rw [exec_bind, exec_get]
  refine Raises.seq (fun _ _ _ h => by cases h) fun s => ?_
  rw [exec_bind]
  refine Raises.seq ?_ fun maxN => ?_
  · cases more with
    | nil => exact .pure _
    | cons v more =>
      rw [limitArg, exec_bind]
      refine Raises.seq ?_ fun n => .pure _
      unfold toIntegerForFormat
      cases wholeOf v with
      | none => exact raises_err hB _
      | some n => exact .pure _
  · rw [exec_ite]
    refine .cond (fun _ => raises_err hB _) fun _ => ?_
    rw [exec_ite]
    exact .cond (fun _ => raises_err hB _) fun _ => raises_gsubAll hB (fun m hm => raises_replacement hm) maxN

/-- **The searches stay inside the subject**: `string.find` but for a plain pattern longer than it,
`string.match` and all iterations of `string.gmatch` but from behind its end with a pattern that matches
there, `string.gsub` always. -/
theorem searches_stay_inside (R : Rec) (L : Lib) (bits : ℕ) (s : LuaState) (r p : StrRef) (more : List Value) :
    (Safe (R.exec (stringFindF bits (.str r :: .str p :: more)) s) ↔
      ¬ FindOverruns bits (s.strBytes r) (s.strBytes p) more) ∧
    (Safe (R.exec (stringMatchF bits (.str r :: .str p :: more)) s) ↔
      ¬ MatchOverruns bits (s.strBytes r) (s.strBytes p) more) ∧
    Safe (R.exec (stringGmatchF bits (.str r :: .str p :: more)) s) ∧
    (∀ id t, R.exec (stringGmatchF bits (.str r :: .str p :: more)) s = .ok (.ret (.gmatch id)) t →
      ((∀ u, Iterates R id r p t u → Safe (R.exec (gmatchAdvance id) u)) ↔
        ¬ MatchOverruns bits (s.strBytes r) (s.strBytes p) more)) ∧
    ∀ repl x t, R.exec (stringGsubF L bits (.str r :: .str p :: repl :: more)) s = .error x t → OwnStop R repl x t := by
  refine ⟨safe_find, safe_match, ?_, fun id t h => safe_gmatch h, fun repl x t h => raises_gsub repl s x t h⟩
  by_cases hok : ∃ init, more.length ≤ 1 ∧ initOf more = some init ∧ validGmatchPattern (s.strBytes p) = true ∧
      s.gmatches.length < MAX_GMATCH
  · obtain ⟨init, hlen, hi, hv, hg⟩ := hok
    rw [exec_gmatch hlen hi hv hg]
    exact safe_ok _
  · obtain ⟨e, he⟩ := @exec_gmatch_error R bits s r p more hok
    rw [he]
    exact safe_lua _

/-- A state that holds `abc`, `abcd` and the empty string. -/
def threeStrings : LuaState where
  strregs := [(0, [97, 98, 99]), (3, [97, 98, 99, 100]), (7, [])]

/-- A plain `string.find` of `abcd` in `abc`, and `string.match` of the empty pattern from position 5 of `abc`. -/
theorem longer_pattern_overruns :
    (¬ ∀ (s : LuaState) (r p : StrRef) (init : Int64) (plain : Bool),
      Safe (Rec.stuck.exec (stringFindF 64 [.str r, .str p, .num init, .bool plain]) s)) ∧
    ¬ ∀ (s : LuaState) (r p : StrRef) (init : Int64), Safe (Rec.stuck.exec (stringMatchF 64 [.str r, .str p, .num init]) s) := by
  constructor
  · intro h
    have hfind := h threeStrings (strref 0 3) (strref 3 4) 1 true
    refine safe_find.mp hfind ⟨by decide, 1, rfl, rfl, by decide, by decide⟩
  · intro h
    have hmatch := h threeStrings (strref 0 3) (strref 7 0) 5
    have hway : Matches (threeStrings.strBytes (strref 0 3)) (unanchored (threeStrings.strBytes (strref 7 0))) 0 4 :=
      ⟨[], 4, .done (by decide)⟩
    refine safe_match.mp hmatch ⟨by decide, 5, rfl, by decide, ⟨by decide, by decide⟩, by decide, hway⟩

end Calls

end Pattern
end Lua
end Rustrapper

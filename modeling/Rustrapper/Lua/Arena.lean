/-
# The string arena

`LuaState::intern` on the arrays it works on: the bytes of all strings behind
each other in `strings`, one `StrReg` of 16-bit offset and length for each, and
references that pack the two into 32 bits. The rest of the interpreter's model
uses `Heap.intern`, which keeps the bytes of a string beside its offset.

The registered part of the arena is an intern pool (`Arena.Holds`): a call to
`intern` either fails and changes nothing, or hands out the span of its word in
a pool that has everything the old one had (`intern_cases`). So references are
canonical and what they name never changes (`intern_canonical`). `Heap.intern`
goes through the same steps (`heap_intern_refines`).
-/
import Rustrapper.Lua.State
import Rustrapper.Store.Pool

namespace Rustrapper
namespace Lua

open Store

/-! ### The arrays -/

/-- A registered string. -/
structure StrReg where
  off : UInt16
  len : UInt16
deriving DecidableEq, Inhabited

/-- The fields of `LuaState` that hold the strings. `strregs` is the live part
of its array, so its length is `nstrings`. -/
structure Arena where
  strings : List UInt8
  strregs : List StrReg := []
  strNext : ℕ := 0
  cap : strings.length = STR_CAP

/-- What `reset` does to the arena: the bytes stay. -/
def Arena.reset (a : Arena) : Arena := { a with strregs := [], strNext := 0 }

/-- `strref` on the machine's integers. -/
def strref32 (off len : UInt16) : UInt32 := (off.toUInt32 <<< 16) ||| len.toUInt32

/-- `str_bytes`: out of range is a fault. -/
def Arena.strBytes (a : Arena) (r : UInt32) : Option (List UInt8) :=
  let off := (r >>> 16).toNat
  let len := (r &&& 0xFFFF).toNat
  if off + len ≤ a.strings.length then some ((a.strings.drop off).take len) else none

/-- The bytes of `bytes` stand at `reg`. -/
def Arena.same (a : Arena) (reg : StrReg) (bytes : List UInt8) : Bool :=
  (List.range bytes.length).all fun j => a.strings[reg.off.toNat + j]? = bytes[j]?

/-- `copy_nonoverlapping`: overwrite the entries from `off` on. -/
def writeAt (l : List UInt8) (off : ℕ) (bytes : List UInt8) : List UInt8 :=
  l.take off ++ bytes ++ l.drop (off + bytes.length)

theorem length_writeAt {l bytes : List UInt8} {off : ℕ} (h : off + bytes.length ≤ l.length) :
    (writeAt l off bytes).length = l.length := by
  simp only [writeAt, List.length_append, List.length_take, List.length_drop]
  omega

/-- The registration of a word at the end of the arena. -/
def Arena.fresh (a : Arena) (bytes : List UInt8) : StrReg :=
  ⟨.ofNat a.strNext, .ofNat bytes.length⟩

/-- The arena with a word put at its end. -/
def Arena.put (a : Arena) (bytes : List UInt8) (h : a.strNext + bytes.length ≤ STR_CAP) : Arena where
  strings := writeAt a.strings a.strNext bytes
  strregs := a.strregs ++ [a.fresh bytes]
  strNext := a.strNext + bytes.length
  cap := by rw [length_writeAt (by rw [a.cap]; exact h), a.cap]

/-- The first registration with the given bytes. -/
def Arena.find (a : Arena) (bytes : List UInt8) : Option StrReg :=
  a.strregs.find? fun reg => reg.len.toNat = bytes.length ∧ a.same reg bytes

/-- `intern`. -/
def Arena.intern (bytes : List UInt8) : EStateM String Arena UInt32 := fun a =>
  match a.find bytes with
  | some reg => .ok (strref32 reg.off reg.len) a
  | none =>
    if a.strregs.length ≥ MAX_STRINGS then .error "too many strings" a
    else if h : a.strNext + bytes.length ≤ STR_CAP then
      .ok (strref32 (a.fresh bytes).off (a.fresh bytes).len) (a.put bytes h)
    else .error "string overflow" a

/-- The arena after some calls of `intern`, whatever they return. -/
def Arena.interns : List (List UInt8) → Arena → Arena
  | [], a => a
  | b :: bs, a =>
    match Arena.intern b a with
    | .ok _ a' => Arena.interns bs a'
    | .error _ a' => Arena.interns bs a'

/-! ### References -/

theorem toNat_strref32 (off len : UInt16) :
    (strref32 off len).toNat = off.toNat * 65536 + len.toNat := by
  have ho : off.toNat < 65536 := off.toNat_lt
  have hl : len.toNat < 2 ^ 16 := len.toNat_lt
  have hs : off.toNat <<< 16 % 2 ^ 32 = off.toNat <<< 16 := by
    rw [Nat.shiftLeft_eq]
    exact Nat.mod_eq_of_lt (by omega)
  calc (strref32 off len).toNat = off.toNat <<< 16 % 2 ^ 32 ||| len.toNat := by
        simp [strref32]
    _ = off.toNat <<< 16 ||| len.toNat := by rw [hs]
    _ = off.toNat * 65536 + len.toNat := by
        rw [← Nat.shiftLeft_add_eq_or_of_lt hl, Nat.shiftLeft_eq]

/-- A reference has the number the rest of the model uses for it. -/
theorem strref32_eq (off len : UInt16) : (strref32 off len).toNat = strref off.toNat len.toNat :=
  toNat_strref32 off len

theorem strref32_off (off len : UInt16) : (strref32 off len >>> 16).toNat = off.toNat := by
  have hl : len.toNat < 65536 := len.toNat_lt
  rw [UInt32.toNat_shiftRight, toNat_strref32, Nat.shiftRight_eq_div_pow]
  change (off.toNat * 65536 + len.toNat) / 65536 = off.toNat
  omega

theorem strref32_len (off len : UInt16) : (strref32 off len &&& 0xFFFF).toNat = len.toNat := by
  have hl : len.toNat < 65536 := len.toNat_lt
  rw [UInt32.toNat_and, toNat_strref32]
  change (off.toNat * 65536 + len.toNat) &&& (2 ^ 16 - 1) = len.toNat
  rw [Nat.and_two_pow_sub_one_eq_mod]
  omega

/-- References are equal when their offsets and lengths are. -/
theorem strref32_inj {o l o' l' : UInt16} (h : strref32 o l = strref32 o' l') : o = o' ∧ l = l' := by
  have ho := strref32_off o l
  have hl := strref32_len o l
  rw [h, strref32_off] at ho
  rw [h, strref32_len] at hl
  exact ⟨(UInt16.toNat_inj.mp ho).symm, (UInt16.toNat_inj.mp hl).symm⟩

/-! ### The arena as a pool -/

/-- The stretch of the arena a registration covers. -/
def StrReg.span (reg : StrReg) : Span := ⟨reg.off.toNat, reg.len.toNat⟩

/-- The registered part of the arena is the pool `p`. -/
structure Arena.Holds (a : Arena) (p : Pool UInt8) : Prop where
  log : a.strings.take a.strNext = p.log
  spans : a.strregs.map StrReg.span = p.spans
  room : a.strNext ≤ STR_CAP

theorem Arena.holds_reset (a : Arena) : a.reset.Holds Pool.empty := ⟨rfl, rfl, Nat.zero_le _⟩

section Holds
variable {a : Arena} {p : Pool UInt8}

theorem Arena.Holds.next (h : a.Holds p) : p.log.length = a.strNext := by
  have hr := h.room
  rw [← h.log, List.length_take, a.cap]
  omega

/-- A stretch inside the registered part reads the same in the array. -/
theorem Arena.Holds.read (h : a.Holds p) {s : Span} (hs : s.Within p.log.length) :
    (a.strings.drop s.off).take s.len = s.read p.log := by
  have hcut : a.strings = p.log ++ a.strings.drop a.strNext := by
    rw [← h.log, List.take_append_drop]
  calc (a.strings.drop s.off).take s.len = s.read a.strings := rfl
    _ = s.read (p.log ++ a.strings.drop a.strNext) := by rw [← hcut]
    _ = s.read p.log := Span.read_append hs _

theorem Arena.Holds.mem (h : a.Holds p) {reg : StrReg} (hr : reg ∈ a.strregs) :
    reg.span ∈ p.spans := by
  rw [← h.spans]
  exact List.mem_map_of_mem hr

/-- `str_bytes` of a registered reference is what its span reads. -/
theorem Arena.Holds.strBytes (h : a.Holds p) {reg : StrReg} (hs : reg.span ∈ p.spans) :
    a.strBytes (strref32 reg.off reg.len) = some (reg.span.read p.log) := by
  have hw := p.within _ hs
  have hin : reg.off.toNat + reg.len.toNat ≤ a.strings.length := by
    have hn := h.next
    have hr := h.room
    have hcap := a.cap
    unfold Span.Within StrReg.span at hw
    simp only at hw
    omega
  unfold Arena.strBytes
  simp only [strref32_off, strref32_len]
  rw [if_pos hin]
  exact congrArg some (h.read hw)

/-- The comparison of `intern` compares the whole word. -/
theorem Arena.Holds.same_iff (h : a.Holds p) {reg : StrReg} (hr : reg ∈ a.strregs)
    (b : List UInt8) : (reg.len.toNat = b.length ∧ a.same reg b) ↔ reg.span.read p.log = b := by
  have hw := p.within _ (h.mem hr)
  rw [← h.read hw]
  have hlen : ((a.strings.drop reg.span.off).take reg.span.len).length = reg.len.toNat := by
    rw [h.read hw, Span.length_read hw]
    rfl
  constructor
  · rintro ⟨hl, hsame⟩
    refine List.ext_getElem? fun j => ?_
    by_cases hj : j < b.length
    · have hb : a.strings[reg.off.toNat + j]? = b[j]? := by
        simpa using List.all_eq_true.mp hsame j (List.mem_range.mpr hj)
      rw [List.getElem?_take_of_lt (by change j < reg.len.toNat; omega), List.getElem?_drop]
      exact hb
    · rw [List.getElem?_eq_none (by omega), List.getElem?_eq_none (by omega)]
  · intro hb
    have hl : reg.len.toNat = b.length := by rw [← hlen, hb]
    refine ⟨hl, List.all_eq_true.mpr fun j hj => decide_eq_true ?_⟩
    have hj' : j < reg.span.len := by
      have hb' := List.mem_range.mp hj
      change j < reg.len.toNat
      omega
    calc a.strings[reg.off.toNat + j]?
        = ((a.strings.drop reg.span.off).take reg.span.len)[j]? := by
          rw [List.getElem?_take_of_lt hj', List.getElem?_drop]
          rfl
      _ = b[j]? := by rw [hb]

/-- `intern` looks for the registration that reads as its bytes. -/
theorem Arena.Holds.find_eq (h : a.Holds p) (b : List UInt8) :
    a.find b = a.strregs.find? fun reg => reg.span.read p.log = b :=
  List.find?_congr fun _ hr => decide_eq_decide.mpr (h.same_iff hr b)

/-- The registration `intern` finds is the one with the word's span. -/
theorem Arena.Holds.find (h : a.Holds p) (b : List UInt8) :
    (a.find b).map StrReg.span = p.find b := by
  rw [h.find_eq, Pool.find, ← h.spans, List.find?_map]
  rfl

/-- The numbers of a fresh registration fit in 16 bits. -/
theorem Arena.Holds.span_fresh (h : a.Holds p) {b : List UInt8}
    (hroom : a.strNext + b.length ≤ STR_CAP) : (a.fresh b).span = ⟨p.log.length, b.length⟩ := by
  have hcap : STR_CAP < 65536 := by decide
  have hoff : (UInt16.ofNat a.strNext).toNat = a.strNext :=
    UInt16.toNat_ofNat_of_lt' (by change _ < 65536; omega)
  have hlen : (UInt16.ofNat b.length).toNat = b.length :=
    UInt16.toNat_ofNat_of_lt' (by change _ < 65536; omega)
  rw [StrReg.span, Arena.fresh, hoff, hlen, h.next]

/-- A word put at the end of the arena is a word added to the pool. -/
theorem Arena.Holds.put (h : a.Holds p) {b : List UInt8} (hnew : ∀ s ∈ p.spans, s.read p.log ≠ b)
    (hroom : a.strNext + b.length ≤ STR_CAP) : (a.put b hroom).Holds (p.add b hnew) := by
  refine ⟨?_, ?_, hroom⟩
  · calc (a.put b hroom).strings.take (a.strNext + b.length)
        = (a.strings.take a.strNext ++ b ++ a.strings.drop (a.strNext + b.length)).take
            (a.strNext + b.length) := rfl
      _ = a.strings.take a.strNext ++ b := by
          rw [List.take_left']
          rw [List.length_append, h.log, h.next]
      _ = (p.add b hnew).log := by rw [h.log]; rfl
  · calc (a.put b hroom).strregs.map StrReg.span
        = a.strregs.map StrReg.span ++ [(a.fresh b).span] := List.map_append
      _ = (p.add b hnew).spans := by rw [h.spans, h.span_fresh hroom]; rfl

/-- **A call of `intern` fails and changes nothing, or hands out the span of
its word in a pool that has everything the old one had.** -/
theorem intern_cases (h : a.Holds p) (b : List UInt8) :
    (∃ m, Arena.intern b a = .error m a) ∨
    ∃ (reg : StrReg) (a' : Arena) (q : Pool UInt8),
      Arena.intern b a = .ok (strref32 reg.off reg.len) a' ∧ a'.Holds q ∧ p.le q ∧
      reg.span ∈ q.spans ∧ reg.span.read q.log = b := by
  have hfind := h.find b
  unfold Arena.intern
  cases hf : a.find b with
  | some reg =>
    rw [hf, Option.map_some] at hfind
    obtain ⟨hmem, hread⟩ := Pool.find_some hfind.symm
    exact .inr ⟨reg, a, p, rfl, h, p.le_refl, hmem, hread⟩
  | none =>
    rw [hf, Option.map_none] at hfind
    have hnew := Pool.find_none hfind.symm
    by_cases hfull : a.strregs.length ≥ MAX_STRINGS
    · exact .inl ⟨"too many strings", by simp only [if_pos hfull]⟩
    by_cases hroom : a.strNext + b.length ≤ STR_CAP
    · refine .inr ⟨a.fresh b, a.put b hroom, p.add b hnew, ?_, h.put hnew hroom, p.le_add b hnew, ?_⟩
      · simp only [if_neg hfull, dif_pos hroom]
      · rw [h.span_fresh hroom]
        exact ⟨List.mem_append_right _ (List.mem_singleton_self _), Span.read_last p.log b⟩
    · exact .inl ⟨"string overflow", by simp only [if_neg hfull, dif_neg hroom]⟩

end Holds

/-! ### Sequences of calls -/

/-- **Any number of calls of `intern` only adds to the pool.** -/
theorem interns_holds : ∀ (bs : List (List UInt8)) {a : Arena} {p : Pool UInt8}, a.Holds p →
    ∃ q, (a.interns bs).Holds q ∧ p.le q
  | [], _, p, h => ⟨p, h, p.le_refl⟩
  | b :: bs, a, p, h => by
    unfold Arena.interns
    rcases intern_cases h b with ⟨m, hm⟩ | ⟨reg, a', q, hok, hq, hle, -, -⟩
    · rw [hm]
      exact interns_holds bs h
    · rw [hok]
      obtain ⟨r, hr, hle'⟩ := interns_holds bs hq
      exact ⟨r, hr, Pool.le_trans hle hle'⟩

/-- What a successful call hands out, in the arena it leaves. -/
theorem intern_ok {a a' : Arena} {p : Pool UInt8} (h : a.Holds p) {b : List UInt8} {r : UInt32}
    (hok : Arena.intern b a = .ok r a') :
    ∃ (reg : StrReg) (q : Pool UInt8), r = strref32 reg.off reg.len ∧ a'.Holds q ∧ p.le q ∧
      reg.span ∈ q.spans ∧ reg.span.read q.log = b := by
  rcases intern_cases h b with ⟨m, hm⟩ | ⟨reg, t, q, hok', hq, hle, hmem, hread⟩
  · rw [hm] at hok
    cases hok
  · rw [hok'] at hok
    cases hok
    exact ⟨reg, q, rfl, hq, hle, hmem, hread⟩

/-- **Interning is canonical and stable.** From `reset` on, behind any calls
`before`: a failing call leaves the arena as it was; a successful one returns a
reference that reads as its bytes, then and behind any calls `between`; and the
reference a later successful call returns is the same exactly when its bytes
are. -/
theorem intern_canonical (a₀ : Arena) (before between : List (List UInt8)) (b c : List UInt8) :
    let a := a₀.reset.interns before
    (∀ m a', Arena.intern b a = .error m a' → a' = a) ∧
    ∀ r a', Arena.intern b a = .ok r a' →
      a'.strBytes r = some b ∧ (a'.interns between).strBytes r = some b ∧
      ∀ r' a'', Arena.intern c (a'.interns between) = .ok r' a'' → (r = r' ↔ b = c) := by
  obtain ⟨p, hp, -⟩ := interns_holds before a₀.holds_reset
  refine ⟨fun m a' herr => ?_, fun r a' hok => ?_⟩
  · rcases intern_cases hp b with ⟨m', hm⟩ | ⟨reg, t, q, hok, -⟩
    · rw [hm] at herr
      cases herr
      rfl
    · rw [hok] at herr
      cases herr
  · obtain ⟨reg, q, rfl, hq, -, hmem, hread⟩ := intern_ok hp hok
    obtain ⟨q₁, hq₁, hle₁⟩ := interns_holds between hq
    have hmem₁ := Pool.mem_of_le hle₁ hmem
    have hread₁ : reg.span.read q₁.log = b := by rw [Pool.read_of_le hle₁ hmem, hread]
    refine ⟨?_, ?_, fun r' a'' hok' => ?_⟩
    · rw [hq.strBytes hmem, hread]
    · rw [hq₁.strBytes hmem₁, hread₁]
    · obtain ⟨reg', q₂, rfl, -, hle₂, hmem₂, hread₂⟩ := intern_ok hq₁ hok'
      rw [← Pool.name_eq_iff hle₂ hmem₁ hread₁ hmem₂ hread₂]
      refine ⟨fun h => ?_, fun h => ?_⟩
      · obtain ⟨ho, hl⟩ := strref32_inj h
        rw [StrReg.span, StrReg.span, ho, hl]
      · injection h with ho hl
        rw [UInt16.toNat_inj.mp ho, UInt16.toNat_inj.mp hl]

/-! ### The heap of the interpreter's model -/

/-- The heap keeps what the arena keeps, with each string's bytes beside its
offset. -/
structure Heap.Shows (h : Heap) (a : Arena) : Prop where
  regs : h.strregs =
    a.strregs.map fun reg => (reg.off.toNat, reg.span.read (a.strings.take a.strNext))
  next : h.strNext = a.strNext

/-- The two ways to store a string register it at the same place. -/
inductive Heap.SameIntern (h : Heap) :
    Except String (StrRef × Heap) → EStateM.Result String Arena UInt32 → Prop where
  | ok {h' : Heap} {r : UInt32} {a' : Arena} (hs : h'.Shows a') :
    SameIntern h (.ok (r.toNat, h')) (.ok r a')
  | error {m : String} {a' : Arena} (hs : h.Shows a') : SameIntern h (.error m) (.error m a')

/-- Both look for the first string with the given bytes. -/
theorem Heap.Shows.find {h : Heap} {a : Arena} {p : Pool UInt8} (hs : h.Shows a) (hp : a.Holds p)
    (b : List UInt8) : h.strregs.find? (fun reg => reg.2 = b) =
      (a.find b).map fun reg => (reg.off.toNat, reg.span.read (a.strings.take a.strNext)) := by
  rw [hs.regs, List.find?_map, hp.find_eq, hp.log]
  rfl

/-- The bytes behind a registered reference are those of the arena. -/
theorem Heap.Shows.strBytes {h : Heap} {a : Arena} {p : Pool UInt8} (hs : h.Shows a)
    (hp : a.Holds p) {reg : StrReg} (hr : reg ∈ a.strregs) :
    a.strBytes (strref32 reg.off reg.len) = some (h.strBytes (strref32 reg.off reg.len).toNat) := by
  have hlen : ∀ reg' ∈ a.strregs,
      (reg'.span.read (a.strings.take a.strNext)).length = reg'.len.toNat := by
    intro reg' hr'
    rw [hp.log, Span.length_read (p.within _ (hp.mem hr'))]
    rfl
  have hfind : a.strregs.find? (fun reg' => strref reg'.off.toNat
      (reg'.span.read (a.strings.take a.strNext)).length = (strref32 reg.off reg.len).toNat) =
      a.strregs.find? (fun reg' => reg' = reg) := by
    refine List.find?_congr fun reg' hr' => decide_eq_decide.mpr ?_
    rw [hlen reg' hr', ← strref32_eq, UInt32.toNat_inj]
    refine ⟨fun h => ?_, fun h => by rw [h]⟩
    obtain ⟨ho, hl⟩ := strref32_inj h
    cases reg
    cases reg'
    simp only at ho hl
    rw [ho, hl]
  have hself : a.strregs.find? (fun reg' => reg' = reg) = some reg := by
    cases hf : a.strregs.find? (fun reg' => reg' = reg) with
    | none => exact absurd (decide_eq_true rfl) (List.find?_eq_none.mp hf reg hr)
    | some reg' =>
      have hp : decide (reg' = reg) = true := List.find?_some (p := fun reg' => decide (reg' = reg)) hf
      rw [of_decide_eq_true hp]
  rw [hp.strBytes (hp.mem hr), Heap.strBytes, hs.regs, List.find?_map]
  refine congrArg some ?_
  change _ = (Option.map _ (Option.map _ (a.strregs.find? fun reg' => strref reg'.off.toNat
    (reg'.span.read (a.strings.take a.strNext)).length = (strref32 reg.off reg.len).toNat))).getD []
  rw [hfind, hself, hp.log]
  rfl

/-- A word stored by both. -/
theorem Heap.Shows.put {h : Heap} {a : Arena} {p : Pool UInt8} (hs : h.Shows a) (hp : a.Holds p)
    {b : List UInt8} (hnew : ∀ s ∈ p.spans, s.read p.log ≠ b) (hroom : a.strNext + b.length ≤ STR_CAP) :
    Heap.Shows { h with
      strregs := h.strregs ++ [(a.strNext, b)], strNext := a.strNext + b.length } (a.put b hroom) := by
  have hp' := hp.put hnew hroom
  refine ⟨?_, rfl⟩
  change h.strregs ++ _ = (a.strregs ++ [a.fresh b]).map _
  rw [List.map_append, hp'.log, hs.regs, hp.log]
  congr 1
  · refine List.map_congr_left fun reg hr => ?_
    have hread : reg.span.read (p.log ++ b) = reg.span.read p.log :=
      Span.read_append (p.within _ (hp.mem hr)) b
    exact congrArg (Prod.mk _) hread.symm
  · have hspan := hp.span_fresh hroom
    have hoff : (a.fresh b).off.toNat = a.strNext := by rw [← hp.next]; exact congrArg Span.off hspan
    rw [List.map_singleton, hspan, hoff]
    exact congrArg (fun w => [(a.strNext, w)]) (Span.read_last p.log b).symm

/-- **`Heap.intern` goes through the steps of `intern`**: the same reference or
the same error, and it shows the arena that call leaves. -/
theorem heap_intern_refines {h : Heap} {a : Arena} {p : Pool UInt8} (hs : h.Shows a)
    (hp : a.Holds p) (b : List UInt8) : h.SameIntern (h.intern b) (Arena.intern b a) := by
  unfold Heap.intern Arena.intern
  rw [hs.find hp]
  cases hf : a.find b with
  | some reg =>
    have hmem : reg ∈ a.strregs := List.mem_of_find?_eq_some hf
    have hlen : (reg.span.read (a.strings.take a.strNext)).length = reg.len.toNat := by
      rw [hp.log, Span.length_read (p.within _ (hp.mem hmem))]
      rfl
    simp only [Option.map_some, hlen, ← strref32_eq]
    exact .ok hs
  | none =>
    have hcount : h.strregs.length = a.strregs.length := by rw [hs.regs, List.length_map]
    simp only [Option.map_none, hcount, hs.next]
    by_cases hfull : a.strregs.length ≥ MAX_STRINGS
    · rw [if_pos hfull, if_pos hfull]
      exact .error hs
    by_cases hroom : a.strNext + b.length ≤ STR_CAP
    · have hnew : ∀ s ∈ p.spans, s.read p.log ≠ b := by
        refine Pool.find_none ?_
        rw [← hp.find, hf, Option.map_none]
      have hspan := hp.span_fresh hroom
      have hoff : (a.fresh b).off.toNat = a.strNext := by
        rw [← hp.next]
        exact congrArg Span.off hspan
      have hlen : (a.fresh b).len.toNat = b.length := congrArg Span.len hspan
      have href : strref a.strNext b.length =
          (strref32 (a.fresh b).off (a.fresh b).len).toNat := by rw [strref32_eq, hoff, hlen]
      rw [if_neg hfull, if_neg hfull, if_neg (Nat.not_lt.mpr hroom), dif_pos hroom, href]
      exact .ok (hs.put hp hnew hroom)
    · rw [if_neg hfull, if_neg hfull, if_pos (Nat.not_le.mp hroom), dif_neg hroom]
      exact .error hs

/-! ### The arena of a run -/

/-- The strings are those some arena holds. -/
def Heap.Sound (h : Heap) : Prop := ∃ a p, h.Shows a ∧ a.Holds p

theorem Heap.sound_empty {h : Heap} (hregs : h.strregs = []) (hnext : h.strNext = 0) : h.Sound :=
  ⟨(⟨List.replicate STR_CAP 0, [], 0, List.length_replicate⟩ : Arena).reset, Pool.empty, ⟨hregs, hnext⟩,
    Arena.holds_reset _⟩

/-- **`intern` keeps the arena sound, and its reference has the bytes.** -/
theorem Heap.Sound.intern {h h' : Heap} {b : List UInt8} {r : StrRef} (hs : h.Sound) (hi : h.intern b = .ok (r, h')) :
    h'.Sound ∧ h'.strBytes r = b := by
  obtain ⟨a, p, hshow, hp⟩ := hs
  have href := heap_intern_refines hshow hp b
  rw [hi] at href
  generalize hres : Arena.intern b a = res at href
  cases href with
  | @ok _ ref a' hs' =>
    obtain ⟨reg, q, rfl, hq, -, hmem, hread⟩ := intern_ok hp hres
    -- the reference is that of a registration
    obtain ⟨reg', hreg', hspan⟩ : ∃ reg' ∈ a'.strregs, reg'.span = reg.span := by
      rw [← hq.spans] at hmem
      exact List.mem_map.mp hmem
    injection hspan with hoff hlen
    have hbytes := hs'.strBytes hq hreg'
    rw [UInt16.toNat_inj.mp hoff, UInt16.toNat_inj.mp hlen, hq.strBytes hmem, hread] at hbytes
    exact ⟨⟨a', q, hs', hq⟩, (Option.some.inj hbytes).symm⟩

end Lua
end Rustrapper

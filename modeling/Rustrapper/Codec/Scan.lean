/-
# Reading a frame by offsets

A frame is the first `len` bytes of a buffer. A scanner reads bytes and slices
of it at offsets it has computed, and ends with a result, without one, or
because it left the frame: an index or a slice outside, or a subtraction below
zero. `Inside` says that it does not leave the frame; it is proved along the
structure of the scanner, one rule for each construct.
-/
import Rustrapper.Codec.Bytes

namespace Codec

/-- The first `len` bytes of a buffer. -/
structure Frame where
  bytes : List UInt8
  len : ℕ
  bounded : len ≤ bytes.length

/-- A whole byte string as a frame. -/
def Frame.whole (bytes : List UInt8) : Frame := ⟨bytes, bytes.length, le_rfl⟩

/-- Why a scanner has no result. -/
inductive Stop
  | rejected
  | outside
  deriving DecidableEq

/-- A scanner's outcome. -/
abbrev Scan := Except Stop

namespace Frame

variable (f : Frame)

/-- `buf[i]`. -/
def byte (i : ℕ) : Scan UInt8 :=
  if h : i < f.len then .ok (f.bytes.get ⟨i, h.trans_le f.bounded⟩) else .error .outside

/-- `buf[i..j]`. -/
def range (i j : ℕ) : Scan (List UInt8) :=
  if i ≤ j ∧ j ≤ f.len then .ok (slice f.bytes i (j - i)) else .error .outside

/-- `buf[i]`, …, `buf[i + n - 1]`. -/
def bytesAt : ℕ → ℕ → Scan (List UInt8)
  | _, 0 => .ok []
  | i, n + 1 => do
    let b ← f.byte i
    let bs ← bytesAt (i + 1) n
    .ok (b :: bs)

/-- The big-endian number in `n` bytes. -/
def number (i n : ℕ) : Scan ℕ := ofBE <$> f.bytesAt i n

end Frame

/-- `if c { return None; }`. -/
def rejectIf (c : Prop) [Decidable c] : Scan Unit := if c then .error .rejected else .ok ()

/-- `a - b` of unsigned numbers. -/
def minus (a b : ℕ) : Scan ℕ := if b ≤ a then .ok (a - b) else .error .outside

/-- Reject unless the bytes from `i` on are these; stop at the first that is not. -/
def Frame.expect (f : Frame) : ℕ → List UInt8 → Scan Unit
  | _, [] => .ok ()
  | i, m :: ms => do
    let b ← f.byte i
    rejectIf (b ≠ m)
    f.expect (i + 1) ms

/-- `if let Some(a) = x`: a rejection is a result. -/
def Scan.optional {α : Type} : Scan α → Scan (Option α)
  | .ok a => .ok (some a)
  | .error .rejected => .ok none
  | .error .outside => .error .outside

/-- `v[i] = b`. -/
def store {n : ℕ} (v : Vector UInt8 n) (i : ℕ) (b : UInt8) : Scan (Vector UInt8 n) :=
  if h : i < n then .ok (v.set i b) else .error .outside

/-- `v[..bs.len()].copy_from_slice(bs)`. -/
def copyInto {n : ℕ} (v : Vector UInt8 n) (bs : List UInt8) : Scan (Vector UInt8 n) :=
  if bs.length ≤ n then .ok (Vector.ofFn fun i => bs.getD i v[i]) else .error .outside

/-- `copy_from_slice` to the whole of an array of `n` bytes. -/
def copyFromSlice (n : ℕ) (bs : List UInt8) : Scan (Vector UInt8 n) :=
  if h : bs.length = n then .ok ⟨bs.toArray, h⟩ else .error .outside

/-! ### Staying inside -/

/-- The scanner does not leave the frame. -/
def Inside {α : Type} (x : Scan α) : Prop := x ≠ .error .outside

variable {α β : Type} {f : Frame} {x : Scan α} {k : α → Scan β} {i j n : ℕ}

theorem Inside.ok (a : α) : Inside (.ok a) := by simp [Inside]

theorem Inside.bind (hx : Inside x) (hk : ∀ a, x = .ok a → Inside (k a)) : Inside (x >>= k) := by
  cases hc : x with
  | ok a => exact hk a hc
  | error e =>
    intro he
    cases he
    exact hx hc

theorem Inside.rejectIf {c : Prop} [Decidable c] {k : Unit → Scan β} (h : ¬ c → Inside (k ())) :
    Inside (rejectIf c >>= k) := by
  by_cases hc : c
  · rw [Codec.rejectIf, if_pos hc]
    intro he
    cases he
  · rw [Codec.rejectIf, if_neg hc]
    exact h hc

theorem inside_byte (h : i < f.len) : Inside (f.byte i) := by
  rw [Frame.byte, dif_pos h]
  exact .ok _

theorem inside_range (h : i ≤ j) (h' : j ≤ f.len) : Inside (f.range i j) := by
  rw [Frame.range, if_pos ⟨h, h'⟩]
  exact .ok _

theorem inside_bytesAt : ∀ (n : ℕ) {i : ℕ}, i + n ≤ f.len → Inside (f.bytesAt i n)
  | 0, _, _ => .ok _
  | n + 1, _, h => (inside_byte (by omega)).bind fun _ _ =>
      (inside_bytesAt n (by omega)).bind fun _ _ => .ok _

theorem inside_number (h : i + n ≤ f.len) : Inside (f.number i n) := by
  unfold Frame.number
  rw [map_eq_pure_bind]
  exact (inside_bytesAt n h).bind fun _ _ => .ok _

theorem inside_minus {a b : ℕ} (h : b ≤ a) : Inside (minus a b) := by
  rw [minus, if_pos h]
  exact .ok _

theorem inside_expect : ∀ (ms : List UInt8) {i : ℕ}, i + ms.length ≤ f.len → Inside (f.expect i ms)
  | [], _, _ => .ok _
  | _ :: ms, _, h => by
    rw [List.length_cons] at h
    refine (inside_byte (by omega)).bind fun _ _ => ?_
    exact .rejectIf fun _ => inside_expect ms (by omega)

theorem Inside.optional (hx : Inside x) : Inside x.optional := by
  cases hc : x with
  | ok a => exact .ok _
  | error e =>
    cases e with
    | rejected => exact .ok _
    | outside => exact absurd hc hx

theorem inside_store {v : Vector UInt8 n} {b : UInt8} (h : i < n) : Inside (store v i b) := by
  rw [store, dif_pos h]
  exact .ok _

theorem inside_copyInto {v : Vector UInt8 n} {bs : List UInt8} (h : bs.length ≤ n) :
    Inside (copyInto v bs) := by
  rw [copyInto, if_pos h]
  exact .ok _

theorem inside_copyFromSlice {bs : List UInt8} (h : bs.length = n) : Inside (copyFromSlice n bs) := by
  rw [copyFromSlice, dif_pos h]
  exact .ok _

theorem bytesAt_eq_ok : ∀ {n i : ℕ} {bs : List UInt8}, f.bytesAt i n = .ok bs → bs.length = n
  | 0, _, _, h => by
    cases h
    rfl
  | n + 1, i, bs, h => by
    unfold Frame.bytesAt at h
    cases hb : f.byte i with
    | error e =>
      rw [hb] at h
      cases h
    | ok b =>
      rw [hb] at h
      cases hbs : f.bytesAt (i + 1) n with
      | error e =>
        simp only [hbs, bind, Except.bind] at h
        cases h
      | ok bs' =>
        simp only [hbs, bind, Except.bind] at h
        cases h
        rw [List.length_cons, bytesAt_eq_ok hbs]

theorem minus_eq_ok {a b c : ℕ} (h : minus a b = .ok c) : b ≤ a ∧ c = a - b := by
  unfold minus at h
  by_cases hle : b ≤ a
  · rw [if_pos hle] at h
    cases h
    exact ⟨hle, rfl⟩
  · rw [if_neg hle] at h
    cases h

theorem range_eq_ok {bs : List UInt8} (h : f.range i j = .ok bs) : bs.length = j - i := by
  have hb := f.bounded
  unfold Frame.range at h
  by_cases hc : i ≤ j ∧ j ≤ f.len
  · rw [if_pos hc] at h
    cases h
    rw [length_slice]
    omega
  · rw [if_neg hc] at h
    cases h

theorem scan_eq_ok {b : β} (h : x >>= k = .ok b) : ∃ a, x = .ok a ∧ k a = .ok b := by
  cases hc : x with
  | ok a =>
    rw [hc] at h
    exact ⟨a, rfl, h⟩
  | error e =>
    rw [hc] at h
    cases h

theorem rejectIf_eq_ok {c : Prop} [Decidable c] {u : Unit} (h : rejectIf c = .ok u) : ¬ c := by
  intro hc
  rw [rejectIf, if_pos hc] at h
  cases h

theorem optional_eq_ok {o : Option α} (h : x.optional = .ok o) : o = x.toOption := by
  rcases x with (_ | _) | a
  · cases h
    rfl
  · cases h
  · cases h
    rfl

/-- What is expected is there. -/
theorem expect_eq_ok : ∀ {ms : List UInt8} {i : ℕ}, f.expect i ms = .ok () →
    f.bytesAt i ms.length = .ok ms
  | [], _, _ => rfl
  | m :: ms, i, h => by
    obtain ⟨b, hb, h⟩ := scan_eq_ok h
    obtain ⟨_, hr, h⟩ := scan_eq_ok h
    have hm : b = m := not_not.mp (rejectIf_eq_ok hr)
    have ih := expect_eq_ok h
    simp only [List.length_cons, Frame.bytesAt]
    rw [hb, ih, hm]
    rfl

/-- The buffer behind a frame has the frame's bytes. -/
theorem bytesAt_buffer : ∀ {n i : ℕ} {bs : List UInt8}, f.bytesAt i n = .ok bs →
    (Frame.whole f.bytes).bytesAt i n = .ok bs
  | 0, _, _, h => h
  | n + 1, i, bs, h => by
    obtain ⟨b, hb, h⟩ := scan_eq_ok h
    obtain ⟨bs', hbs, h⟩ := scan_eq_ok h
    have ih := bytesAt_buffer hbs
    have hb' : (Frame.whole f.bytes).byte i = .ok b := by
      unfold Frame.byte at hb ⊢
      by_cases hi : i < f.len
      · rw [dif_pos hi] at hb
        rw [dif_pos (show i < (Frame.whole f.bytes).len from hi.trans_le f.bounded)]
        exact hb
      · rw [dif_neg hi] at hb
        cases hb
    unfold Frame.bytesAt
    rw [hb', ih]
    exact h

/-! ### A whole byte string -/

theorem byte_whole (as cs : List UInt8) (b : UInt8) :
    (Frame.whole (as ++ b :: cs)).byte as.length = .ok b := by
  have h : as.length < (as ++ b :: cs).length := by simp
  have hb : (as ++ b :: cs).get ⟨as.length, h⟩ = b := by simp
  unfold Frame.byte
  rw [dif_pos (show as.length < (Frame.whole (as ++ b :: cs)).len from h)]
  exact congrArg Except.ok hb

theorem bytesAt_whole (cs : List UInt8) : ∀ (bs as : List UInt8),
    (Frame.whole (as ++ (bs ++ cs))).bytesAt as.length bs.length = .ok bs
  | [], _ => rfl
  | b :: bs, as => by
    have ih := bytesAt_whole cs bs (as ++ [b])
    rw [List.length_append, List.append_assoc] at ih
    have hb := byte_whole as (bs ++ cs) b
    simp only [List.cons_append, List.length_cons, Frame.bytesAt]
    rw [hb]
    simp only [List.length_cons, List.length_nil, List.cons_append, List.nil_append] at ih
    simp [bind, Except.bind, ih]

/-- A big-endian number in the midst of a byte string. -/
theorem number_whole (as cs : List UInt8) (n v : ℕ) :
    (Frame.whole (as ++ (toBE n v ++ cs))).number as.length n = .ok (v % 256 ^ n) := by
  have h := bytesAt_whole cs (toBE n v) as
  rw [length_toBE] at h
  unfold Frame.number
  rw [h]
  simp [Functor.map, Except.map]

/-- The rest of a byte string. -/
theorem range_whole (as cs : List UInt8) :
    (Frame.whole (as ++ cs)).range as.length (as ++ cs).length = .ok cs := by
  have hle : as.length ≤ (as ++ cs).length := by simp
  unfold Frame.range
  rw [if_pos ⟨hle, le_rfl⟩]
  simp [Frame.whole, slice_append]

end Codec

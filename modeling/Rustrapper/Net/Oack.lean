/-
# Option acknowledgments

What `parse_oack` makes of a packet: the options are pairs of NUL-terminated
strings, and the last block size that is a number counts (`parseOack_eq`). Its
value is taken as it is, so the negotiation is harmless exactly when no number
overflows a `usize` and the block size, if one is given, is between 8 and
`MAX_BLKSIZE` (`oack_negotiates_iff`).
-/
import Rustrapper.Codec.Text
import Rustrapper.Net.Download

namespace Rustrapper.Net.Tftp

open Codec

/-- `MAX_BLKSIZE`. -/
def maxBlksize : ℕ := 1468

/-! ### Numbers -/

/-- The number in the digits a value begins with. -/
def leadingNumber (val : List UInt8) : ℕ := decimalFrom 0 (val.takeWhile isDecimal)

/-- The number a value is, if it has digits only. -/
def numberOf (val : List UInt8) : Option ℕ := if val.all isDecimal then some (leadingNumber val) else none

/-- The values `result * 10 + digit` that `parse_decimal` computes, one for each turn of its loop. -/
def decimalSums : List UInt8 → ℕ → List ℕ
  | [], _ => []
  | b :: bs, result =>
    if isDecimal b then
      let sum := result * 10 + (b.toNat - 0x30)
      sum :: decimalSums bs sum
    else []

section
variable {bits n : ℕ} {ds val : List UInt8}

/-- No sum overflows when the last does not. -/
theorem decimalSums_lt_iff (hn : n < 2 ^ bits) :
    (∀ sum ∈ decimalSums val n, sum < 2 ^ bits) ↔ decimalFrom n (val.takeWhile isDecimal) < 2 ^ bits := by
  induction val generalizing n with
  | nil => simpa [decimalSums, decimalFrom] using hn
  | cons b bs ih =>
    rw [decimalSums, List.takeWhile_cons]
    by_cases hb : isDecimal b = true
    · rw [if_pos hb, hb]
      have hle := le_decimalFrom (n * 10 + (b.toNat - 0x30)) (bs.takeWhile isDecimal)
      rw [List.forall_mem_cons]
      constructor
      · exact fun ⟨hsum, hrest⟩ => (ih hsum).mp hrest
      · exact fun h => ⟨hle.trans_lt h, (ih (hle.trans_lt h)).mpr h⟩
    · rw [if_neg hb, eq_false_of_ne_true hb]
      simpa [decimalFrom] using hn

theorem decimalStep_of_digit {b : UInt8} (hb : isDecimal b = true) (result : ℕ) :
    decimalStep bits b result = .ok ((result * 10 + (b.toNat - 0x30)) % 2 ^ bits) := by
  rw [decimalStep, if_pos (isDecimal_iff.mp hb), minus_of_isDecimal hb]
  rfl

theorem decimalStep_of_not_digit {b : UInt8} (hb : ¬ isDecimal b = true) (result : ℕ) :
    decimalStep bits b result = .error .rejected := if_neg (isDecimal_iff.not.mp hb)

/-- **`parse_decimal`** reads the number as long as none of its sums overflows. -/
theorem parseDecimal_from (h : decimalFrom n (val.takeWhile isDecimal) < 2 ^ bits) :
    parseDecimal bits val n = if val.all isDecimal then .ok (decimalFrom n val) else .error .rejected := by
  induction val generalizing n with
  | nil => rfl
  | cons b bs ih =>
    rw [parseDecimal, List.all_cons]
    rw [List.takeWhile_cons] at h
    by_cases hb : isDecimal b = true
    · rw [hb] at h ⊢
      have hsum := (le_decimalFrom (n * 10 + (b.toNat - 0x30)) (bs.takeWhile isDecimal)).trans_lt h
      rw [decimalStep_of_digit hb, Nat.mod_eq_of_lt hsum, ok_then, ih h]
      rfl
    · rw [decimalStep_of_not_digit hb, eq_false_of_ne_true hb]
      rfl

theorem parseDecimal_optional (h : leadingNumber val < 2 ^ bits) :
    (parseDecimal bits val 0).optional = .ok (numberOf val) := by
  rw [parseDecimal_from h, numberOf]
  by_cases hall : val.all isDecimal = true
  · rw [if_pos hall, if_pos hall, leadingNumber, List.takeWhile_eq_self_iff.mpr (by simpa using hall)]
    rfl
  · rw [if_neg hall, if_neg hall]
    rfl

end

/-! ### Options -/

/-- The first two, the next two and so on. -/
def inPairs {α : Type} : List α → List (α × α)
  | a :: b :: as => (a, b) :: inPairs as
  | _ => []

/-- The options in what follows the opcode: keys and values, each up to its NUL. -/
def optionsOf (payload : List UInt8) : List (List UInt8 × List UInt8) := inPairs (payload.splitOn 0).dropLast

/-- The block size the options give: that of the last `blksize` option with a number. -/
def blksizeGiven (options : List (List UInt8 × List UInt8)) : Option ℕ :=
  lastGiven (fun o => if o.1 = blksizeKey then numberOf o.2 else none) options

/-- The bytes of the frame from `pos` on. -/
def restOf (f : Frame) (pos : ℕ) : List UInt8 := slice f.bytes pos (f.len - pos)

/-- One option, its value read without overflow. -/
def applyOption (sizes : ℕ × ℕ) (o : List UInt8 × List UInt8) : ℕ × ℕ :=
  if o.1 = blksizeKey then ((numberOf o.2).getD sizes.1, sizes.2)
  else if o.1 = tsizeKey then (sizes.1, (numberOf o.2).getD sizes.2)
  else sizes

/-- No number of the options overflows. -/
def NoOverflow (bits : ℕ) (options : List (List UInt8 × List UInt8)) : Prop :=
  ∀ o ∈ options, o.1 = blksizeKey ∨ o.1 = tsizeKey → leadingNumber o.2 < 2 ^ bits

instance (bits : ℕ) (options : List (List UInt8 × List UInt8)) : Decidable (NoOverflow bits options) := by
  unfold NoOverflow
  infer_instance

section
variable {f : Frame} {pos bits : ℕ}

theorem restOf_end (h : ¬ pos < f.len) : restOf f pos = [] := by
  rw [restOf, show f.len - pos = 0 by omega]
  exact List.take_zero

theorem has_restOf (h : pos ≤ f.len) : f.Has pos (restOf f pos) := has_slice (by omega)

theorem length_restOf (h : pos ≤ f.len) : (restOf f pos).length = f.len - pos := length_slice_of_le (by omega)

/-- What a frame holds up to its end is the rest of it. -/
theorem restOf_eq {bs : List UInt8} (h : f.Has pos bs) (hend : f.len = pos + bs.length) : restOf f pos = bs := by
  rw [restOf, hend, Nat.add_sub_cancel_left, h.2]

theorem restOf_append {as bs : List UInt8} (hle : pos ≤ f.len) (h : restOf f pos = as ++ bs) :
    restOf f (pos + as.length) = bs := by
  have hlen := length_restOf hle
  have hhas := has_restOf hle
  rw [h] at hlen hhas
  rw [List.length_append] at hlen
  exact restOf_eq hhas.right (by omega)

/-- The loop stops at the first NUL. -/
theorem findNul_eq (f : Frame) (pos : ℕ) : ∃ h,
    findNul f pos = .ok ⟨pos + ((restOf f pos).takeWhile (· ≠ 0)).length, h⟩ := by
  induction pos using findNul.induct (f := f) with
  | case1 pos h ih =>
    obtain ⟨b, bs, hrest⟩ : ∃ b bs, restOf f pos = b :: bs := by
      apply List.exists_cons_of_ne_nil
      intro hnil
      have := length_restOf h.le
      rw [hnil, List.length_nil] at this
      omega
    have hhas := has_restOf h.le
    have hnext := @restOf_append f _ [b] _ h.le hrest
    rw [hrest] at hhas
    refine ⟨Nat.le_add_right _ _, ?_⟩
    rw [findNul, dif_pos h, hhas.byte, ok_then, hrest, List.takeWhile_cons]
    by_cases hb : b = 0
    · simp [hb]
    · obtain ⟨h', ih⟩ := ih
      rw [List.length_singleton] at hnext
      rw [if_pos hb, ih, ok_then]
      refine congrArg Except.ok (Subtype.ext ?_)
      simp only [hnext, hb, ne_eq, not_false_eq_true, decide_true, if_true, List.length_cons]
      omega
  | case2 pos h =>
    refine ⟨Nat.le_add_right _ _, ?_⟩
    rw [findNul, dif_neg h, restOf_end h]
    rfl

/-- An option sets what it says. -/
theorem setOption_eq {o : List UInt8 × List UInt8} {sizes : ℕ × ℕ}
    (h : o.1 = blksizeKey ∨ o.1 = tsizeKey → leadingNumber o.2 < 2 ^ bits) :
    setOption bits o.1 o.2 sizes = .ok (applyOption sizes o) := by
  rw [setOption, applyOption]
  by_cases h1 : o.1 = blksizeKey
  · rw [if_pos h1, if_pos h1, parseDecimal_optional (h (.inl h1)), ok_then]
  rw [if_neg h1, if_neg h1]
  by_cases h2 : o.1 = tsizeKey
  · rw [if_pos h2, if_pos h2, parseDecimal_optional (h (.inr h2)), ok_then]
  · rw [if_neg h2, if_neg h2]

/-- The rest of the frame up to its first NUL, when there is one. -/
theorem restOf_nul {key : List UInt8} (hle : pos ≤ f.len) (hkey : (restOf f pos).takeWhile (· ≠ 0) = key)
    (hlt : pos + key.length < f.len) : restOf f pos = key ++ 0 :: restOf f (pos + key.length + 1) := by
  have hlen := length_restOf hle
  have hsplit := List.takeWhile_append_dropWhile (p := (· ≠ 0)) (l := restOf f pos)
  obtain ⟨b, bs, hdrop⟩ : ∃ b bs, (restOf f pos).dropWhile (· ≠ 0) = b :: bs := by
    apply List.exists_cons_of_ne_nil
    intro hnil
    rw [hkey, hnil, List.append_nil] at hsplit
    rw [← hsplit] at hlen
    omega
  have hb : b = 0 := by
    have hhead := List.head_dropWhile_not (fun x : UInt8 => decide (x ≠ 0)) (l := restOf f pos)
      (by rw [hdrop]; exact List.cons_ne_nil _ _)
    simp only [hdrop, List.head_cons] at hhead
    simpa using hhead
  rw [hkey, hdrop, hb] at hsplit
  have hnext := @restOf_append f _ (key ++ [0]) bs hle (by simp [← hsplit])
  rw [List.length_append, List.length_singleton, ← Nat.add_assoc] at hnext
  rw [hnext]
  exact hsplit.symm

theorem no_nul {key : List UInt8} (hkey : (restOf f pos).takeWhile (· ≠ 0) = key) : (0 : UInt8) ∉ key := by
  intro h
  rw [← hkey] at h
  simpa using List.mem_takeWhile_imp h

/-- Without a NUL there is no string. -/
theorem strings_end (hle : pos ≤ f.len) (h : f.len ≤ pos + ((restOf f pos).takeWhile (· ≠ 0)).length) :
    ((restOf f pos).splitOn 0).dropLast = [] := by
  have hlen := length_restOf hle
  have hall : (restOf f pos).takeWhile (· ≠ 0) = restOf f pos :=
    (List.takeWhile_prefix _).eq_of_length_le (by omega)
  rw [List.splitOn_eq_singleton (no_nul hall)]
  rfl

theorem strings_cons {key bs : List UInt8} (hkey : (0 : UInt8) ∉ key) :
    ((key ++ 0 :: bs).splitOn 0).dropLast = key :: (bs.splitOn 0).dropLast := by
  rw [List.splitOn_append_cons_self, List.splitOn_eq_singleton hkey, List.singleton_append,
    List.dropLast_cons_of_ne_nil (List.splitOn_ne_nil _ _)]

/-- **The options from `pos` on are read one after the other.** -/
theorem oackLoop_eq (f : Frame) (pos : ℕ) (sizes : ℕ × ℕ) (h : NoOverflow bits (optionsOf (restOf f pos))) :
    oackLoop bits f pos sizes = .ok ((optionsOf (restOf f pos)).foldl applyOption sizes) := by
  induction pos, sizes using oackLoop.induct (f := f) with
  | case1 pos sizes hpos ih =>
    obtain ⟨hk, hkeyEnd⟩ := findNul_eq f pos
    generalize hkey : (restOf f pos).takeWhile (· ≠ 0) = key at hk hkeyEnd
    rw [oackLoop, dif_pos hpos, hkeyEnd, ok_then]
    by_cases hend : f.len ≤ pos + key.length
    · rw [if_pos hend, optionsOf, strings_end hpos.le (by rwa [hkey])]
      rfl
    have hrest := restOf_nul hpos.le hkey (by omega)
    have hfirst := (has_restOf hpos.le)
    rw [hrest] at hfirst
    obtain ⟨hv, hvalEnd⟩ := findNul_eq f (pos + key.length + 1)
    generalize hval : (restOf f (pos + key.length + 1)).takeWhile (· ≠ 0) = val at hv hvalEnd
    rw [if_neg hend, hfirst.left.range, ok_then, hvalEnd, ok_then]
    by_cases hend' : f.len ≤ pos + key.length + 1 + val.length
    · rw [if_pos hend', optionsOf, hrest, strings_cons (no_nul hkey), strings_end (by omega) (by rwa [hval])]
      rfl
    have hrest' := restOf_nul (by omega) hval (by omega)
    have hsecond := @has_restOf f (pos + key.length + 1) (by omega)
    rw [hrest'] at hsecond
    have hoptions : optionsOf (restOf f pos) =
        (key, val) :: optionsOf (restOf f (pos + key.length + 1 + val.length + 1)) := by
      rw [optionsOf, hrest, strings_cons (no_nul hkey), hrest', strings_cons (no_nul hval)]
      rfl
    rw [hoptions] at h ⊢
    obtain ⟨hhead, htail⟩ := List.forall_mem_cons.mp h
    rw [if_neg hend', hsecond.left.range, ok_then, setOption_eq (o := (key, val)) hhead, ok_then, List.foldl_cons]
    exact ih ⟨_, hk⟩ ⟨_, hv⟩ hend' _ htail
  | case2 pos sizes hpos =>
    rw [oackLoop, dif_neg hpos, restOf_end hpos]
    rfl

/-- **What `parse_oack` returns** when no number overflows. -/
theorem parseOack_eq (hop : f.number 0 2 = .ok opOack) (h : NoOverflow bits (optionsOf (restOf f 2))) :
    parseOack bits f = .ok ((optionsOf (restOf f 2)).foldl applyOption (defaultBlksize, 0)) := by
  have hlen : ¬ f.len < 2 := by
    intro hlt
    have hbytes : f.bytesAt 0 2 = .error .outside := by
      by_cases h0 : 0 < f.len
      · obtain ⟨b, hb⟩ : ∃ b, f.byte 0 = .ok b := ⟨_, dif_pos h0⟩
        have h1 : f.byte 1 = .error .outside := dif_neg (by omega)
        simp [Frame.bytesAt, hb, h1, bind, Except.bind]
      · have hb : f.byte 0 = .error .outside := dif_neg h0
        simp [Frame.bytesAt, hb, bind, Except.bind]
    rw [Frame.number, hbytes] at hop
    cases hop
  rw [parseOack, rejectIf_then hlen, hop, ok_then, rejectIf_then (by simp), oackLoop_eq f 2 _ h]

/-- The block size is that of the last option that gives one. -/
theorem foldl_applyOption (options : List (List UInt8 × List UInt8)) (sizes : ℕ × ℕ) :
    (options.foldl applyOption sizes).1 = (blksizeGiven options).getD sizes.1 := by
  rw [blksizeGiven, ← foldl_lastGiven]
  refine (List.foldl_hom Prod.fst fun sizes o => ?_).symm
  by_cases h1 : o.1 = blksizeKey
  · simp [applyOption, h1]
  · simp only [applyOption, if_neg h1]
    split_ifs <;> rfl

theorem exists_of_blksizeGiven {options : List (List UInt8 × List UInt8)} {n : ℕ} (h : blksizeGiven options = some n) :
    ∃ o ∈ options, o.1 = blksizeKey ∧ numberOf o.2 = some n := by
  obtain ⟨o, ho, hn⟩ := exists_of_lastGiven h
  by_cases h1 : o.1 = blksizeKey
  · exact ⟨o, ho, h1, by rwa [if_pos h1] at hn⟩
  · rw [if_neg h1] at hn
    cases hn

end

/-! ### The negotiation -/

/-- The value is a decimal number. -/
def IsNumber (val : List UInt8) : Prop := val ≠ [] ∧ val.all isDecimal

/-- The negotiation is harmless: no sum overflows in a number of the packet; the block size is between 8 and
`MAX_BLKSIZE`, the default one when no option gives a number; and a DATA block shorter than it, or empty, ends the
transfer. -/
structure Negotiates (bits : ℕ) (f : Frame) : Prop where
  exact : ∀ o ∈ optionsOf (restOf f 2), o.1 = blksizeKey ∨ o.1 = tsizeKey → ∀ sum ∈ decimalSums o.2 0, sum < 2 ^ bits
  size : ∃ sizes, parseOack bits f = .ok sizes ∧ 8 ≤ sizes.1 ∧ sizes.1 ≤ maxBlksize ∧
    ((∀ o ∈ optionsOf (restOf f 2), o.1 = blksizeKey → ¬ IsNumber o.2) → sizes.1 = defaultBlksize)
  ends : ∀ {σ : Type} (dest : TftpSink σ) (t : Transfer σ) (port : ℕ) (sends : Bool) (r : Turn σ),
    onPacket bits dest t f port sends = .ok r → ∀ block data port' sends',
      data.length < r.transfer.blksize ∨ data = [] →
        (r.transfer.accept bits dest block data port' sends').result ≠ none

section
variable {bits : ℕ} {f : Frame}

/-- A short block ends the transfer, and so does an empty one when the block size is not 0. -/
theorem accept_ends {σ : Type} (dest : TftpSink σ) {t : Transfer σ} (hpos : 0 < t.blksize) (block : ℕ) {data : List UInt8}
    (port : ℕ) (sends : Bool) (h : data.length < t.blksize ∨ data = []) :
    (t.accept bits dest block data port sends).result ≠ none := by
  have hshort : data.length < t.blksize := by
    rcases h with h | rfl
    · exact h
    · exact hpos
  rw [Transfer.accept]
  cases dest.writeBlock t.sink data with
  | none => simp [Transfer.fails]
  | some sink =>
    dsimp only
    rw [if_pos hshort, Transfer.acknowledge]
    split_ifs <;> simp [Transfer.fails]

/-- The block size of the packet is in force behind it. -/
theorem onPacket_blksize {σ : Type} (dest : TftpSink σ) (t : Transfer σ) (port : ℕ) (sends : Bool) {r : Turn σ}
    {sizes : ℕ × ℕ} (hoack : parseOack bits f = .ok sizes) (h : onPacket bits dest t f port sends = .ok r) :
    r.transfer.blksize = sizes.1 := by
  rw [onPacket, hoack] at h
  cases h
  rw [Transfer.acknowledge]
  split_ifs <;> rfl

/-- **When a negotiation is harmless**: no number of the packet overflows, and the block size given last, if any, is
between 8 and `MAX_BLKSIZE`. -/
theorem oack_negotiates_iff (hop : f.number 0 2 = .ok opOack) : Negotiates bits f ↔
    NoOverflow bits (optionsOf (restOf f 2)) ∧
      ∀ n, blksizeGiven (optionsOf (restOf f 2)) = some n → 8 ≤ n ∧ n ≤ maxBlksize := by
  have hexact : (∀ o ∈ optionsOf (restOf f 2), o.1 = blksizeKey ∨ o.1 = tsizeKey →
      ∀ sum ∈ decimalSums o.2 0, sum < 2 ^ bits) ↔ NoOverflow bits (optionsOf (restOf f 2)) :=
    forall₂_congr fun o _ => imp_congr_right fun _ => decimalSums_lt_iff (Nat.two_pow_pos bits)
  constructor
  · intro h
    have hno := hexact.mp h.exact
    refine ⟨hno, fun n hn => ?_⟩
    obtain ⟨sizes, hsizes, hlo, hhi, -⟩ := h.size
    rw [parseOack_eq hop hno] at hsizes
    cases hsizes
    rw [foldl_applyOption, hn] at hlo hhi
    exact ⟨hlo, hhi⟩
  · rintro ⟨hno, hrange⟩
    have hparse := parseOack_eq hop hno
    have hsize := foldl_applyOption (optionsOf (restOf f 2)) (defaultBlksize, 0)
    generalize (optionsOf (restOf f 2)).foldl applyOption (defaultBlksize, 0) = sizes at hparse hsize
    have hbounds : 8 ≤ sizes.1 ∧ sizes.1 ≤ maxBlksize := by
      rw [hsize]
      cases hgiven : blksizeGiven (optionsOf (restOf f 2)) with
      | none => decide
      | some n => exact hrange n hgiven
    refine ⟨hexact.mpr hno, ⟨sizes, hparse, hbounds.1, hbounds.2, fun hnone => ?_⟩, ?_⟩
    · cases hgiven : blksizeGiven (optionsOf (restOf f 2)) with
      | none => rw [hsize, hgiven, Option.getD_none]
      | some n =>
        -- the value it comes from has digits only, so it is empty and the size 0
        exfalso
        obtain ⟨o, ho, hkey, hn⟩ := exists_of_blksizeGiven hgiven
        rw [numberOf] at hn
        split_ifs at hn with hall
        injection hn with hn
        have hempty : o.2 = [] := by_contra fun hne => hnone o ho hkey ⟨hne, hall⟩
        have hzero : n = 0 := by
          rw [← hn, hempty]
          rfl
        have := (hrange n hgiven).1
        omega
    · intro σ dest t port sends r hr block data port' sends'
      have hblk := onPacket_blksize dest t port sends hparse hr
      exact accept_ends dest (by omega) block port' sends'

end

/-- An OACK packet with one option. -/
def oackPacket (key val : List UInt8) : List UInt8 := toBE 2 opOack ++ (key ++ 0 :: (val ++ [0]))

theorem negotiates_1468 : Negotiates 64 (Frame.whole (oackPacket blksizeKey [0x31, 0x34, 0x36, 0x38])) :=
  (oack_negotiates_iff (by decide +kernel)).mpr ⟨by decide +kernel, fun n hn => by
    rw [show blksizeGiven _ = some 1468 by decide +kernel] at hn
    cases hn
    decide⟩

/-- A block size of 0 is accepted, and no DATA block is shorter. -/
theorem zero_blksize_accepted : parseOack 64 (Frame.whole (oackPacket blksizeKey [0x30])) = .ok (0, 0) ∧
    ¬ Negotiates 64 (Frame.whole (oackPacket blksizeKey [0x30])) := by
  have hparse : parseOack 64 (Frame.whole (oackPacket blksizeKey [0x30])) = .ok (0, 0) :=
    (parseOack_eq (by decide +kernel) (by decide +kernel)).trans (by decide +kernel)
  refine ⟨hparse, fun h => ?_⟩
  obtain ⟨sizes, hsizes, hlo, -⟩ := h.size
  rw [hparse] at hsizes
  cases hsizes
  exact absurd hlo (by decide)

end Rustrapper.Net.Tftp

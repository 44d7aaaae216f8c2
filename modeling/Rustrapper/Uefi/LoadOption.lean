/-
# Boot options

An `EFI_LOAD_OPTION` is the attributes, the length of the file path, the
description with its NUL, the file path and the optional data, one behind the
other. `parse_load_option` gives back the parts of such a string, and has no
result for any other (`parseLoadOption_exact`).
-/
import Rustrapper.Codec.Utf16

namespace Rustrapper.Uefi

open Codec

structure LoadOptionView where
  attributes : UInt32
  description : List UInt16
  filePath : List UInt8
  optionalData : List UInt8
  deriving DecidableEq

/-- `parse_load_option`. -/
def parseLoadOption (f : Frame) : Scan LoadOptionView := do
  rejectIf (f.len < 6)
  let attributes ← f.bytesAt 0 4
  let fileLength ← f.bytesAt 4 2
  let i ← findNul16 f 6
  let desc ← f.range 6 i
  rejectIf (desc.length % 2 ≠ 0)
  rejectIf (f.len < i + 2 + ofLE fileLength)
  let filePath ← f.range (i + 2) (i + 2 + ofLE fileLength)
  let optionalData ← f.range (i + 2 + ofLE fileLength) f.len
  .ok ⟨UInt32.ofNat (ofLE attributes), units desc, filePath, optionalData⟩

/-! ### The strings that are boot options -/

/-- A NUL ends the description, and two bytes hold the length of the path. -/
structure LoadOptionView.Ok (o : LoadOptionView) : Prop where
  noNul : ∀ u ∈ o.description, u ≠ 0
  short : o.filePath.length ≤ 65535

/-- The `EFI_LOAD_OPTION` of the parts. -/
def LoadOptionView.bytes (o : LoadOptionView) : List UInt8 :=
  toLE 4 o.attributes.toNat ++ (toLE 2 o.filePath.length ++
    ((utf16 o.description ++ [0, 0]) ++ (o.filePath ++ o.optionalData)))

/-- The reader gives the parts of a boot option, and nothing for another string;
it does not read outside. -/
structure Exact (data : List UInt8) : Prop where
  some_iff : ∀ o, parseLoadOption (.whole data) = .ok o ↔ o.Ok ∧ data = o.bytes
  none_iff : parseLoadOption (.whole data) = .error .rejected ↔ ∀ o : LoadOptionView, o.Ok → data ≠ o.bytes
  inside : Inside (parseLoadOption (.whole data))

variable {f : Frame} {o : LoadOptionView}

theorem parseLoadOption_inside (f : Frame) : Inside (parseLoadOption f) := by
  refine .rejectIf fun hlen => ?_
  refine (inside_bytesAt 4 (by omega)).bind fun attributes _ => ?_
  refine (inside_bytesAt 2 (by omega)).bind fun fileLength _ => ?_
  refine (inside_findNul16 f 6).bind fun i hi => ?_
  obtain ⟨us, -, rfl, hhas⟩ := findNul16_eq_ok hi
  have hle := hhas.le
  simp only [List.length_append, length_utf16, List.length_cons, List.length_nil] at hle
  refine (inside_range (by omega) (by omega)).bind fun desc _ => .rejectIf fun _ => .rejectIf fun hroom => ?_
  refine (inside_range (by omega) (by omega)).bind fun filePath _ => ?_
  exact (inside_range (by omega) le_rfl).bind fun _ _ => .ok _

/-- A frame that holds a boot option and nothing else. -/
theorem parseLoadOption_bytes (ho : o.Ok) (h : f.Has 0 o.bytes) (hlen : f.len = o.bytes.length) :
    parseLoadOption f = .ok o := by
  have h1 := h.right
  have h2 := h1.right
  have h3 := h2.right
  have h4 := h3.right
  simp only [LoadOptionView.bytes, List.length_append, length_toLE, length_utf16, List.length_cons,
    List.length_nil, Nat.zero_add, Nat.reduceAdd] at h1 h2 h3 h4 hlen
  have hattr := h.left.bytesAt
  have hfile := h1.left.bytesAt
  have hdesc := h2.left.left.range
  have hnul := h2.left
  have hpath := h3.left.range
  have hopt := h4.range
  rw [length_toLE] at hattr hfile
  rw [length_utf16] at hdesc
  have hlength : ofLE (toLE 2 o.filePath.length) = o.filePath.length := by
    have hlt : o.filePath.length < 256 ^ 2 := Nat.lt_of_le_of_lt ho.short (by decide)
    rw [ofLE_toLE, Nat.mod_eq_of_lt hlt]
  have hattributes : UInt32.ofNat (ofLE (toLE 4 o.attributes.toNat)) = o.attributes := by
    rw [ofLE_toLE, Nat.mod_eq_of_lt (show o.attributes.toNat < 256 ^ 4 from o.attributes.toNat_lt)]
    exact UInt32.ofNat_toNat
  have hoff : 6 + (2 * o.description.length + 2) = 6 + 2 * o.description.length + 2 := by omega
  have hend : 6 + 2 * o.description.length + 2 + o.filePath.length + o.optionalData.length = f.len := by omega
  rw [hoff] at hpath hopt
  rw [hend] at hopt
  unfold parseLoadOption
  rw [rejectIf_then (by omega), hattr, ok_then, hfile, ok_then, findNul16_eq ho.noNul hnul, ok_then, hdesc, ok_then,
    rejectIf_then (by simp), hlength, rejectIf_then (by omega), hpath, ok_then, hopt, ok_then, hattributes, units_utf16]

/-- What has a result is the boot option of its parts. -/
theorem parseLoadOption_eq_ok (h : parseLoadOption f = .ok o) :
    o.Ok ∧ f.Has 0 o.bytes ∧ o.bytes.length = f.len := by
  obtain ⟨_, hlen, h⟩ := scan_eq_ok h
  have hlen := rejectIf_eq_ok hlen
  obtain ⟨attributes, hattr, h⟩ := scan_eq_ok h
  obtain ⟨fileLength, hfile, h⟩ := scan_eq_ok h
  obtain ⟨i, hi, h⟩ := scan_eq_ok h
  obtain ⟨desc, hdesc, h⟩ := scan_eq_ok h
  obtain ⟨_, -, h⟩ := scan_eq_ok h
  obtain ⟨_, hroom, h⟩ := scan_eq_ok h
  obtain ⟨filePath, hpath, h⟩ := scan_eq_ok h
  obtain ⟨optionalData, hopt, h⟩ := scan_eq_ok h
  cases h
  have hroom := rejectIf_eq_ok hroom
  obtain ⟨us, hus, rfl, htext⟩ := findNul16_eq_ok hi
  have hattrLen := bytesAt_eq_ok hattr
  have hfileLen := bytesAt_eq_ok hfile
  have hpathLen := range_eq_ok hpath
  have hoptLen := range_eq_ok hopt
  have hdescEq : desc = utf16 us := by
    have hrange := htext.left.range
    rw [length_utf16, hdesc] at hrange
    exact Except.ok.inj hrange
  have hlt := ofLE_lt fileLength
  rw [hfileLen] at hlt
  have hattrBytes : toLE 4 (UInt32.ofNat (ofLE attributes)).toNat = attributes := by
    have hlt := ofLE_lt attributes
    rw [hattrLen] at hlt
    rw [UInt32.toNat_ofNat_of_lt' hlt, ← hattrLen]
    exact toLE_ofLE attributes
  have hfileBytes : toLE 2 filePath.length = fileLength := by
    rw [hpathLen, Nat.add_sub_cancel_left, ← hfileLen]
    exact toLE_ofLE fileLength
  have htextLen : (utf16 us ++ [0, 0]).length = 2 * us.length + 2 := by simp
  refine ⟨⟨?_, ?_⟩, ?_, ?_⟩
  · rw [hdescEq, units_utf16]
    exact hus
  · dsimp only
    omega
  · simp only [LoadOptionView.bytes, hattrBytes, hfileBytes, hdescEq, units_utf16]
    refine has_append.mpr ⟨has_of_bytesAt (by omega) hattr, ?_⟩
    rw [hattrLen]
    refine has_append.mpr ⟨has_of_bytesAt (by omega) hfile, ?_⟩
    rw [hfileLen]
    refine has_append.mpr ⟨htext, ?_⟩
    rw [htextLen]
    refine has_append.mpr ⟨has_of_range hpath, ?_⟩
    rw [hpathLen, Nat.add_sub_cancel_left]
    exact has_of_range hopt
  · simp only [LoadOptionView.bytes, hdescEq, units_utf16, List.length_append, length_toLE, length_utf16,
      List.length_cons, List.length_nil, hpathLen, hoptLen]
    omega

/-- **Boot options parse back**, and nothing else does. -/
theorem parseLoadOption_exact (data : List UInt8) : Exact data := by
  have hsome : ∀ o, parseLoadOption (.whole data) = .ok o ↔ o.Ok ∧ data = o.bytes := by
    intro o
    constructor
    · intro h
      obtain ⟨hok, hhas, hlen⟩ := parseLoadOption_eq_ok h
      exact ⟨hok, eq_of_has_whole hhas hlen⟩
    · rintro ⟨hok, rfl⟩
      exact parseLoadOption_bytes hok (has_whole _) rfl
  refine ⟨hsome, ?_, parseLoadOption_inside _⟩
  constructor
  · intro h o hok heq
    rw [(hsome o).mpr ⟨hok, heq⟩] at h
    cases h
  · intro h
    cases hc : parseLoadOption (.whole data) with
    | ok o => exact absurd ((hsome o).mp hc).2 (h o ((hsome o).mp hc).1)
    | error stop =>
      cases stop with
      | rejected => rfl
      | outside => exact absurd hc (parseLoadOption_inside _)

end Rustrapper.Uefi

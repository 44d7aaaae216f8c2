/-
# PCI option ROM images

`buildPciRom` wraps a payload into an expansion ROM: a ROM header, the PCI data
structure, for a BIOS image a three-byte entry routine, and the payload, padded
to whole 512-byte blocks. `Carries` reads an image back the way firmware does.
The block count is narrowed to 16 bits before the image is cut to it, so the
image carries its payload exactly when headers and payload fit in 65535 blocks
(`buildPciRom_carries_iff`).
-/
import Rustrapper.Codec.Bytes

namespace Rustrapper.Rom

open Codec

/-! ### The image -/

def romHeaderSize : ℕ := 0x1C

def pcirSize : ℕ := 0x18

def totalHeaders : ℕ := romHeaderSize + pcirSize

def biosEntrySize : ℕ := 3

/-- `Vec::resize` with zeros. -/
def resize (bs : List UInt8) (n : ℕ) : List UInt8 := bs.take n ++ List.replicate (n - bs.length) 0

/-- The offset of the payload in the image. -/
def payloadOffset (isBios : Bool) : ℕ := totalHeaders + if isBios then biosEntrySize else 0

/-- `total_blocks`: the 512-byte blocks the image needs, as a `u16`. -/
def totalBlocks (len : ℕ) (isBios : Bool) : ℕ := (payloadOffset isBios + len + 511) / 512 % 2 ^ 16

/-- The 28 bytes of the ROM header. -/
def romHeader (totalBlocks : ℕ) (isBios : Bool) : List UInt8 :=
  toLE 2 0xAA55 ++ toLE 2 (if isBios then totalHeaders else 0) ++ toLE 2 totalBlocks ++
    List.replicate 18 0 ++ toLE 4 romHeaderSize

/-- The code type: PC-AT or EFI. -/
def codeType (isBios : Bool) : UInt8 := if isBios then 0x00 else 0x03

/-- `b"PCIR"`. -/
def pcirSignature : List UInt8 := [0x50, 0x43, 0x49, 0x52]

/-- The 24 bytes of the PCI data structure. -/
def pcir (vendorId deviceId : UInt16) (totalBlocks : ℕ) (isBios : Bool) : List UInt8 :=
  pcirSignature ++ toLE 2 vendorId.toNat ++ toLE 2 deviceId.toNat ++ toLE 2 0 ++ toLE 2 pcirSize ++
    [0x00, codeType isBios, 0x80, 0x00] ++ toLE 2 totalBlocks ++ toLE 2 totalBlocks ++ List.replicate 4 0

/-- `xor ax, ax; retf`, in BIOS images only. -/
def entryRoutine (isBios : Bool) : List UInt8 := if isBios then [0x33, 0xC0, 0xCB] else []

/-- `build_pci_rom`. -/
def buildPciRom (peData : List UInt8) (vendorId deviceId : UInt16) (isBios : Bool) : List UInt8 :=
  let blocks := totalBlocks peData.length isBios
  resize (romHeader blocks isBios ++ pcir vendorId deviceId blocks isBios ++ entryRoutine isBios ++ peData)
    (blocks * 512)

/-! ### What firmware reads -/

/-- The `PCIR` pointer at offset 0x18 of the ROM header. -/
def pcirPointer (rom : List UInt8) : ℕ := ofLE (slice rom 0x18 4)

/-- The image decodes back to the ids, the code type and the payload it was made of. -/
structure Carries (rom peData : List UInt8) (vendorId deviceId : UInt16) (isBios : Bool) : Prop where
  signature : slice rom (pcirPointer rom) 4 = pcirSignature
  vendor : ofLE (slice rom (pcirPointer rom + 0x04) 2) = vendorId.toNat
  device : ofLE (slice rom (pcirPointer rom + 0x06) 2) = deviceId.toNat
  type : slice rom (pcirPointer rom + 0x0D) 1 = [codeType isBios]
  headerBlocks : rom.length = 512 * ofLE (slice rom 4 2)
  runtimeBlocks : rom.length = 512 * ofLE (slice rom (pcirPointer rom + 0x10) 2)
  storageBlocks : rom.length = 512 * ofLE (slice rom (pcirPointer rom + 0x12) 2)
  entry : slice rom totalHeaders (payloadOffset isBios - totalHeaders) = entryRoutine isBios
  room : payloadOffset isBios + peData.length ≤ rom.length
  payload : slice rom (payloadOffset isBios) peData.length = peData
  padding : ∀ b ∈ rom.drop (payloadOffset isBios + peData.length), b = 0

/-! ### When it reads them back -/

theorem length_resize (bs : List UInt8) (n : ℕ) : (resize bs n).length = n := by
  simp only [resize, List.length_append, List.length_take, List.length_replicate]
  omega

theorem resize_of_le {bs : List UInt8} {n : ℕ} (h : bs.length ≤ n) :
    resize bs n = bs ++ List.replicate (n - bs.length) 0 := by rw [resize, List.take_of_length_le h]

theorem totalBlocks_lt (len : ℕ) (isBios : Bool) : totalBlocks len isBios < 2 ^ 16 :=
  Nat.mod_lt _ (by decide)

/-- The whole image has the size its block count says. -/
theorem length_buildPciRom (peData : List UInt8) (vendorId deviceId : UInt16) (isBios : Bool) :
    (buildPciRom peData vendorId deviceId isBios).length = totalBlocks peData.length isBios * 512 :=
  length_resize _ _

/-- What stands before the payload. -/
def headers (vendorId deviceId : UInt16) (blocks : ℕ) (isBios : Bool) : List UInt8 :=
  romHeader blocks isBios ++ pcir vendorId deviceId blocks isBios ++ entryRoutine isBios

theorem length_headers (vendorId deviceId : UInt16) (blocks : ℕ) (isBios : Bool) :
    (headers vendorId deviceId blocks isBios).length = payloadOffset isBios := by
  cases isBios <;> rfl

/-- The payload fits when the blocks it needs can be counted in 16 bits. -/
theorem fits_of_le {len : ℕ} {isBios : Bool} (h : payloadOffset isBios + len ≤ 65535 * 512) :
    payloadOffset isBios + len ≤ totalBlocks len isBios * 512 := by
  have hn : (payloadOffset isBios + len + 511) / 512 < 2 ^ 16 := Nat.div_lt_of_lt_mul (by omega)
  have hblocks : totalBlocks len isBios = (payloadOffset isBios + len + 511) / 512 :=
    Nat.mod_eq_of_lt hn
  clear h
  omega

/-- The image when nothing is cut off: headers, payload, zeros. -/
theorem buildPciRom_eq {peData : List UInt8} {isBios : Bool} (vendorId deviceId : UInt16)
    (h : payloadOffset isBios + peData.length ≤ 65535 * 512) :
    ∃ k, buildPciRom peData vendorId deviceId isBios =
      headers vendorId deviceId (totalBlocks peData.length isBios) isBios ++
        (peData ++ List.replicate k 0) := by
  set blocks := totalBlocks peData.length isBios with hblocks
  have hlen : (headers vendorId deviceId blocks isBios ++ peData).length ≤ blocks * 512 := by
    rw [List.length_append, length_headers]
    exact fits_of_le h
  refine ⟨blocks * 512 - (headers vendorId deviceId blocks isBios ++ peData).length, ?_⟩
  rw [← List.append_assoc]
  exact resize_of_le hlen

/-- An image that carries its payload is no longer than its block count can say. -/
theorem Carries.fits {peData : List UInt8} {vendorId deviceId : UInt16} {isBios : Bool}
    (h : Carries (buildPciRom peData vendorId deviceId isBios) peData vendorId deviceId isBios) :
    payloadOffset isBios + peData.length ≤ 65535 * 512 := by
  have hroom := h.room
  have hb := totalBlocks_lt peData.length isBios
  rw [length_buildPciRom] at hroom
  calc payloadOffset isBios + peData.length
    _ ≤ totalBlocks peData.length isBios * 512 := hroom
    _ ≤ 65535 * 512 := Nat.mul_le_mul_right 512 (Nat.le_of_lt_succ hb)

/-- **Images carry the payload** when it fits in 65535 blocks with the headers,
and only then: a larger one is never rejected but cut off. -/
theorem buildPciRom_carries_iff (peData : List UInt8) (vendorId deviceId : UInt16) (isBios : Bool) :
    Carries (buildPciRom peData vendorId deviceId isBios) peData vendorId deviceId isBios ↔
      payloadOffset isBios + peData.length ≤ 65535 * 512 := by
  constructor
  · exact Carries.fits
  · intro h
    have hlen := length_buildPciRom peData vendorId deviceId isBios
    have hfit := fits_of_le h
    obtain ⟨k, hk⟩ := buildPciRom_eq vendorId deviceId h
    set blocks := totalBlocks peData.length isBios with hblocks
    have hcount : ofLE (toLE 2 blocks) = blocks := by
      rw [ofLE_toLE]
      exact Nat.mod_eq_of_lt (totalBlocks_lt _ _)
    have hid : ∀ v : UInt16, ofLE (toLE 2 v.toNat) = v.toNat := by
      intro v
      rw [ofLE_toLE]
      exact Nat.mod_eq_of_lt v.toNat_lt
    -- every field of the headers is read at a fixed offset
    have hptr : pcirPointer (buildPciRom peData vendorId deviceId isBios) = 0x1C := by
      rw [hk]
      rfl
    have hhead := length_headers vendorId deviceId blocks isBios
    constructor
    · rw [hptr, hk]
      rfl
    · rw [hptr, hk]
      exact hid vendorId
    · rw [hptr, hk]
      exact hid deviceId
    · rw [hptr, hk]
      rfl
    · have : ofLE (slice (buildPciRom peData vendorId deviceId isBios) 4 2) = blocks := by
        rw [hk]
        exact hcount
      omega
    · rw [hptr]
      have : ofLE (slice (buildPciRom peData vendorId deviceId isBios) (0x1C + 0x10) 2) = blocks := by
        rw [hk]
        exact hcount
      omega
    · rw [hptr]
      have : ofLE (slice (buildPciRom peData vendorId deviceId isBios) (0x1C + 0x12) 2) = blocks := by
        rw [hk]
        exact hcount
      omega
    · rw [hk]
      cases isBios <;> rfl
    · omega
    · rw [hk, ← hhead, slice_append]
      exact List.take_left
    · rw [hk, ← List.append_assoc, List.drop_left' (by rw [List.length_append, hhead])]
      exact fun b hb => List.eq_of_mem_replicate hb

/-- A payload of one byte more than fits loses its end. -/
theorem long_payload_cut : ¬ Carries
    (buildPciRom (List.replicate (65535 * 512 - 52 + 1) 0xAB) 0x8086 0x100E false)
    (List.replicate (65535 * 512 - 52 + 1) 0xAB) 0x8086 0x100E false := by
  intro h
  have hfits := h.fits
  rw [List.length_replicate] at hfits
  exact absurd hfits (by decide)

end Rustrapper.Rom

/-
# TFTP packets

The packets of `tftp.rs`: the payload of a UDP datagram, DATA and OACK packets
read, ACK packets written. The readers stay inside the frame (`udpPayload_inside`,
`parseData_inside`, `parseOack_inside`).
-/
import Rustrapper.Codec.Scan

namespace Rustrapper.Net.Tftp

open Codec

def opData : ℕ := 3

def opAck : ℕ := 4

def opError : ℕ := 5

def opOack : ℕ := 6

/-- `DEFAULT_BLKSIZE`. -/
def defaultBlksize : ℕ := 512

/-- `udp_payload`: the payload, bounded by the UDP length. -/
def udpPayload (f : Frame) : Scan (List UInt8) := do
  rejectIf (f.len < 42)
  f.expect 12 [0x08, 0x00]
  let ihl ← f.byte 14
  let udpOffset := 14 + (ihl &&& 0x0F).toNat * 4
  rejectIf (f.len < udpOffset + 8)
  let udpLen ← f.number (udpOffset + 4) 2
  let payloadOff := udpOffset + 8
  let payloadEnd := min (udpOffset + udpLen) f.len
  rejectIf (payloadEnd < payloadOff)
  f.range payloadOff payloadEnd

/-- `parse_data`: block number and data. -/
def parseData (f : Frame) : Scan (ℕ × List UInt8) := do
  rejectIf (f.len < 4)
  let opcode ← f.number 0 2
  rejectIf (opcode ≠ opData)
  let block ← f.number 2 2
  let data ← f.range 4 f.len
  .ok (block, data)

/-- `build_ack`: the four bytes of the packet. -/
def buildAck (block : ℕ) : List UInt8 := toBE 2 opAck ++ toBE 2 block

/-! ### Options -/

/-- One turn of `parse_decimal`; a `usize` has `bits` bits. -/
def decimalStep (bits : ℕ) (b : UInt8) (result : ℕ) : Scan ℕ :=
  if 0x30 ≤ b ∧ b ≤ 0x39 then do
    let digit ← minus b.toNat 0x30
    .ok ((result * 10 + digit) % 2 ^ bits)
  else .error .rejected

/-- `parse_decimal` from `result` on. -/
def parseDecimal (bits : ℕ) : List UInt8 → ℕ → Scan ℕ
  | [], result => .ok result
  | b :: bs, result => do
    let result ← decimalStep bits b result
    parseDecimal bits bs result

/-- `while pos < len && buf[pos] != 0 { pos += 1; }`. -/
def findNul (f : Frame) (pos : ℕ) : Scan { p // pos ≤ p } :=
  if h : pos < f.len then do
    let b ← f.byte pos
    if b ≠ 0 then do
      let p ← findNul f (pos + 1)
      .ok ⟨p.1, by omega⟩
    else .ok ⟨pos, le_rfl⟩
  else .ok ⟨pos, le_rfl⟩
termination_by f.len - pos

/-- `b"blksize"`. -/
def blksizeKey : List UInt8 := [0x62, 0x6C, 0x6B, 0x73, 0x69, 0x7A, 0x65]

/-- `b"tsize"`. -/
def tsizeKey : List UInt8 := [0x74, 0x73, 0x69, 0x7A, 0x65]

/-- An option sets the block size or the transfer size, if its value is a number. -/
def setOption (bits : ℕ) (key val : List UInt8) (sizes : ℕ × ℕ) : Scan (ℕ × ℕ) :=
  if key = blksizeKey then do
    let size ← (parseDecimal bits val 0).optional
    .ok (size.getD sizes.1, sizes.2)
  else if key = tsizeKey then do
    let size ← (parseDecimal bits val 0).optional
    .ok (sizes.1, size.getD sizes.2)
  else .ok sizes

/-- The options from `pos` on. -/
def oackLoop (bits : ℕ) (f : Frame) (pos : ℕ) (sizes : ℕ × ℕ) : Scan (ℕ × ℕ) :=
  if h : pos < f.len then do
    let keyEnd ← findNul f pos
    if f.len ≤ keyEnd.1 then .ok sizes
    else do
      let key ← f.range pos keyEnd.1
      let valEnd ← findNul f (keyEnd.1 + 1)
      if f.len ≤ valEnd.1 then .ok sizes
      else do
        let val ← f.range (keyEnd.1 + 1) valEnd.1
        let sizes ← setOption bits key val sizes
        oackLoop bits f (valEnd.1 + 1) sizes
  else .ok sizes
termination_by f.len - pos
decreasing_by
  have := keyEnd.2
  have := valEnd.2
  omega

/-- `parse_oack`: block size and transfer size. -/
def parseOack (bits : ℕ) (f : Frame) : Scan (ℕ × ℕ) := do
  rejectIf (f.len < 2)
  let opcode ← f.number 0 2
  rejectIf (opcode ≠ opOack)
  oackLoop bits f 2 (defaultBlksize, 0)

/-! ### They stay inside -/

variable {f : Frame} {bits : ℕ}

/-- **`udp_payload` stays inside the frame.** -/
theorem udpPayload_inside (f : Frame) : Inside (udpPayload f) := by
  refine .rejectIf fun hlen => ?_
  refine (inside_expect _ (by simp only [List.length_cons, List.length_nil]; omega)).bind fun _ _ => ?_
  refine (inside_byte (by omega)).bind fun ihl _ => .rejectIf fun hudp => ?_
  refine (inside_number (by omega)).bind fun udpLen _ => .rejectIf fun hend => ?_
  exact inside_range (not_lt.mp hend) (min_le_right _ _)

/-- **`parse_data` stays inside the packet.** -/
theorem parseData_inside (f : Frame) : Inside (parseData f) := by
  refine .rejectIf fun hlen => ?_
  refine (inside_number (by omega)).bind fun opcode _ => .rejectIf fun _ => ?_
  refine (inside_number (by omega)).bind fun block _ => ?_
  exact (inside_range (by omega) le_rfl).bind fun _ _ => .ok _

theorem decimalStep_inside (b : UInt8) (result : ℕ) : Inside (decimalStep bits b result) := by
  unfold decimalStep
  by_cases h : 0x30 ≤ b ∧ b ≤ 0x39
  · rw [if_pos h]
    exact (inside_minus (UInt8.le_iff_toNat_le.mp h.1)).bind fun _ _ => .ok _
  · rw [if_neg h]
    simp [Inside]

theorem parseDecimal_inside : ∀ (bs : List UInt8) (result : ℕ), Inside (parseDecimal bits bs result)
  | [], _ => .ok _
  | b :: bs, result => (decimalStep_inside b result).bind fun r _ => parseDecimal_inside bs r

theorem setOption_inside (key val : List UInt8) (sizes : ℕ × ℕ) :
    Inside (setOption bits key val sizes) := by
  unfold setOption
  by_cases h1 : key = blksizeKey
  · rw [if_pos h1]
    exact (parseDecimal_inside val 0).optional.bind fun _ _ => .ok _
  rw [if_neg h1]
  by_cases h2 : key = tsizeKey
  · rw [if_pos h2]
    exact (parseDecimal_inside val 0).optional.bind fun _ _ => .ok _
  · rw [if_neg h2]
    exact .ok _

theorem findNul_inside (f : Frame) (pos : ℕ) : Inside (findNul f pos) := by
  induction pos using findNul.induct (f := f) with
  | case1 pos h ih =>
    unfold findNul
    rw [dif_pos h]
    refine (inside_byte h).bind fun b _ => ?_
    by_cases hb : b ≠ 0
    · rw [if_pos hb]
      exact ih.bind fun _ _ => .ok _
    · rw [if_neg hb]
      exact .ok _
  | case2 pos h =>
    unfold findNul
    rw [dif_neg h]
    exact .ok _

theorem oackLoop_inside (f : Frame) (pos : ℕ) (sizes : ℕ × ℕ) : Inside (oackLoop bits f pos sizes) := by
  induction pos, sizes using oackLoop.induct (f := f) with
  | case1 pos sizes h ih =>
    unfold oackLoop
    rw [dif_pos h]
    refine (findNul_inside f pos).bind fun keyEnd _ => ?_
    by_cases hk : f.len ≤ keyEnd.1
    · rw [if_pos hk]
      exact .ok _
    rw [if_neg hk]
    refine (inside_range keyEnd.2 (not_le.mp hk).le).bind fun key _ => ?_
    refine (findNul_inside f _).bind fun valEnd _ => ?_
    by_cases hv : f.len ≤ valEnd.1
    · rw [if_pos hv]
      exact .ok _
    rw [if_neg hv]
    refine (inside_range valEnd.2 (not_le.mp hv).le).bind fun val _ => ?_
    exact (setOption_inside key val sizes).bind fun sizes' _ => ih keyEnd valEnd hv sizes'
  | case2 pos sizes h =>
    unfold oackLoop
    rw [dif_neg h]
    exact .ok _

/-- **`parse_oack` stays inside the packet.** -/
theorem parseOack_inside (bits : ℕ) (f : Frame) : Inside (parseOack bits f) := by
  refine .rejectIf fun hlen => ?_
  refine (inside_number (by omega)).bind fun opcode _ => .rejectIf fun _ => ?_
  exact oackLoop_inside f 2 _

end Rustrapper.Net.Tftp

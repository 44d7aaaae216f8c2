/-
# DHCP responses

`parse_response` of `dhcp.rs`: the checks on the headers, the fixed fields, the
boot file name, and the walk over the options. It stays inside the frame
whatever header lengths and option lengths the bytes encode
(`parseResponse_inside`).
-/
import Rustrapper.Codec.Scan

namespace Rustrapper.Net.Dhcp

open Codec

/-- A DHCP result. -/
structure DhcpConfig where
  yiaddr : Vector UInt8 4
  subnet : Vector UInt8 4
  gateway : Vector UInt8 4
  dns : Vector UInt8 4
  nextServer : Vector UInt8 4
  bootfile : Vector UInt8 128

/-! ### IPv4 literals -/

/-- Where `parse_ip_string` is in a literal. -/
structure IpState where
  ip : Vector UInt8 4 := Vector.replicate 4 0
  octet : ℕ := 0
  octetIdx : ℕ := 0
  hasDigit : Bool := false

/-- The loop of `parse_ip_string`; a NUL ends it. -/
def ipLoop : List UInt8 → IpState → Scan IpState
  | [], st => .ok st
  | b :: bs, st =>
    if b = 0 then .ok st
    else if 0x30 ≤ b ∧ b ≤ 0x39 then do
      let digit ← minus b.toNat 0x30
      let octet := st.octet * 10 + digit
      rejectIf (octet > 255)
      ipLoop bs { st with octet := octet, hasDigit := true }
    else if b = 0x2E then do
      rejectIf (st.hasDigit = false ∨ 3 ≤ st.octetIdx)
      let ip ← store st.ip st.octetIdx (UInt8.ofNat st.octet)
      ipLoop bs { ip := ip, octet := 0, octetIdx := st.octetIdx + 1, hasDigit := false }
    else .error .rejected

/-- `parse_ip_string`. -/
def parseIpString (s : List UInt8) : Scan (Vector UInt8 4) := do
  let st ← ipLoop s {}
  rejectIf (st.hasDigit = false ∨ st.octetIdx ≠ 3)
  store st.ip st.octetIdx (UInt8.ofNat st.octet)

/-! ### Options -/

/-- What the options set. -/
structure Options where
  msgType : UInt8
  subnet : Vector UInt8 4
  gateway : Vector UInt8 4
  dns : Vector UInt8 4
  nextServer : Vector UInt8 4
  bootfile : Vector UInt8 128

/-- The four bytes of an option at `off`. -/
def address (f : Frame) (off : ℕ) : Scan (Vector UInt8 4) := do
  let bs ← f.range (off + 2) (off + 6)
  copyFromSlice 4 bs

/-- The option at `off`, of type `ty` and with `len` bytes. -/
def setOption (f : Frame) (o : Options) (ty : UInt8) (off len : ℕ) : Scan Options :=
  if ty = 53 ∧ len = 1 then do
    let t ← f.byte (off + 2)
    .ok { o with msgType := t }
  else if ty = 1 ∧ len = 4 then do
    let a ← address f off
    .ok { o with subnet := a }
  else if ty = 3 ∧ 4 ≤ len then do
    let a ← address f off
    .ok { o with gateway := a }
  else if ty = 6 ∧ 4 ≤ len then do
    let a ← address f off
    .ok { o with dns := a }
  else if ty = 66 ∧ 4 ≤ len then
    if len = 4 then do
      let a ← address f off
      .ok { o with nextServer := a }
    else do
      let s ← f.range (off + 2) (off + 2 + len)
      let ip ← (parseIpString s).optional
      .ok { o with nextServer := ip.getD o.nextServer }
  else if ty = 67 ∧ 0 < len then do
    let copyLen := min len 127
    let bs ← f.range (off + 2) (off + 2 + copyLen)
    let b ← copyInto o.bootfile bs
    let b ← store b copyLen 0
    .ok { o with bootfile := b }
  else .ok o

/-- The options from `off` on, up to option 255 or one that does not fit. -/
def walk (f : Frame) (off : ℕ) (o : Options) : Scan Options :=
  if h : off + 1 < f.len then do
    let ty ← f.byte off
    if ty = 255 then .ok o
    else do
      let len ← f.byte (off + 1)
      if f.len < off + 2 + len.toNat then .ok o
      else do
        let o ← setOption f o ty off len.toNat
        walk f (off + 2 + len.toNat) o
  else .ok o
termination_by f.len - off

/-! ### The response -/

/-- Copy a name up to a NUL, and a NUL behind it. -/
def copyName : List UInt8 → ℕ → Vector UInt8 128 → Scan (Vector UInt8 128)
  | [], n, b => store b n 0
  | c :: cs, n, b =>
    if c = 0 then store b n 0
    else do
      let b ← store b n c
      copyName cs (n + 1) b

/-- `dhcp::parse_response`. -/
def parseResponse (f : Frame) (xid : UInt32) (mac : Vector UInt8 6) : Scan DhcpConfig := do
  rejectIf (f.len < 282)
  f.expect 12 [0x08, 0x00]
  let ihl ← f.byte 14
  let ipHdrLen := (ihl &&& 0x0F).toNat * 4
  rejectIf (ipHdrLen < 20)
  f.expect 23 [17]
  let dhcpOff := 14 + ipHdrLen + 8
  let dhcpLen ← minus f.len dhcpOff
  rejectIf (dhcpLen < 240)
  rejectIf (f.len < dhcpOff + 4)
  f.expect (dhcpOff + 236) [0x63, 0x82, 0x53, 0x63]
  let pktXid ← f.number (dhcpOff + 4) 4
  rejectIf (pktXid ≠ xid.toNat)
  f.expect (dhcpOff + 28) mac.toList
  let yiaddr ← f.bytesAt (dhcpOff + 16) 4
  let yiaddr ← copyFromSlice 4 yiaddr
  let siaddr ← f.bytesAt (dhcpOff + 20) 4
  let siaddr ← copyFromSlice 4 siaddr
  let file ← f.range (dhcpOff + 108) (dhcpOff + 235)
  let bootfile ← copyName file 0 (Vector.replicate 128 0)
  let o ← walk f (dhcpOff + 240)
    ⟨0, Vector.replicate 4 255, Vector.replicate 4 0, Vector.replicate 4 0, siaddr, bootfile⟩
  rejectIf (o.msgType ≠ 2 ∧ o.msgType ≠ 5)
  .ok ⟨yiaddr, o.subnet, o.gateway, o.dns, o.nextServer, o.bootfile⟩

/-! ### It stays inside -/

variable {f : Frame}

theorem ipLoop_inside : ∀ (bs : List UInt8) (st : IpState), Inside (ipLoop bs st)
  | [], _ => .ok _
  | b :: bs, st => by
    unfold ipLoop
    by_cases h0 : b = 0
    · rw [if_pos h0]
      exact .ok _
    rw [if_neg h0]
    by_cases hd : 0x30 ≤ b ∧ b ≤ 0x39
    · rw [if_pos hd]
      have hle : 0x30 ≤ b.toNat := UInt8.le_iff_toNat_le.mp hd.1
      exact (inside_minus hle).bind fun _ _ => .rejectIf fun _ => ipLoop_inside bs _
    rw [if_neg hd]
    by_cases hdot : b = 0x2E
    · rw [if_pos hdot]
      refine .rejectIf fun h => ?_
      have hidx : st.octetIdx < 4 := by
        rw [not_or] at h
        omega
      exact (inside_store hidx).bind fun _ _ => ipLoop_inside bs _
    · rw [if_neg hdot]
      simp [Inside]

theorem parseIpString_inside (s : List UInt8) : Inside (parseIpString s) := by
  refine (ipLoop_inside s _).bind fun st _ => .rejectIf fun h => ?_
  apply inside_store
  rw [not_or] at h
  omega

theorem address_inside {off : ℕ} (h : off + 6 ≤ f.len) : Inside (address f off) := by
  refine (inside_range (by omega) h).bind fun bs hbs => inside_copyFromSlice ?_
  rw [range_eq_ok hbs]
  omega

/-- An option that fits in the frame is read inside it. -/
theorem setOption_inside (o : Options) (ty : UInt8) {off len : ℕ} (h : off + 2 + len ≤ f.len) :
    Inside (setOption f o ty off len) := by
  unfold setOption
  by_cases h1 : ty = 53 ∧ len = 1
  · rw [if_pos h1]
    exact (inside_byte (by omega)).bind fun _ _ => .ok _
  rw [if_neg h1]
  by_cases h2 : ty = 1 ∧ len = 4
  · rw [if_pos h2]
    exact (address_inside (by omega)).bind fun _ _ => .ok _
  rw [if_neg h2]
  by_cases h3 : ty = 3 ∧ 4 ≤ len
  · rw [if_pos h3]
    exact (address_inside (by omega)).bind fun _ _ => .ok _
  rw [if_neg h3]
  by_cases h4 : ty = 6 ∧ 4 ≤ len
  · rw [if_pos h4]
    exact (address_inside (by omega)).bind fun _ _ => .ok _
  rw [if_neg h4]
  by_cases h5 : ty = 66 ∧ 4 ≤ len
  · rw [if_pos h5]
    by_cases h6 : len = 4
    · rw [if_pos h6]
      exact (address_inside (by omega)).bind fun _ _ => .ok _
    · rw [if_neg h6]
      refine (inside_range (by omega) h).bind fun s _ => ?_
      exact (parseIpString_inside s).optional.bind fun _ _ => .ok _
  rw [if_neg h5]
  by_cases h7 : ty = 67 ∧ 0 < len
  · rw [if_pos h7]
    refine (inside_range (by omega) (by omega)).bind fun bs hbs => ?_
    have hlen : bs.length ≤ 128 := by
      rw [range_eq_ok hbs]
      omega
    exact (inside_copyInto hlen).bind fun _ _ => (inside_store (by omega)).bind fun _ _ => .ok _
  · rw [if_neg h7]
    exact .ok _

theorem walk_inside (f : Frame) (off : ℕ) (o : Options) : Inside (walk f off o) := by
  induction off, o using walk.induct (f := f) with
  | case1 off o h ih =>
    unfold walk
    rw [dif_pos h]
    refine (inside_byte (by omega)).bind fun ty _ => ?_
    by_cases hend : ty = 255
    · rw [if_pos hend]
      exact .ok _
    rw [if_neg hend]
    refine (inside_byte h).bind fun len _ => ?_
    by_cases hfit : f.len < off + 2 + len.toNat
    · rw [if_pos hfit]
      exact .ok _
    · rw [if_neg hfit]
      exact (setOption_inside o ty (not_lt.mp hfit)).bind fun o' _ => ih len hfit o'
  | case2 off o h =>
    unfold walk
    rw [dif_neg h]
    exact .ok _

theorem copyName_inside : ∀ (cs : List UInt8) (n : ℕ) (b : Vector UInt8 128), n + cs.length < 128 →
    Inside (copyName cs n b)
  | [], n, b, h => inside_store h
  | c :: cs, n, b, h => by
    rw [List.length_cons] at h
    unfold copyName
    by_cases hc : c = 0
    · rw [if_pos hc]
      exact inside_store (by omega)
    · rw [if_neg hc]
      exact (inside_store (by omega)).bind fun b' _ => copyName_inside cs (n + 1) b' (by omega)

/-- The header length is that of four bits. -/
theorem ipHdrLen_le (b : UInt8) : (b &&& 0x0F).toNat * 4 ≤ 60 := by
  have h : (b &&& 0x0F).toNat ≤ 0x0F := by
    rw [UInt8.toNat_and]
    exact Nat.and_le_right
  omega

/-- **`parse_response` stays inside the frame.** -/
theorem parseResponse_inside (f : Frame) (xid : UInt32) (mac : Vector UInt8 6) :
    Inside (parseResponse f xid mac) := by
  refine .rejectIf fun hlen => ?_
  refine (inside_expect _ (by simp only [List.length_cons, List.length_nil]; omega)).bind fun _ _ => ?_
  refine (inside_byte (by omega)).bind fun ihl _ => ?_
  have hihl := ipHdrLen_le ihl
  refine .rejectIf fun hmin => ?_
  refine (inside_expect _ (by simp only [List.length_cons, List.length_nil]; omega)).bind fun _ _ => ?_
  refine (inside_minus (by omega)).bind fun dhcpLen hdhcp => ?_
  obtain ⟨-, rfl⟩ := minus_eq_ok hdhcp
  refine .rejectIf fun h240 => .rejectIf fun _ => ?_
  refine (inside_expect _ (by simp only [List.length_cons, List.length_nil]; omega)).bind fun _ _ => ?_
  refine (inside_number (by omega)).bind fun _ _ => .rejectIf fun _ => ?_
  refine (inside_expect _ (by rw [Vector.length_toList]; omega)).bind fun _ _ => ?_
  refine (inside_bytesAt 4 (by omega)).bind fun yiaddr hy => ?_
  refine (inside_copyFromSlice (bytesAt_eq_ok hy)).bind fun _ _ => ?_
  refine (inside_bytesAt 4 (by omega)).bind fun siaddr hs => ?_
  refine (inside_copyFromSlice (bytesAt_eq_ok hs)).bind fun _ _ => ?_
  refine (inside_range (by omega) (by omega)).bind fun file hf => ?_
  have hfile := range_eq_ok hf
  refine (copyName_inside file 0 _ (by omega)).bind fun _ _ => ?_
  exact (walk_inside f _ _).bind fun _ _ => .rejectIf fun _ => .ok _

end Rustrapper.Net.Dhcp

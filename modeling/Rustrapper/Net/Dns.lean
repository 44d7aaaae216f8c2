/-
# DNS responses

`parse_response` of `dns.rs`: the checks on the headers, the questions skipped
name by name, and the first A record among the answers. It stays inside the
frame whatever labels, pointers, counts and record lengths the bytes encode
(`parseResponse_inside`).
-/
import Rustrapper.Codec.Scan

namespace Rustrapper.Net.Dns

open Codec

/-- `skip_name`: the offset behind a name that may end in a compression pointer. -/
def skipName (f : Frame) (off : ℕ) : Scan ℕ :=
  if h : off < f.len then do
    let b ← f.byte off
    if b = 0 then .ok (off + 1)
    else if b &&& 0xC0 = 0xC0 then .ok (off + 2)
    else skipName f (off + (1 + b.toNat))
  else .error .rejected
termination_by f.len - off

/-- Skip `n` questions. -/
def skipQuestions (f : Frame) : ℕ → ℕ → Scan ℕ
  | 0, off => .ok off
  | n + 1, off => do
    let off ← skipName f off
    rejectIf (f.len < off + 4)
    skipQuestions f n (off + 4)

/-- The first A record among `n` answers. -/
def findA (f : Frame) : ℕ → ℕ → Scan (Vector UInt8 4)
  | 0, _ => .error .rejected
  | n + 1, off => do
    let off ← skipName f off
    rejectIf (f.len < off + 10)
    let rtype ← f.number off 2
    let _rclass ← f.number (off + 2) 2
    let _ttl ← f.number (off + 4) 4
    let rdlength ← f.number (off + 8) 2
    rejectIf (f.len < off + 10 + rdlength)
    if rtype = 1 ∧ rdlength = 4 then do
      let bs ← f.bytesAt (off + 10) 4
      copyFromSlice 4 bs
    else findA f n (off + 10 + rdlength)

/-- `dns::parse_response`. -/
def parseResponse (f : Frame) (id : UInt16) : Scan (Vector UInt8 4) := do
  rejectIf (f.len < 42)
  f.expect 12 [0x08, 0x00]
  let ihl ← f.byte 14
  let ipHdrLen := (ihl &&& 0x0F).toNat * 4
  rejectIf (ipHdrLen < 20)
  f.expect 23 [17]
  let udpOff := 14 + ipHdrLen
  rejectIf (f.len < udpOff + 8)
  let _replyDstPort ← f.number (udpOff + 2) 2
  let replySrcPort ← f.number udpOff 2
  rejectIf (replySrcPort ≠ 53)
  let dnsOff := udpOff + 8
  rejectIf (f.len < dnsOff + 12)
  let pktId ← f.number dnsOff 2
  rejectIf (pktId ≠ id.toNat)
  let flags ← f.number (dnsOff + 2) 2
  rejectIf (flags % 16 ≠ 0)
  let qdcount ← f.number (dnsOff + 4) 2
  let ancount ← f.number (dnsOff + 6) 2
  rejectIf (ancount = 0)
  let off ← skipQuestions f qdcount (dnsOff + 12)
  findA f ancount off

/-! ### It stays inside -/

variable {f : Frame}

theorem skipName_inside (f : Frame) (off : ℕ) : Inside (skipName f off) := by
  induction off using skipName.induct (f := f) with
  | case1 off h ih =>
    unfold skipName
    rw [dif_pos h]
    refine (inside_byte h).bind fun b _ => ?_
    by_cases h0 : b = 0
    · rw [if_pos h0]
      exact .ok _
    rw [if_neg h0]
    by_cases hp : b &&& 0xC0 = 0xC0
    · rw [if_pos hp]
      exact .ok _
    · rw [if_neg hp]
      exact ih b
  | case2 off h =>
    unfold skipName
    rw [dif_neg h]
    simp [Inside]

theorem skipQuestions_inside : ∀ n off, Inside (skipQuestions f n off)
  | 0, _ => .ok _
  | n + 1, off =>
    (skipName_inside f off).bind fun off' _ => .rejectIf fun _ => skipQuestions_inside n (off' + 4)

theorem findA_inside : ∀ n off, Inside (findA f n off)
  | 0, _ => by simp [findA, Inside]
  | n + 1, off => by
    refine (skipName_inside f off).bind fun off _ => .rejectIf fun hroom => ?_
    refine (inside_number (by omega)).bind fun rtype _ => ?_
    refine (inside_number (by omega)).bind fun _ _ => ?_
    refine (inside_number (by omega)).bind fun _ _ => ?_
    refine (inside_number (by omega)).bind fun rdlength _ => .rejectIf fun hdata => ?_
    by_cases ha : rtype = 1 ∧ rdlength = 4
    · rw [if_pos ha]
      refine (inside_bytesAt 4 (by omega)).bind fun bs hbs => ?_
      exact inside_copyFromSlice (bytesAt_eq_ok hbs)
    · rw [if_neg ha]
      exact findA_inside n _

/-- **`parse_response` stays inside the frame.** -/
theorem parseResponse_inside (f : Frame) (id : UInt16) : Inside (parseResponse f id) := by
  refine .rejectIf fun hlen => ?_
  refine (inside_expect _ (by simp only [List.length_cons, List.length_nil]; omega)).bind fun _ _ => ?_
  refine (inside_byte (by omega)).bind fun ihl _ => .rejectIf fun _ => ?_
  refine (inside_expect _ (by simp only [List.length_cons, List.length_nil]; omega)).bind fun _ _ => ?_
  refine .rejectIf fun hudp => ?_
  refine (inside_number (by omega)).bind fun _ _ => ?_
  refine (inside_number (by omega)).bind fun _ _ => .rejectIf fun _ => .rejectIf fun hdns => ?_
  refine (inside_number (by omega)).bind fun _ _ => .rejectIf fun _ => ?_
  refine (inside_number (by omega)).bind fun _ _ => .rejectIf fun _ => ?_
  refine (inside_number (by omega)).bind fun qdcount _ => ?_
  refine (inside_number (by omega)).bind fun ancount _ => .rejectIf fun _ => ?_
  exact (skipQuestions_inside qdcount _).bind fun off _ => findA_inside ancount off

end Rustrapper.Net.Dns

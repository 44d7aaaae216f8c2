/-
# ARP replies

`parse_reply` of `arp.rs` reads fields at fixed offsets of a frame that is long
enough for all of them (`parseReply_inside`).
-/
import Rustrapper.Codec.Scan

namespace Rustrapper.Net.Arp

open Codec

/-- `arp::parse_reply`: the sender's MAC address in a reply for `targetIp`. -/
def parseReply (f : Frame) (targetIp : Vector UInt8 4) : Scan (Vector UInt8 6) := do
  rejectIf (f.len < 42)
  f.expect 12 [0x08, 0x06]
  f.expect 14 [0x00, 0x01, 0x08, 0x00]
  f.expect 18 [6, 4]
  f.expect 20 [0x00, 0x02]
  let spa ← f.bytesAt 28 4
  rejectIf (spa ≠ targetIp.toList)
  let mac ← f.bytesAt 22 6
  copyFromSlice 6 mac

/-- **`parse_reply` stays inside the frame.** -/
theorem parseReply_inside (f : Frame) (targetIp : Vector UInt8 4) : Inside (parseReply f targetIp) := by
  refine .rejectIf fun hlen => ?_
  refine (inside_expect _ (by simp only [List.length_cons, List.length_nil]; omega)).bind fun _ _ => ?_
  refine (inside_expect _ (by simp only [List.length_cons, List.length_nil]; omega)).bind fun _ _ => ?_
  refine (inside_expect _ (by simp only [List.length_cons, List.length_nil]; omega)).bind fun _ _ => ?_
  refine (inside_expect _ (by simp only [List.length_cons, List.length_nil]; omega)).bind fun _ _ => ?_
  refine (inside_bytesAt 4 (by omega)).bind fun spa _ => .rejectIf fun _ => ?_
  exact (inside_bytesAt 6 (by omega)).bind fun mac hmac => inside_copyFromSlice (bytesAt_eq_ok hmac)

end Rustrapper.Net.Arp

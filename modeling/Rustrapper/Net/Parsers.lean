/-
# The network parsers stay inside the frame

Every parser of received bytes is total, its loops being recursions on the rest
of the frame or on a count, and reads only below `len` (`parsers_inside`).
-/
import Rustrapper.Net.Dhcp
import Rustrapper.Net.Dns
import Rustrapper.Net.Tftp
import Rustrapper.Net.Arp

namespace Rustrapper.Net

open Codec

/-- **No parser leaves its frame**, whatever the bytes encode: no index or slice
ends behind `len`, and no subtraction goes below zero. -/
theorem parsers_inside (f : Frame) :
    (∀ xid mac, Inside (Dhcp.parseResponse f xid mac)) ∧
    (∀ id, Inside (Dns.parseResponse f id)) ∧
    (∀ targetIp, Inside (Arp.parseReply f targetIp)) ∧
    Inside (Tftp.udpPayload f) ∧
    Inside (Tftp.parseData f) ∧
    ∀ bits, Inside (Tftp.parseOack bits f) := by
  refine ⟨?_, ?_, ?_, ?_, ?_, ?_⟩
  · exact fun xid mac => Dhcp.parseResponse_inside f xid mac
  · exact fun id => Dns.parseResponse_inside f id
  · exact fun targetIp => Arp.parseReply_inside f targetIp
  · exact Tftp.udpPayload_inside f
  · exact Tftp.parseData_inside f
  · exact fun bits => Tftp.parseOack_inside bits f

end Rustrapper.Net

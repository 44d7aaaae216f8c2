/-
# UDP in Ethernet frames

A frame with an IPv4 header of any length in front of a UDP datagram, and what
the parsers find at its start.
-/
import Rustrapper.Codec.Layout

namespace Rustrapper.Net

open Codec

/-- An IPv4 header of the length it says, in front of UDP. -/
structure IpHeader where
  first : UInt8
  middle : Vector UInt8 8
  last : List UInt8
  sized : 10 + last.length = (first &&& 0x0F).toNat * 4
  whole : 20 ≤ 10 + last.length

def IpHeader.bytes (h : IpHeader) : List UInt8 := h.first :: (h.middle.toList ++ 17 :: h.last)

/-- The header without options. -/
def IpHeader.short : IpHeader :=
  ⟨0x45, Vector.replicate 8 0, Vector.toList (Vector.replicate 10 0), by decide, by decide⟩

/-- A datagram in its frame: the MAC addresses, the type, the IPv4 header. -/
def ipFrame (macs : Vector UInt8 12) (ip : IpHeader) (datagram : List UInt8) : List UInt8 :=
  macs.toList ++ ([0x08, 0x00] ++ (ip.bytes ++ datagram))

/-- What a parser finds in front of the datagram. -/
structure HasDatagram (f : Frame) (ip : IpHeader) (datagram : List UInt8) : Prop where
  type : f.expect 12 [0x08, 0x00] = .ok ()
  ihl : f.byte 14 = .ok ip.first
  min : 20 ≤ (ip.first &&& 0x0F).toNat * 4
  protocol : f.expect 23 [17] = .ok ()
  datagram : f.Has (14 + (ip.first &&& 0x0F).toNat * 4) datagram

theorem IpHeader.length_bytes (h : IpHeader) : h.bytes.length = (h.first &&& 0x0F).toNat * 4 := by
  rw [← h.sized, IpHeader.bytes]
  simp
  omega

theorem length_ipFrame (macs : Vector UInt8 12) (ip : IpHeader) (datagram : List UInt8) :
    (ipFrame macs ip datagram).length = 14 + (ip.first &&& 0x0F).toNat * 4 + datagram.length := by
  simp [ipFrame, ip.length_bytes]
  omega

theorem hasDatagram {f : Frame} {macs : Vector UInt8 12} {ip : IpHeader} {datagram : List UInt8}
    (h : f.Has 0 (ipFrame macs ip datagram)) : HasDatagram f ip datagram := by
  have h1 := h.right
  have h2 := h1.right
  have h3 := ((@has_append _ _ [17] _).mp h2.left.tail.right).1
  have h4 := h2.right
  simp only [Vector.length_toList, ip.length_bytes, List.length_cons, List.length_nil, Nat.zero_add, Nat.reduceAdd]
    at h1 h2 h3 h4
  exact ⟨h1.left.expect, h2.left.byte, ip.sized ▸ ip.whole, h3.expect, h4⟩

end Rustrapper.Net

/-
# The TFTP clients

The loop of `tftp_download`, as what one received packet does to its variables:
`biosTurn` and `uefiTurn` read Ethernet frames, `nativeTurn` the datagrams of a
socket. All three act on OACK and DATA packets alike (`onPacket`); the number
of a DATA packet is acknowledged and otherwise not looked at.
-/
import Rustrapper.Net.Tftp

namespace Rustrapper.Net.Tftp

open Codec

/-- `TftpSink`: where the blocks go; `none` is `Err(())`. -/
structure TftpSink (σ : Type) where
  writeBlock : σ → List UInt8 → Option σ
  finalize : σ → ℕ → Option σ

/-- The variables of the loop. `blocks` are the blocks written to the sink so far. -/
structure Transfer (σ : Type) where
  serverPort : Option ℕ
  blksize : ℕ
  totalSize : ℕ
  sink : σ
  blocks : List (List UInt8)
  deriving DecidableEq

/-- What one turn of the loop leaves: its variables, the packets sent and to which port, and
what the function returned, if it did. -/
structure Turn (σ : Type) where
  transfer : Transfer σ
  sent : List (ℕ × List UInt8)
  result : Option (Option ℕ)
  deriving DecidableEq

section

variable {σ : Type} (bits : ℕ) (dest : TftpSink σ)

/-- The variables when the request has been sent. -/
def Transfer.start (sink : σ) : Transfer σ := ⟨none, defaultBlksize, 0, sink, []⟩

/-- `continue`. -/
def Transfer.waits (t : Transfer σ) : Turn σ := ⟨t, [], none⟩

/-- `return None`. -/
def Transfer.fails (t : Transfer σ) : Turn σ := ⟨t, [], some none⟩

/-- An ACK is sent; `sends` is false where sending it fails and the failure is not ignored. -/
def Transfer.acknowledge (t : Transfer σ) (port block : ℕ) (sends : Bool)
    (result : Option (Option ℕ)) : Turn σ :=
  if sends then ⟨t, [(port, buildAck block)], result⟩ else t.fails

/-- A DATA packet is written and acknowledged; a short one is the last. -/
def Transfer.accept (t : Transfer σ) (block : ℕ) (data : List UInt8) (port : ℕ) (sends : Bool) :
    Turn σ :=
  match dest.writeBlock t.sink data with
  | none => t.fails
  | some sink =>
    let total := (t.totalSize + data.length) % 2 ^ bits
    let t' := { t with sink, totalSize := total, blocks := t.blocks ++ [data] }
    t'.acknowledge port block sends
      (if data.length < t.blksize then some ((dest.finalize sink total).map fun _ => total) else none)

/-- What every client does with a packet from `port`. -/
def onPacket (t : Transfer σ) (packet : Frame) (port : ℕ) (sends : Bool) : Scan (Turn σ) := do
  match ← (parseOack bits packet).optional with
  | some oack => .ok ({ t with blksize := oack.1 }.acknowledge port 0 sends none)
  | none =>
    match ← (parseData packet).optional with
    | some (block, data) => .ok (t.accept bits dest block data port sends)
    | none => .ok t.waits

/-! ### On Ethernet -/

/-- `extract_src_port`. -/
def extractSrcPort (f : Frame) : Scan ℕ :=
  if f.len < 42 then .ok 69 else do
    let ihl ← f.byte 14
    let udpOffset := 14 + (ihl &&& 0x0F).toNat * 4
    if f.len < udpOffset + 4 then .ok 69 else f.number udpOffset 2

/-- The test for an ARP request that asks for `srcIp`; the client replies and reads on. -/
def isArpRequest (srcIp : Vector UInt8 4) (f : Frame) : Scan Bool :=
  if f.len < 42 then .ok false else do
    let etherType ← f.bytesAt 12 2
    let oper ← f.bytesAt 20 2
    let tpa ← f.bytesAt 38 4
    .ok (etherType = [0x08, 0x06] ∧ oper = [0x00, 0x01] ∧ tpa = srcIp.toList)

/-- The test for an ERROR packet. -/
def isError (packet : Frame) : Scan Bool :=
  if packet.len < 4 then .ok false else do
    let opcode ← packet.number 0 2
    .ok (opcode = opError)

/-- The first frame that is looked at names the server's port. -/
def Transfer.learn (t : Transfer σ) (f : Frame) : Scan (Transfer σ) :=
  match t.serverPort with
  | some _ => .ok t
  | none => do
    let port ← extractSrcPort f
    .ok { t with serverPort := some port }

/-- The part of the loop that the clients on Ethernet share. -/
def onFrame (t : Transfer σ) (f : Frame) : Scan (Turn σ) := do
  let t ← t.learn f
  match ← (udpPayload f).optional with
  | none => .ok t.waits
  | some payload => do
    let error ← isError (Frame.whole payload)
    if error then .ok t.fails
    else onPacket bits dest t (Frame.whole payload) (t.serverPort.getD 69) true

/-- One turn of `tftp_download` of the BIOS loader. -/
def biosTurn (srcIp : Vector UInt8 4) (t : Transfer σ) (f : Frame) : Scan (Turn σ) := do
  let arp ← isArpRequest srcIp f
  if arp then .ok t.waits else onFrame bits dest t f

/-- One turn of `tftp_download_e1000`; the type field is read in the whole receive buffer. -/
def uefiTurn (srcIp : Vector UInt8 4) (t : Transfer σ) (f : Frame) : Scan (Turn σ) := do
  let arp ← isArpRequest srcIp f
  if arp then .ok t.waits else do
    let etherType ← (Frame.whole f.bytes).bytesAt 12 2
    if etherType ≠ [0x08, 0x00] then .ok t.waits else onFrame bits dest t f

/-! ### On a socket -/

/-- A datagram that `recv_from` returns, and whether the answer to it can be sent. -/
structure Datagram where
  srcIp : Vector UInt8 4
  srcPort : ℕ
  bytes : List UInt8
  sends : Bool

/-- What fits into the receive buffer. -/
def Datagram.packet (d : Datagram) : List UInt8 := d.bytes.take 2048

/-- One turn of `tftp_download` of the native program. -/
def nativeTurn (server : Vector UInt8 4) (t : Transfer σ) (d : Datagram) : Scan (Turn σ) :=
  if d.srcIp ≠ server then .ok t.waits
  else onPacket bits dest t (Frame.whole d.packet) d.srcPort d.sends

end

end Rustrapper.Net.Tftp

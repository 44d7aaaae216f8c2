/-
# A transfer over an unreliable network

A server sends a file in numbered blocks, in lock step; the network loses,
delays, duplicates and reorders what the server and the client send, and lets
other frames through to the client. The client does not compare the number of a
DATA packet with the one it expects, nor the sender with the server, so a block
that arrives twice is written twice. It has the file when no block arrives
twice and nobody else's packets pass for DATA or for a new block size.
-/
import Rustrapper.Net.Download
import Rustrapper.Protocol.LockStep

namespace Rustrapper.Net.Tftp

open Codec Protocol

/-! ### DATA packets -/

/-- A DATA packet as the server builds it. -/
def dataPacket (block : ℕ) (data : List UInt8) : List UInt8 :=
  toBE 2 opData ++ (toBE 2 block ++ data)

@[simp] theorem length_dataPacket (block : ℕ) (data : List UInt8) :
    (dataPacket block data).length = 4 + data.length := by
  simp [dataPacket]
  omega

theorem opcode_dataPacket (block : ℕ) (data : List UInt8) :
    (Frame.whole (dataPacket block data)).number 0 2 = .ok opData :=
  number_whole [] (toBE 2 block ++ data) 2 opData

theorem len_whole (bs : List UInt8) : (Frame.whole bs).len = bs.length := rfl

theorem parseData_dataPacket (block : ℕ) (data : List UInt8) :
    parseData (Frame.whole (dataPacket block data)) = .ok (block % 65536, data) := by
  have hlen : ¬ (Frame.whole (dataPacket block data)).len < 4 := by
    rw [len_whole, length_dataPacket]
    omega
  have hblock : (Frame.whole (dataPacket block data)).number 2 2 = .ok (block % 65536) :=
    number_whole (toBE 2 opData) data 2 block
  have hdata : (Frame.whole (dataPacket block data)).range 4 (Frame.whole (dataPacket block data)).len
      = .ok data := by
    have h := range_whole (toBE 2 opData ++ toBE 2 block) data
    rwa [List.append_assoc] at h
  unfold parseData
  simp only [rejectIf, if_neg hlen, opcode_dataPacket, hblock, hdata]
  rfl

/-- A DATA packet is no OACK packet. -/
theorem parseOack_dataPacket (bits block : ℕ) (data : List UInt8) :
    parseOack bits (Frame.whole (dataPacket block data)) = .error .rejected := by
  have hlen : ¬ (Frame.whole (dataPacket block data)).len < 2 := by
    rw [len_whole, length_dataPacket]
    omega
  unfold parseOack
  simp only [rejectIf, if_neg hlen, opcode_dataPacket]
  rfl

theorem ofBE_buildAck (block : ℕ) : ofBE ((buildAck block).drop 2) = block % 65536 := by
  have h : (buildAck block).drop 2 = toBE 2 block := rfl
  rw [h, ofBE_toBE]
  rfl

section

variable {σ : Type} {bits : ℕ} {dest : TftpSink σ}

/-- The server's DATA packet is accepted whatever its number is. -/
theorem onPacket_dataPacket (t : Transfer σ) (block : ℕ) (data : List UInt8) (port : ℕ)
    (sends : Bool) : onPacket bits dest t (Frame.whole (dataPacket block data)) port sends
      = .ok (t.accept bits dest (block % 65536) data port sends) := by
  unfold onPacket
  rw [parseOack_dataPacket, parseData_dataPacket]
  rfl

/-- The packet is not DATA, and if it is an OACK it keeps the block size. -/
def Harmless (bits : ℕ) (packet : List UInt8) : Prop :=
  (∀ d, parseData (Frame.whole packet) ≠ .ok d) ∧
    ∀ o, parseOack bits (Frame.whole packet) = .ok o → o.1 = defaultBlksize

/-- Such a packet changes nothing and is answered with ACK 0 if at all. -/
theorem onPacket_harmless {t : Transfer σ} {packet : List UInt8} {port : ℕ} {sends : Bool}
    {r : Turn σ} (hp : Harmless bits packet) (ht : t.blksize = defaultBlksize)
    (h : onPacket bits dest t (Frame.whole packet) port sends = .ok r) :
    r.transfer = t ∧ (∀ a ∈ r.sent, a = (port, buildAck 0)) ∧ ∀ n, r.result ≠ some (some n) := by
  have hsame : ({ t with blksize := defaultBlksize } : Transfer σ) = t := by rw [← ht]
  unfold onPacket at h
  rcases ho : parseOack bits (Frame.whole packet) with (_ | _) | o
  · rw [ho] at h
    rcases hd : parseData (Frame.whole packet) with (_ | _) | d
    · rw [hd] at h
      cases h
      exact ⟨rfl, by simp [Transfer.waits], by simp [Transfer.waits]⟩
    · rw [hd] at h
      cases h
    · exact absurd hd (hp.1 d)
  · rw [ho] at h
    cases h
  · rw [ho] at h
    cases h
    rw [hp.2 o ho, hsame]
    cases sends with
    | true => exact ⟨rfl, by simp [Transfer.acknowledge], by simp [Transfer.acknowledge]⟩
    | false => exact ⟨rfl, by simp [Transfer.acknowledge, Transfer.fails],
        by simp [Transfer.acknowledge, Transfer.fails]⟩

/-! ### The clients -/

/-- A client: what a turn of its loop does, the TFTP packet it finds in what arrives, and
what arrives when the server sends a packet from a port. -/
structure Client (ι σ : Type) where
  turn : Transfer σ → ι → Scan (Turn σ)
  read : ι → Option (List UInt8)
  carries : ℕ → List UInt8 → ι → Prop

/-- The BIOS loader at address `srcIp`. -/
def bios (bits : ℕ) (dest : TftpSink σ) (srcIp : Vector UInt8 4) : Client Frame σ where
  turn := biosTurn bits dest srcIp
  read f := (udpPayload f).toOption
  carries port packet f := udpPayload f = .ok packet ∧ extractSrcPort f = .ok port

/-- The UEFI loader at address `srcIp`. -/
def uefi (bits : ℕ) (dest : TftpSink σ) (srcIp : Vector UInt8 4) : Client Frame σ :=
  { bios bits dest srcIp with turn := uefiTurn bits dest srcIp }

/-- The native program, for a server at address `server`. -/
def native (bits : ℕ) (dest : TftpSink σ) (server : Vector UInt8 4) : Client Datagram σ where
  turn := nativeTurn bits dest server
  read d := if d.srcIp = server then some d.packet else none
  carries port packet d := d.srcIp = server ∧ d.srcPort = port ∧ d.packet = packet

/-- What a turn can be: what arrives is no packet for the client, or the transfer fails, or
the packet is acted on. -/
inductive Reacts (bits : ℕ) (dest : TftpSink σ) (t : Transfer σ) (read : Option (List UInt8)) :
    Turn σ → Prop
  | ignored (q : Option ℕ) (h : read = none) :
      Reacts bits dest t read { t with serverPort := q }.waits
  | failed (t' : Transfer σ) : Reacts bits dest t read t'.fails
  | acted (packet : List UInt8) (q : Option ℕ) (port : ℕ) (sends : Bool) (r : Turn σ)
      (h : read = some packet)
      (hr : onPacket bits dest { t with serverPort := q } (Frame.whole packet) port sends = .ok r) :
      Reacts bits dest t read r

/-- What the results about the three clients rest on. -/
structure Client.Follows {ι : Type} (c : Client ι σ) (bits : ℕ) (dest : TftpSink σ) : Prop where
  carried : ∀ {port packet i}, c.carries port packet i → c.read i = some packet
  reacts : ∀ {t i r}, c.turn t i = .ok r → Reacts bits dest t (c.read i) r

theorem learn_eq_ok {t t' : Transfer σ} {f : Frame} (h : t.learn f = .ok t') :
    ∃ q, t' = { t with serverPort := q } := by
  unfold Transfer.learn at h
  rcases hq : t.serverPort with _ | p
  · rw [hq] at h
    obtain ⟨port, _, h⟩ := scan_eq_ok h
    cases h
    exact ⟨some port, rfl⟩
  · rw [hq] at h
    cases h
    exact ⟨some p, by rw [← hq]⟩

theorem onFrame_reacts {t : Transfer σ} {f : Frame} {r : Turn σ} (h : onFrame bits dest t f = .ok r) :
    Reacts bits dest t (udpPayload f).toOption r := by
  obtain ⟨t', ht, h⟩ := scan_eq_ok h
  obtain ⟨q, rfl⟩ := learn_eq_ok ht
  obtain ⟨o, ho, h⟩ := scan_eq_ok h
  have ho' := optional_eq_ok ho
  rcases o with _ | packet
  · cases h
    exact .ignored q ho'.symm
  · obtain ⟨error, _, h⟩ := scan_eq_ok h
    cases error with
    | true =>
      cases h
      exact .failed _
    | false => exact .acted packet q _ true r ho'.symm h

/-- A frame with a UDP payload is an IPv4 frame. -/
theorem ipv4_of_udpPayload {f : Frame} {p : List UInt8} (h : udpPayload f = .ok p) :
    f.bytesAt 12 2 = .ok [0x08, 0x00] := by
  obtain ⟨_, _, h⟩ := scan_eq_ok h
  obtain ⟨_, he, _⟩ := scan_eq_ok h
  exact expect_eq_ok he

theorem udpPayload_toOption {f : Frame} (h : f.bytesAt 12 2 ≠ .ok [0x08, 0x00]) :
    (udpPayload f).toOption = none := by
  rcases hp : udpPayload f with e | p
  · rfl
  · exact absurd (ipv4_of_udpPayload hp) h

theorem isArpRequest_eq_true {srcIp : Vector UInt8 4} {f : Frame}
    (h : isArpRequest srcIp f = .ok true) : f.bytesAt 12 2 = .ok [0x08, 0x06] := by
  unfold isArpRequest at h
  by_cases hl : f.len < 42
  · rw [if_pos hl] at h
    cases h
  · rw [if_neg hl] at h
    obtain ⟨etherType, he, h⟩ := scan_eq_ok h
    obtain ⟨oper, _, h⟩ := scan_eq_ok h
    obtain ⟨tpa, _, h⟩ := scan_eq_ok h
    have ht := of_decide_eq_true (Except.ok.inj h)
    rw [he, ht.1]

theorem bios_follows (bits : ℕ) (dest : TftpSink σ) (srcIp : Vector UInt8 4) :
    (bios bits dest srcIp).Follows bits dest := by
  refine ⟨fun {port packet f} h => ?_, fun {t f r} h => ?_⟩
  · show (udpPayload f).toOption = some packet
    rw [h.1]
    rfl
  · obtain ⟨arp, ha, h⟩ := scan_eq_ok h
    cases arp with
    | true =>
      cases h
      refine .ignored t.serverPort (udpPayload_toOption ?_)
      rw [isArpRequest_eq_true ha]
      decide
    | false => exact onFrame_reacts h

theorem uefi_follows (bits : ℕ) (dest : TftpSink σ) (srcIp : Vector UInt8 4) :
    (uefi bits dest srcIp).Follows bits dest := by
  refine ⟨(bios_follows bits dest srcIp).carried, fun {t f r} h => ?_⟩
  obtain ⟨arp, ha, h⟩ := scan_eq_ok h
  cases arp with
  | true =>
    cases h
    refine .ignored t.serverPort (udpPayload_toOption ?_)
    rw [isArpRequest_eq_true ha]
    decide
  | false =>
    obtain ⟨etherType, he, h⟩ := scan_eq_ok h
    by_cases hi : etherType ≠ [0x08, 0x00]
    · rw [if_pos hi] at h
      cases h
      refine .ignored t.serverPort (udpPayload_toOption fun hb => hi ?_)
      have := he.symm.trans (bytesAt_buffer hb)
      exact Except.ok.inj this
    · rw [if_neg hi] at h
      exact onFrame_reacts h

theorem native_follows (bits : ℕ) (dest : TftpSink σ) (server : Vector UInt8 4) :
    (native bits dest server).Follows bits dest := by
  refine ⟨fun {port packet d} h => ?_, fun {t d r} h => ?_⟩
  · show (if d.srcIp = server then some d.packet else none) = some packet
    rw [if_pos h.1, h.2.2]
  · change nativeTurn bits dest server t d = .ok r at h
    show Reacts bits dest t (if d.srcIp = server then some d.packet else none) r
    unfold nativeTurn at h
    by_cases hs : d.srcIp = server
    · rw [if_neg (not_not.mpr hs)] at h
      rw [if_pos hs]
      exact .acted d.packet t.serverPort d.srcPort d.sends r rfl h
    · rw [if_pos hs] at h
      cases h
      rw [if_neg hs]
      exact .ignored t.serverPort rfl

/-! ### The server and the network -/

/-- The data of a block of the file; blocks count from 1. -/
def blockOf (file : List UInt8) (block : ℕ) : List UInt8 :=
  slice file ((block - 1) * defaultBlksize) defaultBlksize

/-- The number of the last block, the first that is not full. -/
def lastBlock (file : List UInt8) : ℕ := file.length / defaultBlksize + 1

/-- The two parties and everything that was sent. What the network holds it holds for ever, so
it may deliver it late, in any order, several times or never. `arrived` records which of the
server's blocks have come in at the client. -/
structure System (ι σ : Type) where
  block : ℕ
  flying : List (ℕ × ι)
  acks : List (ℕ × List UInt8)
  arrived : List ℕ
  transfer : Transfer σ
  result : Option (Option ℕ)

/-- The request is at the server. -/
def System.start (ι : Type) (sink : σ) : System ι σ := ⟨1, [], [], [], .start sink, none⟩

/-- The client has taken its turn. -/
def System.after {ι : Type} (s : System ι σ) (r : Turn σ) : System ι σ :=
  { s with transfer := r.transfer, acks := r.sent ++ s.acks, result := r.result }

/-- What happens: the server sends its block, for the first time or again, or gets the ACK for
it; at the client a block comes in, or something else, or nothing in time. -/
inductive Action (ι : Type)
  | send (i : ι)
  | acked
  | data (block : ℕ) (i : ι)
  | other (i : ι)
  | timeout

variable {ι : Type}

/-- A step of a transfer of `file`; the server sends from `port`. -/
inductive System.Step (c : Client ι σ) (file : List UInt8) (port : ℕ) :
    System ι σ → Action ι → System ι σ → Prop
  | send (s : System ι σ) (i : ι) (h : c.carries port (dataPacket s.block (blockOf file s.block)) i) :
      Step c file port s (.send i) { s with flying := (s.block, i) :: s.flying }
  | acked (s : System ι σ) (h : (port, buildAck (s.block % 65536)) ∈ s.acks)
      (hl : s.block < lastBlock file) :
      Step c file port s .acked { s with block := s.block + 1 }
  | data (s : System ι σ) (block : ℕ) (i : ι) (r : Turn σ) (hr : s.result = none)
      (hf : (block, i) ∈ s.flying) (ht : c.turn s.transfer i = .ok r) :
      Step c file port s (.data block i) { s.after r with arrived := s.arrived ++ [block] }
  | other (s : System ι σ) (i : ι) (r : Turn σ) (hr : s.result = none)
      (ht : c.turn s.transfer i = .ok r) :
      Step c file port s (.other i) (s.after r)
  | timeout (s : System ι σ) (hr : s.result = none) :
      Step c file port s .timeout { s with result := some none }

/-- A run all of whose steps are admissible. -/
def System.Run (c : Client ι σ) (file : List UInt8) (port : ℕ)
    (ok : System ι σ → Action ι → Prop) : System ι σ → System ι σ → Prop :=
  Relation.ReflTransGen fun s s' => ∃ a, ok s a ∧ Step c file port s a s'

/-- In the admissible runs the client that returns a size has written the file, and the size is
the file's. -/
def Delivers (c : Client ι σ) (file : List UInt8) (port : ℕ)
    (ok : System ι σ → Action ι → Prop) : Prop :=
  ∀ (sink : σ) (s : System ι σ) (n : ℕ), System.Run c file port ok (.start ι sink) s →
    s.result = some (some n) → s.transfer.blocks.flatten = file ∧ n = file.length

/-- The condition on a step: no block comes in twice, what else comes in is harmless, and once
the numbers have wrapped the server is not given an ACK that is older than its block. -/
def Orderly (bits : ℕ) (c : Client ι σ) (s : System ι σ) : Action ι → Prop
  | .send _ => True
  | .acked => 65536 ≤ s.block → s.block ∈ s.arrived
  | .data block _ => block ∉ s.arrived
  | .other i => ∀ packet, c.read i = some packet → Harmless bits packet
  | .timeout => True

/-! ### Blocks of the file -/

theorem blockOf_succ (file : List UInt8) (m : ℕ) :
    blockOf file (m + 1) = (file.drop (m * 512)).take 512 := rfl

/-- One block more of the file. -/
theorem take_append_blockOf (file : List UInt8) (m : ℕ) :
    file.take (m * 512) ++ blockOf file (m + 1) = file.take ((m + 1) * 512) := by
  rw [blockOf_succ, Nat.succ_mul, List.take_add]

theorem length_blockOf_succ (file : List UInt8) (m : ℕ) :
    (blockOf file (m + 1)).length = min 512 (file.length - m * 512) := by
  rw [blockOf_succ, List.length_take, List.length_drop]

/-- A short block is the last. -/
theorem take_of_short {file : List UInt8} {m : ℕ} (h : (blockOf file (m + 1)).length < 512) :
    file.take ((m + 1) * 512) = file := by
  rw [length_blockOf_succ] at h
  apply List.take_of_length_le
  omega

/-- A full block leaves the file as long as the blocks so far. -/
theorem full_block {size m len : ℕ} (hlen : len = min 512 (size - m * 512))
    (h : ¬ len < defaultBlksize) : (m + 1) * 512 ≤ size ∧ m * 512 + len = (m + 1) * 512 := by
  rw [defaultBlksize] at h
  omega

/-! ### The invariant -/

/-- The lock step that the transfer follows. -/
def System.lockStep (s : System ι σ) : LockStep := ⟨s.block, s.flying.map Prod.fst, s.arrived⟩

/-- What the client has when it waits for more: the file up to the last block that arrived. -/
structure Transfer.Upto (t : Transfer σ) (file : List UInt8) (m : ℕ) : Prop where
  blocks : t.blocks.flatten = file.take (m * 512)
  full : m * 512 ≤ file.length
  totalSize : t.totalSize = m * 512
  blksize : t.blksize = defaultBlksize

/-- What the client has when it has returned a size. -/
structure Transfer.Done (t : Transfer σ) (file : List UInt8) (n : ℕ) : Prop where
  blocks : t.blocks.flatten = file
  size : n = file.length

/-- The invariant of orderly runs. -/
structure System.Inv (c : Client ι σ) (file : List UInt8) (s : System ι σ) : Prop where
  order : s.lockStep.Inv
  flying : ∀ p ∈ s.flying, c.read p.2 = some (dataPacket p.1 (blockOf file p.1))
  acks : ∀ a ∈ s.acks, ∃ b, (b = 0 ∨ b ∈ s.arrived) ∧ a.2 = buildAck (b % 65536)
  waiting : s.result = none → s.transfer.Upto file s.arrived.length
  done : ∀ n, s.result = some (some n) → s.transfer.Done file n

theorem acknowledge_sent {t : Transfer σ} {port block : ℕ} {sends : Bool}
    {result : Option (Option ℕ)} : ∀ a ∈ (t.acknowledge port block sends result).sent,
      a = (port, buildAck block) := by
  cases sends with
  | true => simp [Transfer.acknowledge]
  | false => simp [Transfer.acknowledge, Transfer.fails]

theorem acknowledge_result {t : Transfer σ} {port block : ℕ} {sends : Bool}
    {result : Option (Option ℕ)} (h : (t.acknowledge port block sends result).result ≠ some none) :
    (t.acknowledge port block sends result).transfer = t ∧
      (t.acknowledge port block sends result).result = result := by
  cases sends with
  | true => exact ⟨rfl, rfl⟩
  | false => exact absurd rfl h

/-- What accepting the next block does: it is acknowledged, and the client waits for the one
after it or has the file. -/
theorem accept_spec {file : List UInt8} {t : Transfer σ} {m : ℕ} (h : t.Upto file m)
    (hsize : file.length < 2 ^ bits) (b port : ℕ) (sends : Bool) {r : Turn σ}
    (hr : t.accept bits dest b (blockOf file (m + 1)) port sends = r) :
    (∀ a ∈ r.sent, a = (port, buildAck b)) ∧ (r.result = none → r.transfer.Upto file (m + 1)) ∧
      ∀ n, r.result = some (some n) → r.transfer.Done file n := by
  subst hr
  have hlen := length_blockOf_succ file m
  have hfull := h.full
  have htotal : (t.totalSize + (blockOf file (m + 1)).length) % 2 ^ bits
      = m * 512 + (blockOf file (m + 1)).length := by
    rw [h.totalSize]
    apply Nat.mod_eq_of_lt
    omega
  have hblocks : (t.blocks ++ [blockOf file (m + 1)]).flatten = file.take ((m + 1) * 512) := by
    rw [List.flatten_append, h.blocks, List.flatten_singleton, take_append_blockOf]
  have hshort := @take_of_short file m
  generalize blockOf file (m + 1) = data at hlen htotal hblocks hshort ⊢
  unfold Transfer.accept
  rcases dest.writeBlock t.sink data with _ | sink
  · exact ⟨by simp [Transfer.fails], by simp [Transfer.fails], by simp [Transfer.fails]⟩
  rw [htotal, h.blksize]
  refine ⟨acknowledge_sent, fun hn => ?_, fun n hn => ?_⟩
  · obtain ⟨ht, hres⟩ := acknowledge_result (by rw [hn]; simp)
    rw [hres] at hn
    rw [ht]
    by_cases hs : data.length < defaultBlksize
    · rw [if_pos hs] at hn
      cases hn
    · obtain ⟨hfull', htotal'⟩ := full_block hlen hs
      refine ⟨hblocks, hfull', ?_, rfl⟩
      dsimp only
      exact htotal'
  · obtain ⟨ht, hres⟩ := acknowledge_result (by rw [hn]; simp)
    rw [hres] at hn
    rw [ht]
    by_cases hs : data.length < defaultBlksize
    · rw [if_pos hs, Option.some.injEq, Option.map_eq_some_iff] at hn
      obtain ⟨_, _, rfl⟩ := hn
      rw [defaultBlksize] at hs
      exact ⟨hblocks.trans (hshort hs), by omega⟩
    · rw [if_neg hs] at hn
      cases hn

theorem Transfer.Upto.learn {file : List UInt8} {t : Transfer σ} {m : ℕ} (h : t.Upto file m)
    (q : Option ℕ) : ({ t with serverPort := q } : Transfer σ).Upto file m :=
  ⟨h.blocks, h.full, h.totalSize, h.blksize⟩

namespace System.Inv

variable {c : Client ι σ} {file : List UInt8} {s : System ι σ} {port : ℕ}

theorem start (sink : σ) : (System.start ι sink).Inv c file := by
  refine ⟨LockStep.Inv.start, ?_, ?_, fun _ => ?_, ?_⟩
  · simp [System.start]
  · simp [System.start]
  · refine ⟨?_, ?_, ?_, rfl⟩
    · simp [System.start, Transfer.start]
    · simp [System.start]
    · simp [System.start, Transfer.start]
  · simp [System.start]

/-- An ACK that the server takes for its block's tells that the block has arrived. -/
theorem acked (h : s.Inv c file) (ha : (port, buildAck (s.block % 65536)) ∈ s.acks)
    (hw : 65536 ≤ s.block → s.block ∈ s.arrived) : s.block ∈ s.arrived := by
  by_cases hlt : s.block < 65536
  · obtain ⟨b, hb, hack⟩ := h.acks _ ha
    have hn : b % 65536 = s.block % 65536 := by
      have hack' := congrArg (fun p => ofBE (List.drop 2 p)) hack
      simp only [ofBE_buildAck, Nat.mod_mod] at hack'
      exact hack'.symm
    exact h.order.of_number hb hlt hn
  · exact hw (not_lt.mp hlt)

/-- The client's turn on the next block. -/
theorem data (hc : c.Follows bits dest) (hsize : file.length < 2 ^ bits) (h : s.Inv c file)
    {b : ℕ} {i : ι} {r : Turn σ} (hr : s.result = none) (hf : (b, i) ∈ s.flying)
    (hb : b ∉ s.arrived) (ht : c.turn s.transfer i = .ok r) :
    ({ s.after r with arrived := s.arrived ++ [b] } : System ι σ).Inv c file := by
  have hmem : b ∈ s.flying.map Prod.fst := List.mem_map_of_mem hf
  have hnext : b = s.arrived.length + 1 := h.order.next hmem hb
  have horder := h.order.step (.arrive _ b hmem hb)
  have hlen : (s.arrived ++ [b]).length = s.arrived.length + 1 := by simp
  have hread := h.flying _ hf
  have hold : ∀ a ∈ s.acks, ∃ b', (b' = 0 ∨ b' ∈ s.arrived ++ [b]) ∧ a.2 = buildAck (b' % 65536) := by
    intro a ha
    obtain ⟨b', hb', he⟩ := h.acks a ha
    exact ⟨b', hb'.imp_right (List.mem_append_left _), he⟩
  rcases hc.reacts ht with ⟨q, hn⟩ | ⟨t'⟩ | ⟨packet, q, port', sends, _, hp, ho⟩
  · rw [hread] at hn
    cases hn
  · refine ⟨horder, h.flying, ?_, ?_, ?_⟩
    · exact hold
    · simp [System.after, Transfer.fails]
    · simp [System.after, Transfer.fails]
  · have hpacket : packet = dataPacket b (blockOf file b) := by
      rw [hread] at hp
      exact (Option.some.inj hp).symm
    rw [hpacket, onPacket_dataPacket, hnext] at ho
    obtain ⟨hsent, hwait, hdone⟩ :=
      accept_spec ((h.waiting hr).learn q) hsize _ port' sends (Except.ok.inj ho)
    refine ⟨horder, h.flying, ?_, ?_, hdone⟩
    · intro a ha
      rcases List.mem_append.mp ha with ha | ha
      · rw [hsent a ha]
        exact ⟨b, .inr (by simp), by rw [hnext]⟩
      · exact hold a ha
    · intro hn
      show r.transfer.Upto file (s.arrived ++ [b]).length
      rw [hlen]
      exact hwait hn

/-- The client's turn on anything harmless. -/
theorem other (hc : c.Follows bits dest) (h : s.Inv c file) {i : ι} {r : Turn σ}
    (hr : s.result = none) (hi : ∀ packet, c.read i = some packet → Harmless bits packet)
    (ht : c.turn s.transfer i = .ok r) : (s.after r).Inv c file := by
  have hup := h.waiting hr
  rcases hc.reacts ht with ⟨q, _⟩ | ⟨t'⟩ | ⟨packet, q, port', sends, _, hp, ho⟩
  · exact ⟨h.order, h.flying, h.acks, fun _ => hup.learn q, by simp [System.after, Transfer.waits]⟩
  · refine ⟨h.order, h.flying, h.acks, ?_, ?_⟩
    · simp [System.after, Transfer.fails]
    · simp [System.after, Transfer.fails]
  · obtain ⟨hsame, hsent, hres⟩ := onPacket_harmless (hi packet hp) (hup.learn q).blksize ho
    refine ⟨h.order, h.flying, ?_, ?_, fun n hn => absurd hn (hres n)⟩
    · intro a ha
      rcases List.mem_append.mp ha with ha | ha
      · rw [hsent a ha]
        exact ⟨0, .inl rfl, rfl⟩
      · exact h.acks a ha
    · intro _
      show r.transfer.Upto file s.arrived.length
      rw [hsame]
      exact hup.learn q

/-- One step of an orderly run. -/
theorem step (hc : c.Follows bits dest) (hsize : file.length < 2 ^ bits) (h : s.Inv c file)
    {a : Action ι} {s' : System ι σ} (ha : Orderly bits c s a) (hs : Step c file port s a s') :
    s'.Inv c file := by
  cases hs with
  | send i hi =>
    refine ⟨h.order.step (.send _), ?_, h.acks, h.waiting, h.done⟩
    intro p hp
    rcases List.mem_cons.mp hp with rfl | hp
    · exact hc.carried hi
    · exact h.flying p hp
  | acked hack hl =>
    have hb := h.acked hack ha
    exact ⟨h.order.step (.advance _ hb), h.flying, h.acks, h.waiting, h.done⟩
  | data b i r hr hf ht => exact h.data hc hsize hr hf ha ht
  | other i r hr ht => exact h.other hc hr ha ht
  | timeout hr => exact ⟨h.order, h.flying, h.acks, by simp, by simp⟩

theorem run (hc : c.Follows bits dest) (hsize : file.length < 2 ^ bits) {s' : System ι σ}
    (h : s.Inv c file) (hr : Run c file port (Orderly bits c) s s') : s'.Inv c file := by
  induction hr with
  | refl => exact h
  | tail _ hs ih =>
    obtain ⟨a, ha, hs⟩ := hs
    exact ih.step hc hsize ha hs

end System.Inv

/-- Orderly runs deliver the file. -/
theorem Client.Follows.delivers {c : Client ι σ} (hc : c.Follows bits dest) {file : List UInt8}
    (hsize : file.length < 2 ^ bits) (port : ℕ) : Delivers c file port (Orderly bits c) := by
  intro sink s n hr hn
  have h := (System.Inv.start sink).run hc hsize hr
  exact ⟨(h.done n hn).blocks, (h.done n hn).size⟩

/-- The server sends its block and the client takes its turn on it. -/
theorem System.Run.offer {c : Client ι σ} {file : List UInt8} {port : ℕ}
    {ok : System ι σ → Action ι → Prop} (s : System ι σ) (i : ι) (r : Turn σ)
    (hi : c.carries port (dataPacket s.block (blockOf file s.block)) i) (hres : s.result = none)
    (hr : c.turn s.transfer i = .ok r) (hs : ok s (.send i))
    (hd : ok { s with flying := (s.block, i) :: s.flying } (.data s.block i)) :
    System.Run c file port ok s ⟨s.block, (s.block, i) :: s.flying, r.sent ++ s.acks,
      s.arrived ++ [s.block], r.transfer, r.result⟩ := by
  have hsend := @System.Step.send _ _ c file port s i hi
  have hdata := @System.Step.data _ _ c file port
    { s with flying := (s.block, i) :: s.flying } s.block i r hres List.mem_cons_self hr
  exact .tail (.single ⟨_, hs, hsend⟩) ⟨_, hd, hdata⟩

/-- A duplicate of a full first block is written again, and the transfer ends with more than
the file. -/
theorem not_delivers_of_duplicate {c : Client ι σ} {file : List UInt8} {port n : ℕ} (sink : σ)
    (i j : ι) (r r' r'' : Turn σ) (hi : c.carries port (dataPacket 1 (blockOf file 1)) i)
    (hj : c.carries port (dataPacket 2 (blockOf file 2)) j) (hl : 1 < lastBlock file)
    (h : c.turn (.start sink) i = .ok r) (hr : r.result = none)
    (h' : c.turn r.transfer i = .ok r') (hr' : r'.result = none)
    (hack : (port, buildAck 1) ∈ r'.sent)
    (h'' : c.turn r'.transfer j = .ok r'') (hr'' : r''.result = some (some n)) (hn : n ≠ file.length) :
    ¬ Delivers c file port fun _ _ => True := by
  intro hd
  have h1 := @System.Run.offer _ _ c file port (fun _ _ => True) (.start ι sink) i r hi rfl h trivial trivial
  have h2 := h1.tail ⟨_, trivial, .data _ 1 i r' hr List.mem_cons_self h'⟩
  have h3 := h2.tail ⟨_, trivial, .acked _ (List.mem_append_left _ hack) hl⟩
  have h4 := h3.trans (System.Run.offer _ j r'' hj hr' h'' trivial trivial)
  exact hn (hd sink _ n h4 hr'').2

/-- **`tftp_download` delivers the file** in every orderly run, on all three platforms. -/
theorem tftp_download_delivers (bits : ℕ) (dest : TftpSink σ) (srcIp server : Vector UInt8 4)
    (file : List UInt8) (port : ℕ) (hsize : file.length < 2 ^ bits) :
    Delivers (bios bits dest srcIp) file port (Orderly bits (bios bits dest srcIp)) ∧
      Delivers (uefi bits dest srcIp) file port (Orderly bits (uefi bits dest srcIp)) ∧
      Delivers (native bits dest server) file port (Orderly bits (native bits dest server)) := by
  refine ⟨?_, ?_, ?_⟩
  · exact (bios_follows bits dest srcIp).delivers hsize port
  · exact (uefi_follows bits dest srcIp).delivers hsize port
  · exact (native_follows bits dest server).delivers hsize port

end

/-- A sink that takes everything. -/
def takesAll : TftpSink Unit := ⟨fun _ _ => some (), fun _ _ => some ()⟩

/-- A datagram from port 1069 of 10.0.2.2. -/
def datagram (packet : List UInt8) : Datagram := ⟨#v[10, 0, 2, 2], 1069, packet, true⟩

/-- The native program at a server at 10.0.2.2. -/
abbrev native64 : Client Datagram Unit := native 64 takesAll #v[10, 0, 2, 2]

/-- The run that brings a file of one byte. -/
theorem delivers_one_byte : ∃ s : System Datagram Unit,
    System.Run native64 [7] 1069 (Orderly 64 native64) (.start Datagram ()) s ∧
    s.result = some (some 1) ∧ s.transfer.blocks.flatten = [7] := by
  have hr := @System.Run.offer _ _ native64 [7] 1069 (Orderly 64 native64)
    (.start Datagram ()) (datagram (dataPacket 1 [7]))
    ⟨⟨none, 512, 1, (), [[7]]⟩, [(1069, buildAck 1)], some (some 1)⟩ ⟨rfl, rfl, rfl⟩ rfl
    (by decide +kernel) trivial List.not_mem_nil
  exact ⟨_, hr, rfl, ((tftp_download_delivers 64 takesAll #v[10, 0, 2, 15] #v[10, 0, 2, 2] [7] 1069
    (by decide)).2.2 () _ 1 hr rfl).1⟩

/-- An Ethernet frame from port 1069 of 10.0.2.2 to port 68 of 10.0.2.15. -/
def frame (packet : List UInt8) : Frame := .whole (
  [0xFF, 0xFF, 0xFF, 0xFF, 0xFF, 0xFF, 0x52, 0x55, 0x0A, 0x00, 0x02, 0x02, 0x08, 0x00] ++
  [0x45, 0x00] ++ toBE 2 (28 + packet.length) ++ [0x00, 0x00, 0x40, 0x00, 0x40, 0x11, 0x00, 0x00] ++
  [10, 0, 2, 2, 10, 0, 2, 15] ++
  toBE 2 1069 ++ toBE 2 68 ++ toBE 2 (8 + packet.length) ++ [0x00, 0x00] ++ packet)

/-- A block of zeros. -/
abbrev zeros : List UInt8 := List.replicate 512 0

/-- The turn that leaves `n` blocks of zeros written, and last of all `rest`. -/
abbrev written (port : Option ℕ) (n block : ℕ) (rest : List (List UInt8)) (result : Option (Option ℕ)) :
    Turn Unit :=
  ⟨⟨port, 512, n * 512, (), List.replicate n zeros ++ rest⟩, [(1069, buildAck block)], result⟩

theorem bios_duplicates :
    ¬ Delivers (bios 64 takesAll #v[10, 0, 2, 15]) zeros 1069 fun _ _ => True := by
  apply not_delivers_of_duplicate (n := 1024) () (frame (dataPacket 1 zeros))
    (frame (dataPacket 2 [])) (written (some 1069) 1 1 [] none) (written (some 1069) 2 1 [] none)
    (written (some 1069) 2 2 [[]] (some (some 1024)))
  · exact ⟨by decide +kernel, by decide +kernel⟩
  · exact ⟨by decide +kernel, by decide +kernel⟩
  all_goals decide +kernel

theorem uefi_duplicates :
    ¬ Delivers (uefi 64 takesAll #v[10, 0, 2, 15]) zeros 1069 fun _ _ => True := by
  apply not_delivers_of_duplicate (n := 1024) () (frame (dataPacket 1 zeros))
    (frame (dataPacket 2 [])) (written (some 1069) 1 1 [] none) (written (some 1069) 2 1 [] none)
    (written (some 1069) 2 2 [[]] (some (some 1024)))
  · exact ⟨by decide +kernel, by decide +kernel⟩
  · exact ⟨by decide +kernel, by decide +kernel⟩
  all_goals decide +kernel

theorem native_duplicates : ¬ Delivers native64 zeros 1069 fun _ _ => True := by
  apply not_delivers_of_duplicate (n := 1024) () (datagram (dataPacket 1 zeros))
    (datagram (dataPacket 2 [])) (written none 1 1 [] none) (written none 2 1 [] none)
    (written none 2 2 [[]] (some (some 1024)))
  · exact ⟨rfl, rfl, by decide +kernel⟩
  · exact ⟨rfl, rfl, by decide +kernel⟩
  all_goals decide +kernel

/-- A duplicated first block is written twice on every platform. -/
theorem duplicated_block_written_twice :
    ¬ Delivers (bios 64 takesAll #v[10, 0, 2, 15]) zeros 1069 (fun _ _ => True) ∧
      ¬ Delivers (uefi 64 takesAll #v[10, 0, 2, 15]) zeros 1069 (fun _ _ => True) ∧
      ¬ Delivers native64 zeros 1069 (fun _ _ => True) :=
  ⟨bios_duplicates, uefi_duplicates, native_duplicates⟩

end Rustrapper.Net.Tftp

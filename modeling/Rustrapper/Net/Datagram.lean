/-
# Datagrams written

`build_udp_frame` of `tftp.rs` and `build_frame` of `dns.rs` write Ethernet, IPv4
and UDP headers in front of a payload, each with checksum code of its own. The
headers they write have the right length and a checksum that verifies, and
`udp_payload` gives back the payload whatever the buffer held and however many
bytes behind the datagram were received with it (`udp_round_trip`).
-/
import Rustrapper.Codec.Checksum
import Rustrapper.Codec.Layout
import Rustrapper.Net.Tftp

namespace Rustrapper.Net

open Codec

/-! ### The checksum -/

/-- The sum of `ip_checksum`, a `u32`. -/
def sumWords : List UInt8 → ℕ → ℕ
  | hi :: lo :: bs, sum => sumWords bs ((sum + (hi.toNat <<< 8 ||| lo.toNat)) % 2 ^ 32)
  | [hi], sum => (sum + hi.toNat <<< 8) % 2 ^ 32
  | [], sum => sum

/-- `ip_checksum`. -/
def ipChecksum (buf : List UInt8) : UInt16 := ~~~UInt16.ofNat (fold (sumWords buf 0))

/-- The loop of `build_udp_frame` over the words at the offsets given. -/
def headerSum (f : Frame) : List ℕ → ℕ → Scan ℕ
  | [], sum => .ok sum
  | i :: is, sum => do
    let word ← f.number i 2
    headerSum f is ((sum + word) % 2 ^ 32)

theorem sumWords_eq : ∀ {bs : List UInt8} {s : ℕ}, s + words bs < 2 ^ 32 → sumWords bs s = s + words bs
  | [], _, _ => rfl
  | [hi], s, h => by
    simp only [words] at h ⊢
    rw [sumWords, Nat.shiftLeft_eq, Nat.mod_eq_of_lt h]
  | hi :: lo :: bs, s, h => by
    have hword : hi.toNat <<< 8 ||| lo.toNat = ofBE [hi, lo] := by
      rw [← Nat.shiftLeft_add_eq_or_of_lt lo.toNat_lt, Nat.shiftLeft_eq]
      simp only [ofBE, ofLE, List.reverse_cons, List.reverse_nil, List.nil_append, List.cons_append]
      omega
    rw [words] at h
    rw [sumWords, hword, Nat.mod_eq_of_lt (by omega), sumWords_eq (by omega), words]
    omega

theorem headerSum_eq {f : Frame} : ∀ {n off s : ℕ} {bs : List UInt8}, f.Has off bs → bs.length = 2 * n →
    s + words bs < 2 ^ 32 → headerSum f (List.range' off n 2) s = .ok (s + words bs)
  | 0, _, _, bs, _, hlen, _ => by
    rw [List.length_eq_zero_iff.mp hlen]
    rfl
  | n + 1, off, s, hi :: lo :: bs, h, hlen, hlt => by
    have hhead := ((@has_append f off [hi, lo] bs).mp h).1.bytesAt
    have hrest : f.Has (off + 2) bs := ((@has_append f off [hi, lo] bs).mp h).2
    have hword : f.number off 2 = .ok (ofBE [hi, lo]) := by
      rw [Frame.number, show (2 : ℕ) = [hi, lo].length from rfl, hhead]
      rfl
    simp only [List.length_cons] at hlen
    rw [words] at hlt
    rw [List.range'_succ, headerSum, hword, ok_then, Nat.mod_eq_of_lt (by omega),
      headerSum_eq hrest (by omega) (by omega), words, Nat.add_assoc]

theorem toNat_complement {s : ℕ} (h : s < 65536) : (~~~UInt16.ofNat s).toNat = 65535 - s := by
  rw [UInt16.toNat_not, UInt16.toNat_ofNat_of_lt' h]
  rfl

/-! ### The builders -/

/-- `build_udp_frame`: the frame and the bytes written. -/
def Tftp.buildUdpFrame (srcMac : Vector UInt8 6) (srcIp dstIp : Vector UInt8 4) (srcPort dstPort : UInt16)
    (payload : List UInt8) (frame : Vector UInt8 1514) : Scan (Vector UInt8 1514 × ℕ) := do
  let frame ← copyAt frame 0 (List.replicate 6 0xff)
  let frame ← copyAt frame 6 srcMac.toList
  let frame ← copyAt frame 12 (toBE 2 0x0800)
  let totalLen := 20 + 8 + payload.length
  let frame ← store frame 14 0x45
  let frame ← store frame 15 0x00
  let frame ← copyAt frame 16 (toBE 2 totalLen)
  let frame ← copyAt frame 18 (toBE 2 0)
  let frame ← copyAt frame 20 (toBE 2 0x4000)
  let frame ← store frame 22 64
  let frame ← store frame 23 17
  let frame ← copyAt frame 24 (toBE 2 0)
  let frame ← copyAt frame 26 srcIp.toList
  let frame ← copyAt frame 30 dstIp.toList
  let sum ← headerSum (.whole frame.toList) (List.range' 14 10 2) 0
  let cksum := ~~~UInt16.ofNat (fold sum)
  let frame ← copyAt frame 24 (toBE 2 cksum.toNat)
  let frame ← copyAt frame 34 (toBE 2 srcPort.toNat)
  let frame ← copyAt frame 36 (toBE 2 dstPort.toNat)
  let frame ← copyAt frame 38 (toBE 2 (8 + payload.length))
  let frame ← copyAt frame 40 (toBE 2 0)
  let frame ← copyAt frame 42 payload
  .ok (frame, 14 + totalLen)

/-- `build_frame` of `dns.rs`: the frame and the bytes written. -/
def Dns.buildFrame (srcMac : Vector UInt8 6) (srcIp : Vector UInt8 4) (dstMac : Vector UInt8 6)
    (dstIp : Vector UInt8 4) (srcPort : UInt16) (query : List UInt8) (queryLen : ℕ)
    (frame : Vector UInt8 1514) : Scan (Vector UInt8 1514 × ℕ) := do
  let frame ← copyAt frame 0 dstMac.toList
  let frame ← copyAt frame 6 srcMac.toList
  let frame ← store frame 12 0x08
  let frame ← store frame 13 0x00
  let ipTotalLen := 20 + 8 + queryLen
  let frame ← store frame 14 0x45
  let frame ← store frame 15 0x00
  let frame ← copyAt frame 16 (toBE 2 ipTotalLen)
  let frame ← copyAt frame 18 (List.replicate 4 0)
  let frame ← store frame 22 64
  let frame ← store frame 23 17
  let frame ← copyAt frame 24 (List.replicate 2 0)
  let frame ← copyAt frame 26 srcIp.toList
  let frame ← copyAt frame 30 dstIp.toList
  let header ← (Frame.whole frame.toList).range 14 34
  let frame ← copyAt frame 24 (toBE 2 (ipChecksum header).toNat)
  let udpLen := 8 + queryLen
  let frame ← copyAt frame 34 (toBE 2 srcPort.toNat)
  let frame ← store frame 36 0x00
  let frame ← store frame 37 0x35
  let frame ← copyAt frame 38 (toBE 2 udpLen)
  let frame ← copyAt frame 40 (List.replicate 2 0)
  let query ← (Frame.whole query).range 0 queryLen
  let frame ← copyAt frame 42 query
  .ok (frame, 42 + queryLen)

/-! ### What they write -/

/-- An IPv4 header without options, in front of UDP. -/
def ipv4 (totalLen : ℕ) (flags : Vector UInt8 4) (cksum : ℕ) (src dst : Vector UInt8 4) : List UInt8 :=
  ([0x45, 0x00] ++ (toBE 2 totalLen ++ (flags.toList ++ [64, 17]))) ++ (toBE 2 cksum ++ (src.toList ++ dst.toList))

/-- The checksum of the header. -/
def headerChecksum (totalLen : ℕ) (flags src dst : Vector UInt8 4) : ℕ :=
  65535 - fold (words (ipv4 totalLen flags 0 src dst))

/-- A payload with its headers, the IPv4 header with its checksum. -/
def udpFrame (dstMac srcMac : Vector UInt8 6) (flags src dst : Vector UInt8 4) (srcPort dstPort : UInt16)
    (payload : List UInt8) : List UInt8 :=
  (dstMac.toList ++ (srcMac.toList ++ [0x08, 0x00])) ++
    (ipv4 (28 + payload.length) flags (headerChecksum (28 + payload.length) flags src dst) src dst ++
      (toBE 2 srcPort.toNat ++ (toBE 2 dstPort.toNat ++ (toBE 2 (8 + payload.length) ++ ([0, 0] ++ payload)))))

/-- The ten bytes in front of the checksum. -/
def ipv4Front (totalLen : ℕ) (flags : Vector UInt8 4) : List UInt8 :=
  [0x45, 0x00] ++ (toBE 2 totalLen ++ (flags.toList ++ [64, 17]))

theorem ipv4_eq (totalLen : ℕ) (flags : Vector UInt8 4) (cksum : ℕ) (src dst : Vector UInt8 4) :
    ipv4 totalLen flags cksum src dst =
      ipv4Front totalLen flags ++ (toBE 2 cksum ++ (src.toList ++ dst.toList)) := rfl

@[simp] theorem length_ipv4 (totalLen : ℕ) (flags : Vector UInt8 4) (cksum : ℕ) (src dst : Vector UInt8 4) :
    (ipv4 totalLen flags cksum src dst).length = 20 := by simp [ipv4]

/-- Ten words do not overflow. -/
theorem words_ipv4_lt (totalLen : ℕ) (flags : Vector UInt8 4) (cksum : ℕ) (src dst : Vector UInt8 4) :
    0 + words (ipv4 totalLen flags cksum src dst) < 2 ^ 32 := by
  have hle := words_le (ipv4 totalLen flags cksum src dst)
  rw [length_ipv4] at hle
  omega

theorem ipv4_words_pos (totalLen : ℕ) (flags : Vector UInt8 4) (cksum : ℕ) (src dst : Vector UInt8 4) :
    0 < words (ipv4 totalLen flags cksum src dst) := by
  rw [ipv4_eq, ipv4Front, List.append_assoc, words_append _ (by rfl)]
  have hfirst : words [0x45, 0x00] = 0x4500 := by decide
  omega

/-- The Ethernet header has 14 bytes. -/
theorem has_header (frame : Vector UInt8 1514) (dstMac srcMac : Vector UInt8 6) (ip : List UInt8)
    (h : ip.length = 20) :
    (Frame.whole (putAt frame 0 ((dstMac.toList ++ (srcMac.toList ++ [0x08, 0x00])) ++ ip)).toList).Has 14 ip := by
  have hlen : ((dstMac.toList ++ (srcMac.toList ++ [0x08, 0x00])) ++ ip).length ≤ 1514 := by simp [h]
  simpa using (@has_putAt _ _ frame hlen).right

/-- The checksum goes where a zero was. -/
theorem checksum_next {α : Type} (frame : Vector UInt8 1514) (dstMac srcMac : Vector UInt8 6) (totalLen : ℕ)
    (flags src dst : Vector UInt8 4) (cksum : ℕ) (k : Vector UInt8 1514 → Scan α) :
    (copyAt (putAt frame 0 ((dstMac.toList ++ (srcMac.toList ++ [0x08, 0x00])) ++ ipv4 totalLen flags 0 src dst)) 24
        (toBE 2 cksum) >>= k) =
      k (putAt frame 0 ((dstMac.toList ++ (srcMac.toList ++ [0x08, 0x00])) ++ ipv4 totalLen flags cksum src dst)) := by
  rw [ipv4_eq, ipv4_eq, ← List.append_assoc _ (ipv4Front _ _), ← List.append_assoc _ (ipv4Front _ _)]
  exact copy_over (by simp [ipv4Front]) (by simp) (by simp)

/-- **`build_udp_frame` writes the headers and the payload.** -/
theorem Tftp.buildUdpFrame_eq (srcMac : Vector UInt8 6) (srcIp dstIp : Vector UInt8 4) (srcPort dstPort : UInt16)
    {payload : List UInt8} (frame : Vector UInt8 1514) (h : payload.length ≤ 1472) :
    buildUdpFrame srcMac srcIp dstIp srcPort dstPort payload frame =
      .ok (putAt frame 0 (udpFrame (.replicate 6 0xff) srcMac #v[0, 0, 0x40, 0] srcIp dstIp srcPort dstPort payload),
        42 + payload.length) := by
  have hfront : ∀ cksum, List.replicate 6 0xff ++ srcMac.toList ++ toBE 2 0x0800 ++ [0x45] ++ [0x00] ++
      toBE 2 (20 + 8 + payload.length) ++ toBE 2 0 ++ toBE 2 0x4000 ++ [64] ++ [17] ++ toBE 2 cksum ++ srcIp.toList ++
      dstIp.toList = ((Vector.replicate 6 0xff).toList ++ (srcMac.toList ++ [0x08, 0x00])) ++
        ipv4 (28 + payload.length) #v[0, 0, 0x40, 0] cksum srcIp dstIp := by
    intro cksum
    simp [ipv4, toBE, toLE]
  have hhas := has_header frame (.replicate 6 0xff) srcMac (ipv4 (28 + payload.length) #v[0, 0, 0x40, 0] 0 srcIp dstIp)
    (by simp)
  have hsum := @headerSum_eq _ 10 _ 0 _ hhas (by simp) (words_ipv4_lt _ _ _ _ _)
  unfold buildUdpFrame
  rw [copyAt_ok (by simp), ok_then, copy_next (by simp) (by simp), copy_next (by simp) (by simp),
    store_next (by simp) (by simp), store_next (by simp) (by simp), copy_next (by simp) (by simp),
    copy_next (by simp) (by simp), copy_next (by simp) (by simp), store_next (by simp) (by simp),
    store_next (by simp) (by simp), copy_next (by simp) (by simp), copy_next (by simp) (by simp),
    copy_next (by simp) (by simp), hfront, hsum, ok_then]
  simp only [Nat.zero_add, toNat_complement (fold_lt _)]
  rw [checksum_next, copy_next (by simp) (by simp), copy_next (by simp) (by simp), copy_next (by simp) (by simp),
    copy_next (by simp) (by simp), copy_next (by simp) (by omega)]
  have hall : ∀ front : List UInt8, front ++ toBE 2 srcPort.toNat ++ toBE 2 dstPort.toNat ++
      toBE 2 (8 + payload.length) ++ toBE 2 0 ++ payload = front ++ (toBE 2 srcPort.toNat ++
        (toBE 2 dstPort.toNat ++ (toBE 2 (8 + payload.length) ++ ([0, 0] ++ payload)))) := by
    intro front
    simp [toBE, toLE]
  have hlen : 14 + (20 + 8 + payload.length) = 42 + payload.length := by omega
  rw [hall, hlen, udpFrame, headerChecksum, List.append_assoc]

/-- The sum of a short string does not wrap. -/
theorem ipChecksum_toNat {bs : List UInt8} (h : 0 + words bs < 2 ^ 32) :
    (ipChecksum bs).toNat = 65535 - fold (words bs) := by
  rw [ipChecksum, sumWords_eq h, Nat.zero_add, toNat_complement (fold_lt _)]

/-- **`build_frame` writes the headers and the query.** -/
theorem Dns.buildFrame_eq (srcMac : Vector UInt8 6) (srcIp : Vector UInt8 4) (dstMac : Vector UInt8 6)
    (dstIp : Vector UInt8 4) (srcPort : UInt16) {query : List UInt8} {queryLen : ℕ} (frame : Vector UInt8 1514)
    (hquery : queryLen ≤ query.length) (h : queryLen ≤ 1472) :
    buildFrame srcMac srcIp dstMac dstIp srcPort query queryLen frame =
      .ok (putAt frame 0 (udpFrame dstMac srcMac (.replicate 4 0) srcIp dstIp srcPort 53 (query.take queryLen)),
        42 + queryLen) := by
  have hfront : ∀ cksum, dstMac.toList ++ srcMac.toList ++ [0x08] ++ [0x00] ++ [0x45] ++ [0x00] ++
      toBE 2 (20 + 8 + queryLen) ++ List.replicate 4 0 ++ [64] ++ [17] ++ toBE 2 cksum ++ srcIp.toList ++
      dstIp.toList = (dstMac.toList ++ (srcMac.toList ++ [0x08, 0x00])) ++
        ipv4 (28 + queryLen) (.replicate 4 0) cksum srcIp dstIp := by
    intro cksum
    simp [ipv4]
  have hzero : (List.replicate 2 0 : List UInt8) = toBE 2 0 := by decide
  have hhas := has_header frame dstMac srcMac (ipv4 (28 + queryLen) (.replicate 4 0) 0 srcIp dstIp) (by simp)
  have hrange := hhas.range
  have hbytes := (has_whole (query.take queryLen ++ query.drop queryLen)).left.range
  have hlen : (query.take queryLen).length = queryLen := by simp [hquery]
  rw [length_ipv4] at hrange
  rw [hlen, List.take_append_drop, Nat.zero_add] at hbytes
  unfold buildFrame
  rw [copyAt_ok (by simp), ok_then, copy_next (by simp) (by simp), store_next (by simp) (by simp),
    store_next (by simp) (by simp), store_next (by simp) (by simp), store_next (by simp) (by simp),
    copy_next (by simp) (by simp), copy_next (by simp) (by simp), store_next (by simp) (by simp),
    store_next (by simp) (by simp), copy_next (by simp) (by simp), copy_next (by simp) (by simp),
    copy_next (by simp) (by simp), hzero, hfront, hrange, ok_then, checksum_next, copy_next (by simp) (by simp),
    store_next (by simp) (by simp), store_next (by simp) (by simp), copy_next (by simp) (by simp),
    copy_next (by simp) (by simp), hbytes, ok_then, copy_next (by simp) (by omega)]
  have hall : ∀ front : List UInt8, front ++ toBE 2 srcPort.toNat ++ [0x00] ++ [0x35] ++ toBE 2 (8 + queryLen) ++
      toBE 2 0 ++ query.take queryLen = front ++ (toBE 2 srcPort.toNat ++ (toBE 2 (53 : UInt16).toNat ++
        (toBE 2 (8 + queryLen) ++ ([0, 0] ++ query.take queryLen)))) := by
    intro front
    simp [toBE, toLE]
  rw [hall, ipChecksum_toNat (words_ipv4_lt _ _ _ _ _), udpFrame, headerChecksum, hlen, List.append_assoc]

/-! ### The round trip -/

/-- The IPv4 header has the length of a datagram of so many bytes, and a
checksum that verifies. -/
structure HeaderOk (frame : Vector UInt8 1514) (payload : ℕ) : Prop where
  totalLen : (Frame.whole frame.toList).number 16 2 = .ok (20 + 8 + payload)
  checksum : ∃ header, (Frame.whole frame.toList).range 14 34 = .ok header ∧ ipChecksum header = 0

section
variable {dstMac srcMac : Vector UInt8 6} {flags src dst : Vector UInt8 4} {srcPort dstPort : UInt16}
variable {payload : List UInt8} {f : Frame}

theorem length_udpFrame :
    (udpFrame dstMac srcMac flags src dst srcPort dstPort payload).length = 42 + payload.length := by
  simp [udpFrame]
  omega

/-- A header with its checksum sums to all ones. -/
theorem checksum_ipv4 (totalLen : ℕ) (flags src dst : Vector UInt8 4) :
    ipChecksum (ipv4 totalLen flags (headerChecksum totalLen flags src dst) src dst) = 0 := by
  apply UInt16.toNat_inj.mp
  have hpos := ipv4_words_pos totalLen flags 0 src dst
  rw [ipv4_eq] at hpos
  have hverifies := checksum_verifies (src.toList ++ dst.toList) (by simp [ipv4Front]) hpos
  rw [ipChecksum_toNat (words_ipv4_lt _ _ _ _ _), headerChecksum, ipv4_eq, ipv4_eq, hverifies]
  rfl

theorem headerOk_udpFrame (frame : Vector UInt8 1514) (h : payload.length ≤ 1472) :
    HeaderOk (putAt frame 0 (udpFrame dstMac srcMac flags src dst srcPort dstPort payload)) payload.length := by
  have hhas := @has_putAt _ _ frame
    (show (udpFrame dstMac srcMac flags src dst srcPort dstPort payload).length ≤ 1514 by
      rw [length_udpFrame]
      omega)
  have hip := hhas.right.left
  simp only [List.length_append, Vector.length_toList, List.length_cons, List.length_nil, Nat.zero_add,
    Nat.reduceAdd] at hip
  have hnumber := hip.left.right.left.number (by omega)
  have hrange := hip.range
  rw [length_ipv4] at hrange
  exact ⟨hnumber, _, hrange, checksum_ipv4 _ _ _ _⟩

/-- **The payload is read back**, whatever follows the datagram. -/
theorem udpPayload_udpFrame (h : payload.length ≤ 1472)
    (hf : f.Has 0 (udpFrame dstMac srcMac flags src dst srcPort dstPort payload)) :
    Tftp.udpPayload f = .ok payload := by
  have hlen := hf.le
  have htype := hf.left.right.right.expect
  have hip := hf.right.left
  have hudp := hf.right.right
  have hport := hudp.right.right.left
  have hpayload := hudp.right.right.right.right.range
  rw [length_udpFrame] at hlen
  simp only [List.length_append, Vector.length_toList, List.length_cons, List.length_nil, Nat.zero_add,
    Nat.reduceAdd, length_ipv4, length_toBE] at htype hip hport hpayload
  have hbyte : f.byte 14 = .ok 0x45 := hip.byte
  have hnumber := hport.number (by omega)
  have hoff : 14 + ((0x45 : UInt8) &&& 0x0F).toNat * 4 = 34 := by decide
  unfold Tftp.udpPayload
  rw [rejectIf_then (by omega), htype, ok_then, hbyte, ok_then]
  simp only [hoff, Nat.reduceAdd]
  rw [rejectIf_then (by omega), hnumber, ok_then, rejectIf_then (by omega),
    show min (34 + (8 + payload.length)) f.len = 42 + payload.length by omega]
  exact hpayload

end

/-- **Datagrams round trip.** Both builders write a right header, and the reader
gives back the payload from any frame that begins with what was written. -/
theorem udp_round_trip (srcMac dstMac : Vector UInt8 6) (srcIp dstIp : Vector UInt8 4) (srcPort dstPort : UInt16)
    (frame : Vector UInt8 1514) :
    (∀ payload : List UInt8, payload.length ≤ 1472 →
      ∃ out, Tftp.buildUdpFrame srcMac srcIp dstIp srcPort dstPort payload frame = .ok (out, 42 + payload.length) ∧
        HeaderOk out payload.length ∧
        ∀ f : Frame, f.Has 0 (out.toList.take (42 + payload.length)) → Tftp.udpPayload f = .ok payload) ∧
    ∀ (query : List UInt8) (queryLen : ℕ), queryLen ≤ query.length → queryLen ≤ 1472 →
      ∃ out, Dns.buildFrame srcMac srcIp dstMac dstIp srcPort query queryLen frame = .ok (out, 42 + queryLen) ∧
        HeaderOk out queryLen := by
  constructor
  · intro payload h
    refine ⟨_, Tftp.buildUdpFrame_eq srcMac srcIp dstIp srcPort dstPort frame h, headerOk_udpFrame frame h, ?_⟩
    intro f hf
    rw [← @length_udpFrame (.replicate 6 0xff) srcMac #v[0, 0, 0x40, 0] srcIp dstIp srcPort dstPort,
      take_putAt frame (by rw [length_udpFrame]; omega)] at hf
    exact udpPayload_udpFrame h hf
  · intro query queryLen hquery h
    refine ⟨_, Dns.buildFrame_eq srcMac srcIp dstMac dstIp srcPort frame hquery h, ?_⟩
    have hlen : (query.take queryLen).length = queryLen := by simp [hquery]
    have hok := @headerOk_udpFrame dstMac srcMac (.replicate 4 0) srcIp dstIp srcPort 53 (query.take queryLen) frame
      (by omega)
    rwa [hlen] at hok

/-- Two bytes in a buffer that held others, and the first two of a query. -/
theorem two_bytes_round_trip :
    (∃ out, Tftp.buildUdpFrame #v[0x52, 0x54, 0, 0x12, 0x34, 0x5b] #v[10, 0, 2, 15] #v[10, 0, 2, 2] 68 69 [0x68, 0x69]
        (.replicate 1514 0xAA) = .ok (out, 44) ∧ HeaderOk out 2 ∧
      ∀ f : Frame, f.Has 0 (out.toList.take 44) → Tftp.udpPayload f = .ok [0x68, 0x69]) ∧
    ∃ out, Dns.buildFrame #v[0x52, 0x54, 0, 0x12, 0x34, 0x5b] #v[10, 0, 2, 15] (.replicate 6 0) #v[10, 0, 2, 2] 68
      [1, 2, 3] 2 (.replicate 1514 0xAA) = .ok (out, 44) ∧ HeaderOk out 2 := by
  have h := udp_round_trip #v[0x52, 0x54, 0, 0x12, 0x34, 0x5b] (.replicate 6 0) #v[10, 0, 2, 15] #v[10, 0, 2, 2] 68 69
    (.replicate 1514 0xAA)
  exact ⟨h.1 [0x68, 0x69] (by decide), h.2 [1, 2, 3] 2 (by decide) (by decide)⟩

end Rustrapper.Net

/-
# DNS responses, written

The frames a name server may answer with: headers, questions, and answer records
of any type behind any names. `parse_response` steps over the questions and the
records in front and returns the first address (`parseResponse_finds`).
-/
import Rustrapper.Net.Dns
import Rustrapper.Net.Headers
import Rustrapper.Net.Query

namespace Rustrapper.Net.Dns

open Codec

/-! ### Responses -/

/-- A name in a message: labels, and the root or a compression pointer behind them. -/
structure Name where
  labels : List (List UInt8)
  pointer : Option (Fin (2 ^ 14))
  valid : ValidLabels labels

/-- What ends a name. -/
def endOfName : Option (Fin (2 ^ 14)) → List UInt8
  | none => [0]
  | some p => toBE 2 (0xC000 + p)

def Name.bytes (n : Name) : List UInt8 := encodeLabels n.labels ++ endOfName n.pointer

structure Question where
  name : Name
  qtype : UInt16
  qclass : UInt16

def Question.bytes (q : Question) : List UInt8 := q.name.bytes ++ (toBE 2 q.qtype.toNat ++ toBE 2 q.qclass.toNat)

structure Record where
  name : Name
  rtype : UInt16
  rclass : UInt16
  ttl : UInt32
  rdata : List UInt8
  fits : rdata.length < 2 ^ 16

def Record.bytes (r : Record) : List UInt8 := r.name.bytes ++ (toBE 2 r.rtype.toNat ++ (toBE 2 r.rclass.toNat ++
  (toBE 4 r.ttl.toNat ++ (toBE 2 r.rdata.length ++ r.rdata))))

/-- The address in a record of type A and length 4. -/
def Record.address (r : Record) : Option (Vector UInt8 4) :=
  if h : r.rtype = 1 ∧ r.rdata.length = 4 then some ⟨r.rdata.toArray, h.2⟩ else none

/-- A response without an error, from port 53. -/
structure Response where
  macs : Vector UInt8 12
  ip : IpHeader
  udp : Vector UInt8 6
  flags : UInt16
  isResponse : 2 ^ 15 ≤ flags.toNat
  noError : flags.toNat % 16 = 0
  counts : Vector UInt8 4
  questions : List Question
  answers : List Record
  fewQuestions : questions.length < 2 ^ 16
  fewAnswers : answers.length < 2 ^ 16

/-- The frame up to the last answer: the Ethernet, IPv4 and UDP headers, the header of the message with the id, the
questions and the answers. -/
def Response.bytes (r : Response) (id : UInt16) : List UInt8 :=
  ipFrame r.macs r.ip (toBE 2 53 ++ (r.udp.toList ++ (toBE 2 id.toNat ++ (toBE 2 r.flags.toNat ++
    (toBE 2 r.questions.length ++ (toBE 2 r.answers.length ++ (r.counts.toList ++
      (r.questions.flatMap Question.bytes ++ r.answers.flatMap Record.bytes))))))))

/-- The address in the first record that has one. -/
def Response.firstAddress (r : Response) : Option (Vector UInt8 4) := r.answers.findSome? Record.address

/-! ### Names -/

variable {f : Frame} {off : ℕ}

theorem label_byte {l : List UInt8} (h : 1 ≤ l.length ∧ l.length ≤ 63) : UInt8.ofNat l.length ≠ 0 ∧
    UInt8.ofNat l.length &&& 0xC0 ≠ 0xC0 ∧ (UInt8.ofNat l.length).toNat = l.length := by
  have hall : ∀ n : Fin 64, 1 ≤ n.val → UInt8.ofNat n.val ≠ 0 ∧ UInt8.ofNat n.val &&& 0xC0 ≠ 0xC0 ∧
      (UInt8.ofNat n.val).toNat = n.val := by decide +kernel
  exact hall ⟨l.length, by omega⟩ h.1

theorem pointer_byte (p : Fin (2 ^ 14)) : UInt8.ofNat ((0xC000 + p.val) / 256) ≠ 0 ∧
    UInt8.ofNat ((0xC000 + p.val) / 256) &&& 0xC0 = 0xC0 := by
  have hall : ∀ n : Fin 64, UInt8.ofNat (192 + n.val) ≠ 0 ∧ UInt8.ofNat (192 + n.val) &&& 0xC0 = 0xC0 := by
    decide +kernel
  have hp := p.isLt
  have h := hall ⟨p.val / 256, by omega⟩
  rw [show (0xC000 + p.val) / 256 = 192 + p.val / 256 by omega]
  exact h

/-- **`skip_name` steps over a name.** -/
theorem skipName_name (labels : List (List UInt8)) (pointer : Option (Fin (2 ^ 14))) (hvalid : ValidLabels labels)
    (h : f.Has off (encodeLabels labels ++ endOfName pointer)) :
    skipName f off = .ok (off + (encodeLabels labels ++ endOfName pointer).length) := by
  induction labels generalizing off with
  | nil =>
    cases pointer with
    | none =>
      have hbyte := h.byte
      have hle := h.le
      rw [skipName, dif_pos (by simpa [encodeLabels, endOfName] using hle), hbyte]
      rfl
    | some p =>
      change f.Has off (_ :: _) at h
      obtain ⟨h0, hc⟩ := pointer_byte p
      have hle := h.le
      rw [List.length_cons] at hle
      rw [skipName, dif_pos (by omega), h.byte]
      simp only [bind, Except.bind]
      rw [if_neg h0, if_pos hc]
      simp [encodeLabels, endOfName]
  | cons l labels ih =>
    obtain ⟨hl, hrest⟩ := List.forall_mem_cons.mp hvalid
    obtain ⟨h0, hc, hto⟩ := label_byte hl
    have hsplit : encodeLabels (l :: labels) ++ endOfName pointer =
        UInt8.ofNat l.length :: (l ++ (encodeLabels labels ++ endOfName pointer)) := by simp [encodeLabels]
    rw [hsplit] at h ⊢
    have hle := h.le
    rw [List.length_cons] at hle
    rw [skipName, dif_pos (by omega), h.byte]
    simp only [bind, Except.bind]
    rw [if_neg h0, if_neg hc, hto]
    have htail := h.tail.right
    rw [Nat.add_assoc] at htail
    have hnext := ih hrest htail
    rw [hnext]
    simp only [List.length_cons, List.length_append]
    congr 1
    omega

theorem Name.skip (n : Name) (h : f.Has off n.bytes) : skipName f off = .ok (off + n.bytes.length) :=
  skipName_name n.labels n.pointer n.valid h

/-! ### Questions and records -/

theorem skipQuestions_all (qs : List Question) (h : f.Has off (qs.flatMap Question.bytes)) :
    skipQuestions f qs.length off = .ok (off + (qs.flatMap Question.bytes).length) := by
  induction qs generalizing off with
  | nil => rfl
  | cons q qs ih =>
    rw [List.flatMap_cons] at h ⊢
    have hq := h.left
    have hlen : q.bytes.length = q.name.bytes.length + 4 := by simp [Question.bytes]
    have hle := hq.le
    rw [List.length_cons, skipQuestions, q.name.skip hq.left, ok_then, rejectIf_then (by omega), Nat.add_assoc, ← hlen,
      ih h.right, List.length_append, Nat.add_assoc]

/-- **The first address** among the records is found. -/
theorem findA_first (rs : List Record) (h : f.Has off (rs.flatMap Record.bytes)) :
    findA f rs.length off = (rs.findSome? Record.address).elim (.error .rejected) .ok := by
  induction rs generalizing off with
  | nil => rfl
  | cons r rs ih =>
    rw [List.flatMap_cons] at h
    have hr := h.left
    have hlen : r.bytes.length = r.name.bytes.length + 10 + r.rdata.length := by
      simp [Record.bytes]
      omega
    have hle := hr.le
    -- the fields of the record
    have htype := hr.right.left.number (by simpa using r.rtype.toNat_lt)
    have hclass := hr.right.right.left.number (by simpa using r.rclass.toNat_lt)
    have httl := hr.right.right.right.left.number (by simpa using r.ttl.toNat_lt)
    have hrdlen := hr.right.right.right.right.left.number (by simpa using r.fits)
    have hdata := hr.right.right.right.right.right.bytesAt
    simp only [length_toBE] at hclass httl hrdlen hdata
    set off' := off + r.name.bytes.length with hoff'
    have hroom : ¬ f.len < off' + 10 := by omega
    have hfit : ¬ f.len < off' + 10 + r.rdata.length := by omega
    have hnext : f.Has (off' + 10 + r.rdata.length) (rs.flatMap Record.bytes) := by
      have := h.right
      rwa [hlen, ← Nat.add_assoc, ← Nat.add_assoc] at this
    rw [List.length_cons, findA, r.name.skip hr.left, ok_then, rejectIf_then hroom, htype, ok_then, hclass, ok_then]
    rw [show off' + 4 = off' + 2 + 2 by omega, httl, ok_then, show off' + 8 = off' + 2 + 2 + 4 by omega, hrdlen, ok_then,
      rejectIf_then hfit, List.findSome?_cons]
    have hone : r.rtype.toNat = 1 ↔ r.rtype = 1 := by rw [← UInt16.toNat_inj]; rfl
    by_cases ha : r.rtype = 1 ∧ r.rdata.length = 4
    · rw [if_pos (by rwa [hone])]
      rw [ha.2] at hdata
      change (f.bytesAt (off' + 10) 4 >>= fun bs => copyFromSlice 4 bs) = _
      rw [show off' + 10 = off' + 2 + 2 + 4 + 2 by omega, hdata, Record.address, dif_pos ha]
      exact dif_pos ha.2
    · rw [if_neg (by rwa [hone]), ih hnext, Record.address, dif_neg ha]

/-! ### The response -/

/-- **DNS answers are found.** Of a frame that begins with a response, `parse_response` returns the address in the
first answer that has one, and nothing when none has. -/
theorem parseResponse_finds (r : Response) (id : UInt16) (h : f.Has 0 (r.bytes id)) :
    parseResponse f id = r.firstAddress.elim (.error .rejected) .ok := by
  obtain ⟨htype, hihl, hmin, hproto, h3⟩ := hasDatagram h
  have hle := h3.le
  -- the fields of the datagram, one behind the other
  have hport := h3.left.number (by norm_num)
  have h4 := h3.right.right
  have hid := h4.left.number (by simpa using id.toNat_lt)
  have h5 := h4.right
  have hflags := h5.left.number (by simpa using r.flags.toNat_lt)
  have h6 := h5.right
  have hqd := h6.left.number (by simpa using r.fewQuestions)
  have h7 := h6.right
  have han := h7.left.number (by simpa using r.fewAnswers)
  have h8 := h7.right.right
  have hquestions := skipQuestions_all r.questions h8.left
  have hanswers := findA_first r.answers h8.right
  clear h h3 h4 h5 h6 h7 h8
  simp only [List.length_append, Vector.length_toList, length_toBE] at *
  set udpOff := 14 + (r.ip.first &&& 0x0F).toNat * 4 with hudp
  simp only [Nat.add_assoc udpOff, Nat.reduceAdd] at *
  obtain ⟨dst, hdst⟩ := @exists_number f (udpOff + 2) 2 (by omega)
  rw [parseResponse, rejectIf_then (by omega), htype, ok_then, hihl, ok_then]
  dsimp only
  rw [rejectIf_then (by omega), hproto, ok_then, rejectIf_then (by omega), hdst, ok_then, hport, ok_then,
    rejectIf_then (by simp), rejectIf_then (by omega), hid, ok_then, rejectIf_then (by simp), Nat.add_assoc udpOff, hflags,
    ok_then, rejectIf_then (not_not.mpr r.noError), Nat.add_assoc udpOff, hqd, ok_then, Nat.add_assoc udpOff, han, ok_then]
  by_cases hnone : r.answers.length = 0
  · have hnil := List.length_eq_zero_iff.mp hnone
    simp [rejectIf, hnil, Response.firstAddress, bind, Except.bind]
  · rw [rejectIf_then hnone, Nat.add_assoc, hquestions, ok_then, hanswers, Response.firstAddress]

/-- A response with an alias in front of the address; both names point into the question. -/
def aliasResponse : Response where
  macs := Vector.replicate 12 0
  ip := .short
  udp := Vector.replicate 6 0
  flags := 0x8180
  isResponse := by decide
  noError := by decide
  counts := Vector.replicate 4 0
  questions := [⟨⟨[[0x61, 0x62], [0x63]], none, by decide⟩, 1, 1⟩]
  answers := [⟨⟨[], some 12, by decide⟩, 5, 1, 300, [1, 0x64, 0xC0, 15], by decide⟩,
    ⟨⟨[[0x64]], some 15, by decide⟩, 1, 1, 300, [142, 250, 190, 78], by decide⟩]
  fewQuestions := by decide
  fewAnswers := by decide

theorem alias_response_found : parseResponse (Frame.whole (aliasResponse.bytes 0x1234)) 0x1234 =
    .ok #v[142, 250, 190, 78] :=
  parseResponse_finds aliasResponse 0x1234 (has_whole _)

end Rustrapper.Net.Dns

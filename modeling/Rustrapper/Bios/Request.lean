/-
# Requests for files

`dofile` and `fetch` ask the TFTP server for a file by name. `build_rrq` writes
the first 128 bytes of the name and ends it with a NUL, whatever the name holds;
`fetch_file` refuses names of 64 bytes and more, `load_file` refuses none. Read
back field by field (`decodeRrq`), a request names the file that was asked for
exactly when the name has at most 128 bytes and no NUL (`requests_named_iff`).
-/
import Rustrapper.Bios.Files
import Rustrapper.Codec.Layout
import Rustrapper.Net.Tftp

namespace Rustrapper.Bios

open Codec

/-! ### The request -/

/-- `OP_RRQ`. -/
def opRrq : ℕ := 1

/-- `b"octet"`. -/
def octet : List UInt8 := [0x6F, 0x63, 0x74, 0x65, 0x74]

/-- `build_rrq`: the buffer and the length of the request. -/
def buildRrq {n : ℕ} (filename : List UInt8) (buf : Vector UInt8 n) : Scan (Vector UInt8 n × ℕ) := do
  let buf ← copyAt buf 0 (toBE 2 opRrq)
  let filenameLen := min filename.length 128
  let buf ← copyAt buf 2 (filename.take filenameLen)
  let buf ← store buf (2 + filenameLen) 0
  let buf ← copyAt buf (2 + filenameLen + 1) octet
  let buf ← store buf (2 + filenameLen + 1 + octet.length) 0
  .ok (buf, 2 + filenameLen + 1 + octet.length + 1)

/-- The request of `tftp_download`: `rrq_buf[..rrq_len]`. -/
def rrqOf (filename : List UInt8) : Scan (List UInt8) := do
  let rrq ← buildRrq filename (.replicate 512 0)
  (Frame.whole rrq.1.toList).range 0 rrq.2

/-- The part of `FETCH_CTX` that decides whether a request is sent. -/
structure FetchContext where
  base : UInt64
  serverIp : Vector UInt8 4

/-- `base == 0 || server_ip == [0; 4]`. -/
def FetchContext.off (c : FetchContext) : Bool := c.base = 0 || c.serverIp = .replicate 4 0

/-- The request that `load_file` sends, if any. -/
def loadFileRequest (c : FetchContext) (name : List UInt8) : Scan (Option (List UInt8)) :=
  if httpPrefix.isPrefixOf name then .ok none
  else if c.off then .ok none
  else some <$> rrqOf (remoteName name)

/-- The request that `fetch_file` sends, if any. -/
def fetchFileRequest (c : FetchContext) (s : Files) (name saveAs : List UInt8) : Scan (Option (List UInt8)) :=
  if !fetchable name saveAs then .ok none
  else if c.off then .ok none
  else match freeSlot s with
    | none => .ok none
    | some _ => some <$> rrqOf (remoteName name)

/-! ### Reading it back -/

/-- The fields of a string that NULs end, `acc` read of the first. -/
def fieldsFrom (acc : List UInt8) : List UInt8 → Option (List (List UInt8))
  | [] => if acc = [] then some [] else none
  | b :: bs => if b = 0 then (acc :: ·) <$> fieldsFrom [] bs else fieldsFrom (acc ++ [b]) bs

/-- Options come as a name and a value each. -/
def pairs : List (List UInt8) → Option (List (List UInt8 × List UInt8))
  | [] => some []
  | [_] => none
  | key :: value :: rest => ((key, value) :: ·) <$> pairs rest

/-- A read request. -/
structure Rrq where
  filename : List UInt8
  mode : List UInt8
  options : List (List UInt8 × List UInt8)
  deriving DecidableEq

/-- The request of a file name and a mode, and options. -/
def rrqOfFields : List (List UInt8) → Option Rrq
  | filename :: mode :: rest => (Rrq.mk filename mode ·) <$> pairs rest
  | _ => none

/-- The request that a packet is: the opcode 1 and its fields. -/
def decodeRrq : List UInt8 → Option Rrq
  | hi :: lo :: bs => if ofBE [hi, lo] = opRrq then fieldsFrom [] bs >>= rrqOfFields else none
  | _ => none

/-- No request is sent, or one that names the file, in binary, without options. -/
def Named (name : List UInt8) (sent : Scan (Option (List UInt8))) : Prop :=
  ∃ rrq?, sent = .ok rrq? ∧ ∀ rrq ∈ rrq?, decodeRrq rrq = some ⟨remoteName name, octet, []⟩

/-! ### What is read back -/

variable {acc bs name : List UInt8}

theorem fieldsFrom_append : ∀ {as acc : List UInt8}, 0 ∉ as →
    fieldsFrom acc (as ++ 0 :: bs) = ((acc ++ as) :: ·) <$> fieldsFrom [] bs
  | [], acc, _ => by simp [fieldsFrom]
  | b :: as, acc, h => by
    have hb : b ≠ 0 := fun hb => h (by simp [hb])
    have has : 0 ∉ as := fun has => h (by simp [has])
    rw [List.cons_append, fieldsFrom, if_neg hb, fieldsFrom_append has]
    simp

/-- A field has no NUL. -/
theorem fieldsFrom_no_nul : ∀ {bs acc : List UInt8} {field : List UInt8} {fields : List (List UInt8)}, 0 ∉ acc →
    fieldsFrom acc bs = some (field :: fields) → 0 ∉ field
  | [], acc, field, fields, _, h => by
    rw [fieldsFrom] at h
    split at h <;> simp at h
  | b :: bs, acc, field, fields, hacc, h => by
    rw [fieldsFrom] at h
    by_cases hb : b = 0
    · rw [if_pos hb] at h
      obtain ⟨rest, -, hrest⟩ := Option.map_eq_some_iff.mp h
      rw [← (List.cons.inj hrest).1]
      exact hacc
    · rw [if_neg hb] at h
      refine fieldsFrom_no_nul ?_ h
      simp [hacc, Ne.symm hb]

/-- The packet of a name. -/
def rrqBytes (name : List UInt8) : List UInt8 := toBE 2 opRrq ++ (name.take 128 ++ 0 :: (octet ++ [0]))

theorem length_rrqBytes (name : List UInt8) :
    (rrqBytes name).length = 2 + min name.length 128 + 1 + octet.length + 1 := by
  simp only [rrqBytes, List.length_append, length_toBE, List.length_take, List.length_cons, List.length_nil]
  omega

/-- `build_rrq` writes the packet into a buffer that has room for it. -/
theorem buildRrq_eq {n : ℕ} (name : List UInt8) (buf : Vector UInt8 n) (h : 137 ≤ n) :
    buildRrq name buf = .ok (putAt buf 0 (rrqBytes name), (rrqBytes name).length) := by
  have htake : name.take (min name.length 128) = name.take 128 := by
    rw [Nat.min_comm, ← List.take_take, List.take_length]
  have hlen : (name.take 128).length = min name.length 128 := by
    rw [List.length_take, Nat.min_comm]
  have hmin : min name.length 128 ≤ 128 := Nat.min_le_right _ _
  have hall : toBE 2 opRrq ++ name.take 128 ++ [0] ++ octet ++ [0] = rrqBytes name := by simp [rrqBytes]
  have hop : (toBE 2 opRrq).length = 2 := length_toBE _ _
  have hoctet : octet.length = 5 := by decide
  unfold buildRrq
  dsimp only
  rw [htake, copyAt_ok (by omega), ok_then, copy_next (by omega) (by omega), store_next (by simp [hlen]) (by omega),
    copy_next (by simp [hlen]; omega) (by omega), store_next (by simp [hlen]; omega) (by omega), hall,
    length_rrqBytes]

theorem rrqOf_eq (name : List UInt8) : rrqOf name = .ok (rrqBytes name) := by
  have hmin : min name.length 128 ≤ 128 := Nat.min_le_right _ _
  have hoctet : octet.length = 5 := by decide
  have hroom : (rrqBytes name).length ≤ 512 := by
    rw [length_rrqBytes]
    omega
  have hrange := (@has_putAt _ _ (.replicate 512 0 : Vector UInt8 512) hroom).range
  rw [Nat.zero_add] at hrange
  rw [rrqOf, buildRrq_eq name _ (by decide), ok_then]
  exact hrange

theorem decodeRrq_named (h : 0 ∉ name) (hlen : name.length ≤ 128) :
    decodeRrq (rrqBytes name) = some ⟨name, octet, []⟩ := by
  have hmode : fieldsFrom [] (octet ++ [0]) = some [octet] := by decide
  have hop : ofBE (toBE 2 opRrq) = opRrq := by decide
  have hfields : fieldsFrom [] (name ++ 0 :: (octet ++ [0])) = some [name, octet] := by
    rw [fieldsFrom_append h, hmode]
    rfl
  unfold rrqBytes
  rw [List.take_of_length_le hlen]
  change (if ofBE (toBE 2 opRrq) = opRrq then fieldsFrom [] (name ++ 0 :: (octet ++ [0])) >>= rrqOfFields else none) = _
  rw [if_pos hop, hfields]
  rfl

/-- A name that is read back has no NUL. -/
theorem decodeRrq_no_nul {packet : List UInt8} {r : Rrq} (h : decodeRrq packet = some r) : 0 ∉ r.filename := by
  unfold decodeRrq at h
  split at h
  · split_ifs at h
    obtain ⟨fields, hfields, hr⟩ := Option.bind_eq_some_iff.mp h
    unfold rrqOfFields at hr
    split at hr
    · obtain ⟨options, -, rfl⟩ := Option.map_eq_some_iff.mp hr
      exact fieldsFrom_no_nul (by simp) hfields
    · cases hr
  · cases h

theorem decodeRrq_iff (name : List UInt8) :
    decodeRrq (rrqBytes name) = some ⟨name, octet, []⟩ ↔ name.length ≤ 128 ∧ 0 ∉ name := by
  constructor
  · intro h
    have hnul : 0 ∉ name := decodeRrq_no_nul h
    have htake : 0 ∉ name.take 128 := fun hmem => hnul (List.mem_of_mem_take hmem)
    have hshort := decodeRrq_named htake (by simp)
    have hsame : rrqBytes (name.take 128) = rrqBytes name := by simp [rrqBytes]
    rw [hsame, h] at hshort
    have hname := congrArg Rrq.filename (Option.some.inj hshort)
    refine ⟨?_, hnul⟩
    have hlen := congrArg List.length hname
    simp only [List.length_take] at hlen
    omega
  · rintro ⟨hlen, hnul⟩
    exact decodeRrq_named hnul hlen

/-- A request that is sent names the file exactly for a short name without NUL. -/
theorem named_sent_iff (name : List UInt8) :
    Named name (some <$> rrqOf (remoteName name)) ↔ (remoteName name).length ≤ 128 ∧ 0 ∉ remoteName name := by
  rw [rrqOf_eq, ← decodeRrq_iff]
  constructor
  · rintro ⟨rrq?, hsent, hnamed⟩
    cases hsent
    exact hnamed _ rfl
  · intro h
    refine ⟨_, rfl, ?_⟩
    rintro rrq ⟨⟩
    exact h

theorem named_none (name : List UInt8) : Named name (.ok none) := ⟨none, rfl, by simp⟩

/-- **Which requests name their file.** -/
theorem requests_named_iff (c : FetchContext) (s : Files) (name saveAs : List UInt8) :
    (Named name (loadFileRequest c name) ↔
      httpPrefix.isPrefixOf name ∨ c.off ∨ ((remoteName name).length ≤ 128 ∧ 0 ∉ remoteName name)) ∧
    (Named name (fetchFileRequest c s name saveAs) ↔
      ¬ fetchable name saveAs ∨ c.off ∨ freeSlot s = none ∨ 0 ∉ remoteName name) := by
  constructor
  · unfold loadFileRequest
    by_cases hhttp : httpPrefix.isPrefixOf name = true
    · simp [hhttp, named_none]
    by_cases hoff : c.off = true
    · simp [hoff, named_none]
    rw [if_neg hhttp, if_neg hoff, named_sent_iff]
    simp [hhttp, hoff]
  · unfold fetchFileRequest
    by_cases hfetch : fetchable name saveAs = true
    · by_cases hoff : c.off = true
      · simp [hoff, named_none]
      cases hslot : freeSlot s with
      | none => simp [named_none]
      | some i =>
        have hshort : (remoteName name).length ≤ 128 := by
          simp only [fetchable, Bool.and_eq_true, decide_eq_true_eq] at hfetch
          omega
        have hsent := named_sent_iff name
        simp only [hshort, true_and] at hsent
        simp [hfetch, hoff, hsent]
    · simp [hfetch, named_none]

/-- `dofile("a\0b")`: the server is asked for `a`. -/
theorem nul_in_name : ¬ Named [0x61, 0, 0x62] (loadFileRequest ⟨0x10000000, #v[10, 0, 2, 2]⟩ [0x61, 0, 0x62]) := by
  rintro ⟨rrq?, hsent, hnamed⟩
  have hrequest : loadFileRequest ⟨0x10000000, #v[10, 0, 2, 2]⟩ [0x61, 0, 0x62] =
      .ok (some (rrqBytes [0x61, 0, 0x62])) := by
    change some <$> rrqOf [0x61, 0, 0x62] = _
    rw [rrqOf_eq]
    rfl
  rw [hrequest] at hsent
  cases hsent
  have hdecoded := hnamed _ rfl
  revert hdecoded
  decide

end Rustrapper.Bios

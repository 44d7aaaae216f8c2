/-
# DNS queries

`build_query` of `dns.rs` writes a query for the address of a name into a buffer
of 256 bytes, or returns 0. The query is a header and one question whose name is
encoded label by label (`IsQuery`). The check in front of a label leaves no room
for the five bytes behind the last one, so a name of 239 to 242 bytes makes the
writer leave the buffer, and these names alone (`buildQuery_encodes_iff`).
-/
import Rustrapper.Codec.Text

namespace Rustrapper.Net.Dns

open Codec

/-! ### The query -/

/-- A name's labels are 1 to 63 bytes long. -/
def ValidLabels (labels : List (List UInt8)) : Prop := ∀ l ∈ labels, 1 ≤ l.length ∧ l.length ≤ 63

instance (labels : List (List UInt8)) : Decidable (ValidLabels labels) := by
  unfold ValidLabels
  infer_instance

/-- The labels, each behind its length. -/
def encodeLabels (labels : List (List UInt8)) : List UInt8 := labels.flatMap fun l => UInt8.ofNat l.length :: l

/-- The 12 bytes in front of the question: the id, a standard query with recursion desired, one question. -/
def header (id : UInt16) : List UInt8 := toBE 2 id.toNat ++ [0x01, 0x00, 0x00, 0x01, 0, 0, 0, 0, 0, 0]

/-- The root label, QTYPE 1 and QCLASS 1. -/
def questionEnd : List UInt8 := [0, 0x00, 0x01, 0x00, 0x01]

/-- A query for the labels. -/
def query (id : UInt16) (labels : List (List UInt8)) : List UInt8 := header id ++ encodeLabels labels ++ questionEnd

/-- The bytes are a query for the name: its labels, joined by dots, are the name. -/
def IsQuery (id : UInt16) (name bs : List UInt8) : Prop :=
  ∃ labels, ValidLabels labels ∧ [0x2E].intercalate labels = name ∧ bs = query id labels

/-! ### `build_query` -/

/-- The loop over the labels: the offset behind them, if none was refused. -/
def putLabels : List (List UInt8) → ℕ → Vector UInt8 256 → Scan (Option ℕ × Vector UInt8 256)
  | [], off, buf => .ok (some off, buf)
  | label :: labels, off, buf =>
    let l := label.length
    if l = 0 ∨ l > 63 ∨ off + 1 + l ≥ 256 then .ok (none, buf)
    else do
      let buf ← store buf off (UInt8.ofNat l)
      let buf ← copyAt buf (off + 1) label
      putLabels labels (off + 1 + l) buf

/-- `build_query`: what it returns, and the buffer. -/
def buildQuery (id : UInt16) (name : List UInt8) (buf : Vector UInt8 256) : Scan (ℕ × Vector UInt8 256) := do
  let buf ← copyAt buf 0 (toBE 2 id.toNat)
  let buf ← store buf 2 0x01
  let buf ← store buf 3 0x00
  let buf ← store buf 4 0x00
  let buf ← store buf 5 0x01
  let buf ← copyAt buf 6 (List.replicate 6 0)
  match ← putLabels (name.splitOn 0x2E) 12 buf with
  | (none, buf) => .ok (0, buf)
  | (some off, buf) => do
    let buf ← store buf off 0
    let off := off + 1
    let buf ← store buf off 0x00
    let buf ← store buf (off + 1) 0x01
    let buf ← store buf (off + 2) 0x00
    let buf ← store buf (off + 3) 0x01
    .ok (off + 4, buf)

/-! ### What is written -/

variable {labels : List (List UInt8)} {off : ℕ} {buf : Vector UInt8 256}

theorem length_encodeLabels_cons (l : List UInt8) (labels : List (List UInt8)) :
    (encodeLabels (l :: labels)).length = 1 + l.length + (encodeLabels labels).length := by
  simp [encodeLabels]
  omega

/-- Valid labels that end below 256 are written. -/
theorem putLabels_ok (hvalid : ValidLabels labels) (hroom : off + (encodeLabels labels).length < 256) :
    putLabels labels off buf =
      .ok (some (off + (encodeLabels labels).length), putAt buf off (encodeLabels labels)) := by
  induction labels generalizing off buf with
  | nil =>
    have hnone : putAt buf off [] = buf := by
      ext i hi
      simp [putAt, Vector.get_eq_getElem]
    simp [putLabels, encodeLabels, hnone]
  | cons l labels ih =>
    obtain ⟨⟨h1, h63⟩, hrest⟩ := List.forall_mem_cons.mp hvalid
    rw [length_encodeLabels_cons] at hroom
    have hguard : ¬ (l.length = 0 ∨ l.length > 63 ∨ off + 1 + l.length ≥ 256) := by omega
    have henc : encodeLabels (l :: labels) = [UInt8.ofNat l.length] ++ l ++ encodeLabels labels := by simp [encodeLabels]
    rw [putLabels, if_neg hguard, store_ok (by omega), henc]
    simp only [bind, Except.bind]
    have hmerge1 : putAt (putAt buf off [UInt8.ofNat l.length]) (off + 1) l = _ :=
      putAt_putAt buf off [UInt8.ofNat l.length] l
    rw [copyAt_ok (by omega), hmerge1]
    simp only [ih hrest (show off + 1 + l.length + (encodeLabels labels).length < 256 by omega)]
    have hmerge := putAt_putAt buf off ([UInt8.ofNat l.length] ++ l) (encodeLabels labels)
    rw [List.length_append, List.length_singleton, ← Nat.add_assoc] at hmerge
    rw [hmerge]
    simp only [List.length_append, List.length_singleton, Nat.add_assoc]

/-- Labels that are not valid, or do not end below 256, are refused. -/
theorem putLabels_refused (hoff : off < 256)
    (h : ¬ (ValidLabels labels ∧ off + (encodeLabels labels).length < 256)) :
    ∃ buf', putLabels labels off buf = .ok (none, buf') := by
  induction labels generalizing off buf with
  | nil => exact absurd ⟨by simp [ValidLabels], by simpa [encodeLabels] using hoff⟩ h
  | cons l labels ih =>
    rw [putLabels]
    by_cases hguard : l.length = 0 ∨ l.length > 63 ∨ off + 1 + l.length ≥ 256
    · exact ⟨buf, if_pos hguard⟩
    · rw [if_neg hguard, store_ok (by omega)]
      simp only [bind, Except.bind]
      rw [copyAt_ok (by omega)]
      refine ih (by omega) fun hrest => h ⟨List.forall_mem_cons.mpr ⟨by omega, hrest.1⟩, ?_⟩
      rw [length_encodeLabels_cons]
      omega

@[simp] theorem length_header (id : UInt16) : (header id).length = 12 := by simp [header]

/-- **What `build_query` does**: the header, the labels, and behind them the end of the question. -/
theorem buildQuery_eq (id : UInt16) (name : List UInt8) (buf : Vector UInt8 256) : buildQuery id name buf =
    putLabels (name.splitOn 0x2E) 12 (putAt buf 0 (header id)) >>= fun p =>
      match p with
      | (none, buf) => .ok (0, buf)
      | (some off, buf) => copyAt buf off questionEnd >>= fun buf => .ok (off + 5, buf) := by
  have hheader : ∀ k : Vector UInt8 256 → Scan (ℕ × Vector UInt8 256),
      (copyAt buf 0 (toBE 2 id.toNat) >>= fun buf => store buf 2 0x01 >>= fun buf => store buf 3 0x00 >>= fun buf =>
        store buf 4 0x00 >>= fun buf => store buf 5 0x01 >>= fun buf => copyAt buf 6 (List.replicate 6 0) >>= k) =
      k (putAt buf 0 (header id)) := by
    intro k
    have hwhole : copyAt buf 0 (header id) = .ok (putAt buf 0 (header id)) := copyAt_ok (by simp)
    have hrest : ∀ buf : Vector UInt8 256, copyAt buf 2 [0x01, 0x00, 0x00, 0x01, 0, 0, 0, 0, 0, 0] =
        store buf 2 0x01 >>= fun buf => store buf 3 0x00 >>= fun buf => store buf 4 0x00 >>= fun buf =>
          store buf 5 0x01 >>= fun buf => copyAt buf 6 (List.replicate 6 0) := by
      intro buf
      simp only [copyAt_cons, List.replicate]
    rw [header, copyAt_append, length_toBE, bind_congr hrest] at hwhole
    calc _ = (copyAt buf 0 (toBE 2 id.toNat) >>= fun buf => store buf 2 0x01 >>= fun buf => store buf 3 0x00 >>=
          fun buf => store buf 4 0x00 >>= fun buf => store buf 5 0x01 >>= fun buf =>
            copyAt buf 6 (List.replicate 6 0)) >>= k := by simp only [bind_assoc]
      _ = k (putAt buf 0 (header id)) := by
        rw [hwhole]
        rfl
  rw [buildQuery, hheader]
  refine bind_congr fun p => ?_
  obtain ⟨_ | off, buf⟩ := p
  · rfl
  · simp only [questionEnd, copyAt_cons, copyAt_singleton, bind_assoc]

/-- A name is one byte shorter than its labels with their lengths. -/
theorem length_encodeLabels_splitOn (name : List UInt8) :
    (encodeLabels (name.splitOn 0x2E)).length = name.length + 1 := by
  rw [← sum_splitOn 0x2E name, encodeLabels, List.length_flatMap]
  simp

section
variable (id : UInt16) {name : List UInt8} (buf : Vector UInt8 256)

theorem length_query (name : List UInt8) : (query id (name.splitOn 0x2E)).length = name.length + 18 := by
  simp only [query, List.length_append, length_header, length_encodeLabels_splitOn, questionEnd, List.length_cons,
    List.length_nil]
  omega

/-- The buffer behind valid labels, and what is written next. -/
theorem buildQuery_labels (hvalid : ValidLabels (name.splitOn 0x2E)) (hlen : name.length ≤ 242) :
    buildQuery id name buf = copyAt (putAt buf 0 (header id ++ encodeLabels (name.splitOn 0x2E))) (name.length + 13)
      questionEnd >>= fun buf => .ok (name.length + 18, buf) := by
  have henc := length_encodeLabels_splitOn name
  have hmerge := putAt_putAt buf 0 (header id) (encodeLabels (name.splitOn 0x2E))
  rw [length_header, Nat.zero_add] at hmerge
  rw [buildQuery_eq, putLabels_ok hvalid (by omega), hmerge, henc]
  simp only [bind, Except.bind, show 12 + (name.length + 1) = name.length + 13 by omega, Nat.add_assoc]

theorem buildQuery_encoded (hvalid : ValidLabels (name.splitOn 0x2E)) (hlen : name.length ≤ 238) :
    buildQuery id name buf = .ok (name.length + 18, putAt buf 0 (query id (name.splitOn 0x2E))) := by
  have hoff : (header id ++ encodeLabels (name.splitOn 0x2E)).length = name.length + 13 := by
    rw [List.length_append, length_header, length_encodeLabels_splitOn]
    omega
  have hwhole := putAt_putAt buf 0 (header id ++ encodeLabels (name.splitOn 0x2E)) questionEnd
  rw [hoff, Nat.zero_add] at hwhole
  rw [buildQuery_labels id buf hvalid (by omega), copyAt_ok, hwhole]
  · rfl
  · simp only [questionEnd, List.length_cons, List.length_nil]
    omega

/-- The end of the question lies behind the buffer. -/
theorem buildQuery_outside (hvalid : ValidLabels (name.splitOn 0x2E)) (hlo : 239 ≤ name.length)
    (hhi : name.length ≤ 242) : buildQuery id name buf = .error .outside := by
  rw [buildQuery_labels id buf hvalid hhi, copyAt, if_neg]
  · rfl
  · simp only [questionEnd, List.length_cons, List.length_nil]
    omega

theorem buildQuery_refused (h : ¬ (ValidLabels (name.splitOn 0x2E) ∧ name.length ≤ 242)) :
    ∃ buf', buildQuery id name buf = .ok (0, buf') := by
  have henc := length_encodeLabels_splitOn name
  obtain ⟨buf', hrefused⟩ := @putLabels_refused (name.splitOn 0x2E) 12
    (putAt buf 0 (header id)) (by norm_num) fun hok => h ⟨hok.1, by omega⟩
  exact ⟨buf', by rw [buildQuery_eq, hrefused]; rfl⟩

/-- The writer stays inside the buffer and returns 0 or the length of a query for the name; it returns a query for
every name whose labels are valid and whose query fits into the buffer. -/
def EncodesOrRefuses (name : List UInt8) : Prop :=
  ∃ n buf', buildQuery id name buf = .ok (n, buf') ∧
    (n = 0 ∨ n ≤ 256 ∧ IsQuery id name (buf'.toList.take n)) ∧
    (ValidLabels (name.splitOn 0x2E) → (query id (name.splitOn 0x2E)).length ≤ 256 → n ≠ 0)

/-- **When `build_query` encodes or refuses**: always, but for the names of valid labels that are 239 to 242 bytes
long. -/
theorem buildQuery_encodes_iff (name : List UInt8) : EncodesOrRefuses id buf name ↔
    ¬ (ValidLabels (name.splitOn 0x2E) ∧ 239 ≤ name.length ∧ name.length ≤ 242) := by
  have hquery := length_query id name
  by_cases hok : ValidLabels (name.splitOn 0x2E) ∧ name.length ≤ 242
  · obtain ⟨hvalid, hlen⟩ := hok
    by_cases hfit : name.length ≤ 238
    · have htake := @take_putAt (query id (name.splitOn 0x2E)) _ buf (by omega)
      rw [hquery] at htake
      refine iff_of_true ⟨_, _, buildQuery_encoded id buf hvalid hfit, .inr ⟨by omega, ?_⟩, fun _ _ => by omega⟩
        (by omega)
      exact ⟨name.splitOn 0x2E, hvalid, List.intercalate_splitOn _, htake⟩
    · refine iff_of_false ?_ (not_not.mpr ⟨hvalid, by omega, hlen⟩)
      rintro ⟨n, buf', h, -⟩
      rw [buildQuery_outside id buf hvalid (by omega) hlen] at h
      cases h
  · obtain ⟨buf', hrefused⟩ := buildQuery_refused id buf hok
    refine iff_of_true ⟨0, buf', hrefused, .inl rfl, fun hvalid hlen => ?_⟩ fun h => hok ⟨h.1, h.2.2⟩
    exact absurd ⟨hvalid, by omega⟩ hok

end

/-- A name of 239 bytes: four labels of 59 bytes with dots between them. -/
def longName : List UInt8 := [0x2E].intercalate (List.replicate 4 (List.replicate 59 0x61))

/-- The last bytes of the question leave the buffer behind a name of 239 bytes. -/
theorem long_name_outside : buildQuery 0x1234 longName (Vector.replicate 256 0) = .error .outside ∧
    ¬ EncodesOrRefuses 0x1234 (Vector.replicate 256 0) longName := by
  have hout : buildQuery 0x1234 longName (Vector.replicate 256 0) = .error .outside :=
    buildQuery_outside _ _ (by decide +kernel) (by decide +kernel) (by decide +kernel)
  refine ⟨hout, ?_⟩
  rintro ⟨n, buf', h, -⟩
  rw [hout] at h
  cases h

end Rustrapper.Net.Dns

/-
# The default boot path

A device path is a sequence of nodes, each with its length, and an End node.
`build_default_file_path` copies the nodes of a path without a file, appends the
default boot file and an End node. Where its walk over the nodes meets no End
node it copies the whole source, so the path it builds is the one meant exactly
when the source ends with its last node or with an End node behind it
(`buildDefaultFilePath_wellFormed_iff`).
-/
import Rustrapper.Codec.Utf16

namespace Rustrapper.Uefi

open Codec

/-! ### The walks over the source -/

/-- The length of the node at `i`. -/
def nodeLen (f : Frame) (i : ℕ) : Scan ℕ := do
  let lo ← f.byte (i + 2)
  let hi ← f.byte (i + 3)
  .ok (ofLE [lo, hi])

/-- The first loop: whether a file path node comes before the End node. -/
def findsFile (f : Frame) (i : ℕ) : Scan Bool :=
  if i + 4 ≤ f.len then do
    let ty ← f.byte i
    let sub ← f.byte (i + 1)
    let len ← nodeLen f i
    if _h : len < 4 ∨ f.len < i + len then .ok false
    else if ty = 0x04 ∧ sub = 0x04 then .ok true
    else if ty = 0x7F then .ok false
    else findsFile f (i + len)
  else .ok false
termination_by f.len - i

/-- The second loop: `path_end`. -/
def findPathEnd (f : Frame) (i : ℕ) : Scan ℕ :=
  if i + 4 ≤ f.len then do
    let ty ← f.byte i
    let len ← nodeLen f i
    if _h : len < 4 ∨ f.len < i + len then .ok f.len
    else if ty = 0x7F then .ok i
    else findPathEnd f (i + len)
  else .ok f.len
termination_by f.len - i

/-- `path_str`: `\EFI\BOOT\BOOTX64.EFI` and zeros. -/
def pathStr : List UInt16 :=
  [0x5C, 0x45, 0x46, 0x49, 0x5C, 0x42, 0x4F, 0x4F, 0x54, 0x5C, 0x42, 0x4F, 0x4F, 0x54, 0x58, 0x36, 0x34, 0x2E,
    0x45, 0x46, 0x49, 0, 0, 0, 0]

/-- `char_count`. -/
def charCount : ℕ := (pathStr.takeWhile (· ≠ 0)).length

/-- `file_node_len`. -/
def fileNodeLen : ℕ := 4 + (charCount + 1) * 2

/-- The new path in a buffer for it: the source up to `path_end`, the file path
node, the End node. -/
def fillPath (f : Frame) (pathEnd : ℕ) {n : ℕ} (buf : Vector UInt8 n) : Scan (List UInt8) := do
  let path ← f.range 0 pathEnd
  let buf ← copyAt buf 0 path
  let buf ← store buf pathEnd 0x04
  let buf ← store buf (pathEnd + 1) 0x04
  let buf ← store buf (pathEnd + 2) (UInt8.ofNat (fileNodeLen &&& 0xFF))
  let buf ← store buf (pathEnd + 3) (UInt8.ofNat (fileNodeLen >>> 8))
  let buf ← copyAt buf (pathEnd + 4) (utf16 (pathStr.take (charCount + 1)))
  let buf ← store buf (pathEnd + fileNodeLen) 0x7F
  let buf ← store buf (pathEnd + fileNodeLen + 1) 0xFF
  let buf ← store buf (pathEnd + fileNodeLen + 2) 0x04
  let buf ← store buf (pathEnd + fileNodeLen + 3) 0x00
  .ok buf.toList

/-- `build_default_file_path`; the pool gives a buffer of the size asked for, or
none. -/
def buildDefaultFilePath (allocatePool : (n : ℕ) → Option (Vector UInt8 n)) (f : Frame) :
    Scan (Option (List UInt8)) := do
  let hasFile ← findsFile f 0
  if hasFile then .ok none
  else do
    let pathEnd ← findPathEnd f 0
    match allocatePool (pathEnd + fileNodeLen + 4) with
    | none => .ok none
    | some buf => some <$> fillPath f pathEnd buf

/-! ### Device paths -/

/-- A node other than an End node. -/
structure Node where
  type : UInt8
  sub : UInt8
  data : List UInt8
  inner : type ≠ 0x7F
  short : data.length + 4 < 65536

def Node.bytes (n : Node) : List UInt8 := n.type :: n.sub :: (toLE 2 (n.data.length + 4) ++ n.data)

/-- The node that ends a path. -/
def endEntire : List UInt8 := [0x7F, 0xFF, 0x04, 0x00]

theorem ofLE_two_lt (lo hi : UInt8) : ofLE [lo, hi] < 65536 := by
  have h := ofLE_lt [lo, hi]
  simpa using h

theorem take_short {lo hi : UInt8} {bs : List UInt8} (h : ¬ (ofLE [lo, hi] < 4 ∨ bs.length + 4 < ofLE [lo, hi])) :
    (bs.take (ofLE [lo, hi] - 4)).length + 4 < 65536 := by
  have := ofLE_two_lt lo hi
  rw [List.length_take]
  omega

/-- Walking by node lengths: the nodes before the first End node, and the bytes
from where the walk stops, there or at a node that is not whole. -/
def walk : List UInt8 → List Node × List UInt8
  | ty :: sub :: lo :: hi :: bs =>
    if h : ofLE [lo, hi] < 4 ∨ bs.length + 4 < ofLE [lo, hi] then ([], ty :: sub :: lo :: hi :: bs)
    else if hty : ty = 0x7F then ([], ty :: sub :: lo :: hi :: bs)
    else
      let rest := walk (bs.drop (ofLE [lo, hi] - 4))
      (⟨ty, sub, bs.take (ofLE [lo, hi] - 4), hty, take_short h⟩ :: rest.1, rest.2)
  | bs => ([], bs)
termination_by bs => bs.length

/-- The bytes begin with a whole End node. -/
def isEnd : List UInt8 → Bool
  | ty :: _ :: lo :: hi :: bs => ty = 0x7F ∧ 4 ≤ ofLE [lo, hi] ∧ ofLE [lo, hi] ≤ bs.length + 4
  | _ => false

def Node.isFile (n : Node) : Bool := n.type = 0x04 ∧ n.sub = 0x04

/-- The node of the default boot file. -/
def defaultNode : Node := ⟨0x04, 0x04, utf16 (pathStr.take (charCount + 1)), by decide, by decide⟩

/-- What is asked of the new path, for every pool: no read or write outside; none
for a path with a file or without a buffer; else the nodes of the source, the
boot file and an End node at the end. -/
structure WellFormed (src : List UInt8) : Prop where
  inside : ∀ pool, Inside (buildDefaultFilePath pool (.whole src))
  file : (∃ n ∈ (walk src).1, n.isFile) → ∀ pool, buildDefaultFilePath pool (.whole src) = .ok none
  failed : buildDefaultFilePath (fun _ => none) (.whole src) = .ok none
  built : (¬ ∃ n ∈ (walk src).1, n.isFile) → ∀ pool, (∀ n, pool n ≠ none) →
    ∃ out, buildDefaultFilePath pool (.whole src) = .ok (some out) ∧
      walk out = ((walk src).1 ++ [defaultNode], endEntire)

/-! ### What the walks find -/

variable {src bs : List UInt8} {i : ℕ} {ty sub lo hi : UInt8}

/-- The walk splits its bytes. -/
theorem walk_bytes (bs : List UInt8) : (walk bs).1.flatMap Node.bytes ++ (walk bs).2 = bs := by
  induction bs using walk.induct with
  | case1 ty sub lo hi bs h =>
    rw [walk, dif_pos h]
    rfl
  | case2 sub lo hi bs h =>
    rw [walk, dif_neg h, dif_pos rfl]
    rfl
  | case3 ty sub lo hi bs h hty ih =>
    rw [walk, dif_neg h, dif_neg hty]
    have hlen : (bs.take (ofLE [lo, hi] - 4)).length + 4 = ofLE [lo, hi] := by
      rw [List.length_take]
      omega
    simp only [List.flatMap_cons, Node.bytes, hlen, List.append_assoc, List.cons_append, ih]
    change ty :: sub :: (toLE [lo, hi].length (ofLE [lo, hi]) ++ _) = _
    rw [toLE_ofLE, List.take_append_drop]
    rfl
  | case4 bs h =>
    rw [walk]
    · rfl
    · exact h

/-- A node in front is walked over. -/
theorem walk_node (n : Node) (bs : List UInt8) : walk (n.bytes ++ bs) = (n :: (walk bs).1, (walk bs).2) := by
  have hshort := n.short
  obtain ⟨lo, hi, hle⟩ := List.length_eq_two.mp (length_toLE 2 (n.data.length + 4))
  have hlen : ofLE [lo, hi] = n.data.length + 4 := by
    rw [← hle, ofLE_toLE]
    exact Nat.mod_eq_of_lt hshort
  have hbytes : n.bytes ++ bs = n.type :: n.sub :: lo :: hi :: (n.data ++ bs) := by simp [Node.bytes, hle]
  have htake : (n.data ++ bs).take (ofLE [lo, hi] - 4) = n.data := by
    rw [hlen, Nat.add_sub_cancel]
    exact List.take_left
  have hdrop : (n.data ++ bs).drop (ofLE [lo, hi] - 4) = bs := by
    rw [hlen, Nat.add_sub_cancel]
    exact List.drop_left
  have hwhole : ¬ (ofLE [lo, hi] < 4 ∨ (n.data ++ bs).length + 4 < ofLE [lo, hi]) := by
    rw [hlen, List.length_append]
    omega
  rw [hbytes, walk, dif_neg hwhole, dif_neg n.inner]
  simp only [htake, hdrop]

theorem walk_nodes (ns : List Node) (bs : List UInt8) :
    walk (ns.flatMap Node.bytes ++ bs) = (ns ++ (walk bs).1, (walk bs).2) := by
  induction ns with
  | nil => rfl
  | cons n ns ih =>
    rw [List.flatMap_cons, List.append_assoc, walk_node, ih]
    rfl

theorem walk_endEntire : walk endEntire = ([], endEntire) := by
  have hwhole : ¬ (ofLE [0x04, 0x00] < 4 ∨ ([] : List UInt8).length + 4 < ofLE [0x04, 0x00]) := by decide
  rw [endEntire, walk, dif_neg hwhole, dif_pos rfl]

/-- What the loops read of a node. -/
structure Reads (f : Frame) (i : ℕ) (ty sub lo hi : UInt8) (bs : List UInt8) : Prop where
  type : f.byte i = .ok ty
  sub : f.byte (i + 1) = .ok sub
  len : nodeLen f i = .ok (ofLE [lo, hi])
  size : f.len = i + (bs.length + 4)

theorem reads_node (h : src.drop i = ty :: sub :: lo :: hi :: bs) : Reads (.whole src) i ty sub lo hi bs := by
  have hsize : src.length = i + (bs.length + 4) := by
    have hlen := congrArg List.length h
    simp only [List.length_drop, List.length_cons] at hlen
    omega
  have hhas : (Frame.whole src).Has i [ty, sub, lo, hi] := by
    refine ⟨?_, ?_⟩
    · simp only [Frame.whole, List.length_cons, List.length_nil]
      omega
    · simp only [Frame.whole, slice, h]
      rfl
  refine ⟨hhas.byte, hhas.tail.byte, ?_, hsize⟩
  rw [nodeLen, hhas.tail.tail.byte, ok_then, hhas.tail.tail.tail.byte, ok_then]

theorem short_of_not_node {bs : List UInt8}
    (h : ∀ (ty sub lo hi : UInt8) (bs' : List UInt8), bs = ty :: sub :: lo :: hi :: bs' → False) : bs.length < 4 := by
  rcases bs with _ | ⟨ty, _ | ⟨sub, _ | ⟨lo, _ | ⟨hi, bs⟩⟩⟩⟩
  · simp
  · simp
  · simp
  · simp
  · exact (h ty sub lo hi bs rfl).elim

/-- The first loop looks for a file among the nodes. -/
theorem findsFile_eq (bs : List UInt8) : ∀ {i : ℕ}, src.drop i = bs → i ≤ src.length →
    findsFile (.whole src) i = .ok ((walk bs).1.any Node.isFile) := by
  induction bs using walk.induct with
  | case1 ty sub lo hi bs h =>
    intro i hdrop _
    have hr := reads_node hdrop
    have hsize := hr.size
    rw [findsFile, if_pos (by omega), hr.type, ok_then, hr.sub, ok_then, hr.len, ok_then, dif_pos (by omega), walk,
      dif_pos h]
    rfl
  | case2 sub lo hi bs h =>
    intro i hdrop _
    have hr := reads_node hdrop
    have hsize := hr.size
    have hfile : ¬ ((0x7F : UInt8) = 0x04 ∧ sub = 0x04) := fun hf => absurd hf.1 (by decide)
    rw [findsFile, if_pos (by omega), hr.type, ok_then, hr.sub, ok_then, hr.len, ok_then, dif_neg (by omega),
      if_neg hfile, if_pos rfl, walk, dif_neg h, dif_pos rfl]
    rfl
  | case3 ty sub lo hi bs h hty ih =>
    intro i hdrop hle
    have hr := reads_node hdrop
    have hsize := hr.size
    have hsrc : (Frame.whole src).len = src.length := rfl
    rw [findsFile, if_pos (by omega), hr.type, ok_then, hr.sub, ok_then, hr.len, ok_then, dif_neg (by omega), walk,
      dif_neg h, dif_neg hty]
    by_cases hfile : ty = 0x04 ∧ sub = 0x04
    · rw [if_pos hfile]
      simp [Node.isFile, hfile]
    · have hnext : src.drop (i + ofLE [lo, hi]) = bs.drop (ofLE [lo, hi] - 4) := by
        rw [← List.drop_drop, hdrop, show ofLE [lo, hi] = (ofLE [lo, hi] - 4) + 4 by omega]
        rfl
      rw [if_neg hfile, if_neg hty, ih hnext (by omega)]
      simp [Node.isFile, hfile]
  | case4 bs h =>
    intro i hdrop hle
    have hshort := short_of_not_node h
    have hlen := congrArg List.length hdrop
    rw [List.length_drop] at hlen
    have hend : ¬ i + 4 ≤ (Frame.whole src).len := by
      change ¬ i + 4 ≤ src.length
      omega
    rw [findsFile, if_neg hend, walk]
    · rfl
    · exact h

/-- The second loop finds the End node that the walk stops at, or the end of the source. -/
theorem findPathEnd_eq (bs : List UInt8) : ∀ {i : ℕ}, src.drop i = bs → i ≤ src.length →
    findPathEnd (.whole src) i =
      .ok (if isEnd (walk bs).2 then src.length - (walk bs).2.length else src.length) := by
  induction bs using walk.induct with
  | case1 ty sub lo hi bs h =>
    intro i hdrop _
    have hr := reads_node hdrop
    have hsize := hr.size
    have hend : isEnd (ty :: sub :: lo :: hi :: bs) = false := by
      simp only [isEnd, decide_eq_false_iff_not]
      rintro ⟨-, h1, h2⟩
      omega
    rw [findPathEnd, if_pos (by omega), hr.type, ok_then, hr.len, ok_then, dif_pos (by omega), walk, dif_pos h]
    simp [hend, Frame.whole]
  | case2 sub lo hi bs h =>
    intro i hdrop _
    have hr := reads_node hdrop
    have hsize := hr.size
    have hsrc : (Frame.whole src).len = src.length := rfl
    have hend : isEnd (0x7F :: sub :: lo :: hi :: bs) = true := by
      simp only [isEnd, decide_eq_true_eq]
      exact ⟨trivial, by omega, by omega⟩
    rw [findPathEnd, if_pos (by omega), hr.type, ok_then, hr.len, ok_then, dif_neg (by omega), if_pos rfl, walk,
      dif_neg h, dif_pos rfl, if_pos hend]
    congr 1
    simp only [List.length_cons]
    omega
  | case3 ty sub lo hi bs h hty ih =>
    intro i hdrop hle
    have hr := reads_node hdrop
    have hsize := hr.size
    have hsrc : (Frame.whole src).len = src.length := rfl
    have hnext : src.drop (i + ofLE [lo, hi]) = bs.drop (ofLE [lo, hi] - 4) := by
      rw [← List.drop_drop, hdrop, show ofLE [lo, hi] = (ofLE [lo, hi] - 4) + 4 by omega]
      rfl
    rw [findPathEnd, if_pos (by omega), hr.type, ok_then, hr.len, ok_then, dif_neg (by omega), if_neg hty,
      ih hnext (by omega), walk, dif_neg h, dif_neg hty]
  | case4 bs h =>
    intro i hdrop hle
    have hshort := short_of_not_node h
    have hlen := congrArg List.length hdrop
    rw [List.length_drop] at hlen
    have hstop : ¬ i + 4 ≤ (Frame.whole src).len := by
      change ¬ i + 4 ≤ src.length
      omega
    have hend : isEnd bs = false := by
      rw [isEnd]
      exact h
    rw [findPathEnd, if_neg hstop, walk]
    · simp [hend, Frame.whole]
    · exact h

/-! ### The new path -/

/-- The new path: the source up to `path_end`, the default node, the End node. -/
theorem fillPath_eq {pathEnd : ℕ} (h : pathEnd ≤ src.length) (buf : Vector UInt8 (pathEnd + fileNodeLen + 4)) :
    fillPath (.whole src) pathEnd buf = .ok (src.take pathEnd ++ (defaultNode.bytes ++ endEntire)) := by
  have hnode : fileNodeLen = 48 := by decide
  have htext : (utf16 (pathStr.take (charCount + 1))).length = 44 := by decide
  have hlen : (src.take pathEnd).length = pathEnd := by simp [h]
  have hrange : (Frame.whole src).range 0 pathEnd = .ok (src.take pathEnd) := by
    have hbytes := (has_whole (src.take pathEnd ++ src.drop pathEnd)).left.range
    rwa [hlen, List.take_append_drop, Nat.zero_add] at hbytes
  have hall : src.take pathEnd ++ [(0x04 : UInt8)] ++ [(0x04 : UInt8)] ++ [UInt8.ofNat (fileNodeLen &&& 0xFF)] ++
      [UInt8.ofNat (fileNodeLen >>> 8)] ++ utf16 (pathStr.take (charCount + 1)) ++ [(0x7F : UInt8)] ++
      [(0xFF : UInt8)] ++ [(0x04 : UInt8)] ++ [(0x00 : UInt8)] = src.take pathEnd ++ (defaultNode.bytes ++ endEntire) := by
    simp only [List.append_assoc]
    rfl
  have hnew : (src.take pathEnd ++ (defaultNode.bytes ++ endEntire)).length = pathEnd + fileNodeLen + 4 := by
    rw [List.length_append, hlen, Nat.add_assoc]
    rfl
  unfold fillPath
  rw [hrange, ok_then, copyAt_ok (by omega), ok_then, store_next (by omega) (by omega),
    store_next (by simp [hlen]) (by omega), store_next (by simp [hlen]) (by omega),
    store_next (by simp [hlen]) (by omega), copy_next (by simp [hlen]) (by omega),
    store_next (by simp [hlen, htext, hnode]) (by omega), store_next (by simp [hlen, htext, hnode]) (by omega),
    store_next (by simp [hlen, htext, hnode]) (by omega), store_next (by simp [hlen, htext, hnode]) (by omega), hall]
  have htake := take_putAt buf hnew.le
  rw [hnew, List.take_of_length_le (by simp)] at htake
  exact congrArg Except.ok htake

/-- What is copied of the source: its nodes, or all of it where the walk meets no End node. -/
def copied (src : List UInt8) : List UInt8 :=
  if isEnd (walk src).2 then (walk src).1.flatMap Node.bytes else src

theorem take_pathEnd (src : List UInt8) :
    src.take (if isEnd (walk src).2 then src.length - (walk src).2.length else src.length) = copied src := by
  unfold copied
  by_cases h : isEnd (walk src).2 = true
  · rw [if_pos h, if_pos h]
    have hsplit := walk_bytes src
    have hlen := congrArg List.length hsplit
    rw [List.length_append] at hlen
    have hnodes : src.length - (walk src).2.length = ((walk src).1.flatMap Node.bytes).length := by omega
    rw [hnodes]
    calc src.take ((walk src).1.flatMap Node.bytes).length
        = ((walk src).1.flatMap Node.bytes ++ (walk src).2).take ((walk src).1.flatMap Node.bytes).length := by
          rw [hsplit]
      _ = (walk src).1.flatMap Node.bytes := List.take_left
  · rw [if_neg h, if_neg h, List.take_length]

/-- The outcome: none for a path with a file or without a buffer, else what is
copied, the default node and the End node. -/
theorem buildDefaultFilePath_eq (pool : (n : ℕ) → Option (Vector UInt8 n)) (src : List UInt8) :
    (((walk src).1.any Node.isFile = true ∨ pool ((copied src).length + fileNodeLen + 4) = none) →
      buildDefaultFilePath pool (.whole src) = .ok none) ∧
    ((walk src).1.any Node.isFile = false → pool ((copied src).length + fileNodeLen + 4) ≠ none →
      buildDefaultFilePath pool (.whole src) = .ok (some (copied src ++ (defaultNode.bytes ++ endEntire)))) := by
  have hfile := @findsFile_eq src src 0 rfl (Nat.zero_le _)
  have hend := @findPathEnd_eq src src 0 rfl (Nat.zero_le _)
  have htake := take_pathEnd src
  generalize hpath : (if isEnd (walk src).2 then src.length - (walk src).2.length else src.length) = pathEnd
    at hend htake
  have hle : pathEnd ≤ src.length := by
    rw [← hpath]
    split_ifs
    · exact Nat.sub_le _ _
    · exact le_rfl
  have hlen : (copied src).length = pathEnd := by
    rw [← htake, List.length_take, min_eq_left hle]
  rw [hlen, ← htake]
  unfold buildDefaultFilePath
  rw [hfile, ok_then]
  constructor
  · intro h
    by_cases hany : (walk src).1.any Node.isFile = true
    · rw [if_pos hany]
    · rw [if_neg hany, hend, ok_then]
      simp only [h.resolve_left hany]
  · intro hany hpool
    obtain ⟨buf, hbuf⟩ := Option.ne_none_iff_exists'.mp hpool
    rw [hany, if_neg Bool.false_ne_true, hend, ok_then]
    simp only [hbuf, fillPath_eq hle buf]
    rfl

theorem any_isFile_iff (ns : List Node) : ns.any Node.isFile = true ↔ ∃ n ∈ ns, n.isFile := List.any_eq_true

/-- Without a file the walk stops at the end or at an End node. -/
theorem WellFormed.stops (h : WellFormed src) :
    (∃ n ∈ (walk src).1, n.isFile) ∨ (walk src).2 = [] ∨ isEnd (walk src).2 := by
  by_contra hnot
  rw [not_or, not_or] at hnot
  obtain ⟨hnone, hrest, hend⟩ := hnot
  obtain ⟨out, hout, hwalk⟩ := h.built hnone (fun n => some (.replicate n 0)) (by simp)
  have hfile : (walk src).1.any Node.isFile = false := Bool.eq_false_iff.mpr fun ha => hnone ((any_isFile_iff _).mp ha)
  rw [(buildDefaultFilePath_eq _ src).2 hfile (by simp)] at hout
  -- the bytes behind the nodes are copied, so they are in the new path too
  have hsame := walk_bytes out
  rw [hwalk, ← Option.some.inj (Except.ok.inj hout), copied, if_neg hend, List.flatMap_append,
    List.append_assoc] at hsame
  have hlen := congrArg List.length hsame
  have hsplit := congrArg List.length (walk_bytes src)
  simp only [List.length_append, List.flatMap_cons, List.flatMap_nil, List.length_nil, Nat.add_zero] at hlen hsplit
  apply hrest
  apply List.length_eq_zero_iff.mp
  omega

/-- Where the walk stops so, the nodes are what is copied. -/
theorem copied_eq (h : (walk src).2 = [] ∨ isEnd (walk src).2 = true) :
    copied src = (walk src).1.flatMap Node.bytes := by
  rcases h with hrest | hend
  · have hsplit := walk_bytes src
    rw [hrest, List.append_nil] at hsplit
    have hnot : ¬ isEnd (walk src).2 = true := by
      rw [hrest]
      exact Bool.false_ne_true
    rw [copied, if_neg hnot, hsplit]
  · rw [copied, if_pos hend]

theorem buildDefaultFilePath_inside (pool : (n : ℕ) → Option (Vector UInt8 n)) (src : List UInt8) :
    Inside (buildDefaultFilePath pool (.whole src)) := by
  have heq := buildDefaultFilePath_eq pool src
  by_cases ha : (walk src).1.any Node.isFile = true
  · rw [heq.1 (.inl ha)]
    exact .ok _
  · by_cases hpool : pool ((copied src).length + fileNodeLen + 4) = none
    · rw [heq.1 (.inr hpool)]
      exact .ok _
    · rw [heq.2 (Bool.eq_false_iff.mpr ha) hpool]
      exact .ok _

/-- **The default boot path is well formed** exactly for a source that has a
file, or that ends with its last node or an End node. -/
theorem buildDefaultFilePath_wellFormed_iff (src : List UInt8) :
    WellFormed src ↔ (∃ n ∈ (walk src).1, n.isFile) ∨ (walk src).2 = [] ∨ isEnd (walk src).2 := by
  have heq := fun pool => buildDefaultFilePath_eq pool src
  constructor
  · exact WellFormed.stops
  · intro h
    refine ⟨fun pool => buildDefaultFilePath_inside pool src, fun hfile pool => (heq pool).1 (.inl ?_),
      (heq _).1 (.inr rfl), ?_⟩
    · exact (any_isFile_iff _).mpr hfile
    · intro hnone pool hpool
      have hfile : (walk src).1.any Node.isFile = false :=
        Bool.eq_false_iff.mpr fun ha => hnone ((any_isFile_iff _).mp ha)
      refine ⟨_, (heq pool).2 hfile (hpool _), ?_⟩
      rw [copied_eq (h.resolve_left hnone), walk_nodes, walk_node, walk_endEntire]

/-- A path cut off one byte into its second node: the byte is copied too. -/
theorem cut_off_node_copied : ¬ WellFormed [0x01, 0x01, 0x04, 0x00, 0x04] := by
  intro h
  have hshort : walk [0x04] = ([], [0x04]) := by
    rw [walk]
    intro ty sub lo hi bs heq
    cases heq
  have hwalk := walk_node ⟨0x01, 0x01, [], by decide, by decide⟩ [0x04]
  rw [hshort] at hwalk
  change walk [0x01, 0x01, 0x04, 0x00, 0x04] = _ at hwalk
  have hstops := h.stops
  rw [hwalk] at hstops
  revert hstops
  decide

end Rustrapper.Uefi

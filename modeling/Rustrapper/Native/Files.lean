/-
# The native pseudo-filesystem

On the native target the stored files are a list of names and contents, searched
for the first match, and an open handle has a private copy of the bytes it was
opened on. `Files` is the code's state. `Shelf` is what the operations are for: a
map from names to contents beside the open handles.

The two agree in every run that fetches under new names only, opens no stored
bytes in mode `r+`, and closes no closed handle whose bytes are not the stored
ones (`files_are_a_map`).
-/
import Rustrapper.Codec.Bytes
import Rustrapper.Store.Assoc

namespace Rustrapper.Native

open Codec Store

/-! ### The code -/

/-- An open file handle in the pseudo-filesystem. -/
structure OpenFile where
  name : List UInt8
  data : List UInt8
  pos : ℕ
  closed : Bool
  writable : Bool
  deriving DecidableEq

/-- `FILES` and `OPEN_FILES`. -/
structure Files where
  files : List (List UInt8 × List UInt8)
  openFiles : List OpenFile

/-- `init_embedded`: of the embedded files, the first of each name. -/
def initEmbedded (embedded : List (List UInt8 × List UInt8)) : Files :=
  ⟨embedded.foldl (fun fl e => if (Assoc.get fl e.1).isNone then fl ++ [e] else fl) [], []⟩

/-- `fetch_file`, once the download gave `data`. -/
def fetchFile (s : Files) (saveAs data : List UInt8) : Files :=
  { s with files := s.files ++ [(saveAs, data)] }

/-- The mode contains `r` and no `+`. -/
def readsOnly (mode : List UInt8) : Bool := mode.contains 0x72 && !mode.contains 0x2B

/-- The mode contains `w`, `a` or `+`. -/
def isWritable (mode : List UInt8) : Bool := mode.contains 0x77 || mode.contains 0x61 || mode.contains 0x2B

/-- The bytes a new handle starts with. -/
def startData (stored : Option (List UInt8)) (mode : List UInt8) : List UInt8 :=
  if readsOnly mode || mode.contains 0x61 then stored.getD [] else []

/-- `io_open`. The handle's number is a `u8`, and 255 is none. -/
def ioOpen (s : Files) (name mode : List UInt8) : Files × Option ℕ :=
  let stored := Assoc.get s.files name
  if readsOnly mode && stored.isNone then (s, none)
  else
    let data := startData stored mode
    let files :=
      if isWritable mode && !name.isEmpty && stored.isNone then s.files ++ [(name, data)] else s.files
    let id := s.openFiles.length % 256
    if id = 255 then ({ s with files := files }, none)
    else (⟨files, s.openFiles ++ [⟨name, data, 0, false, isWritable mode⟩]⟩, some id)

/-- `io_close`. -/
def ioClose (s : Files) (id : ℕ) : Files × Bool :=
  match s.openFiles[id]? with
  | none => (s, false)
  | some f =>
    ({ files := if f.writable && !f.name.isEmpty then Assoc.put s.files f.name f.data else s.files
       openFiles := s.openFiles.set id { f with closed := true } }, true)

/-- What a read of the file copies into a buffer of `cap` bytes, and the new
position: all that is left (0), a line (1) or `n` bytes. -/
def OpenFile.read (f : OpenFile) (fmt n cap : ℕ) : Option (List UInt8) × ℕ :=
  if fmt = 1 then
    if f.data.length ≤ f.pos then (none, f.pos)
    else
      let stop := f.pos + ((f.data.drop f.pos).takeWhile (· ≠ 0x0A)).length
      let nr := min (stop - f.pos) cap
      let pos := if stop < f.data.length then stop + 1 else stop
      if nr = 0 ∧ f.pos = f.data.length then (none, pos) else (some (slice f.data f.pos nr), pos)
  else
    let want := if fmt = 0 ∨ n = 0 then cap else n
    let nr := min (min (f.data.length - f.pos) want) cap
    if nr = 0 then (none, f.pos) else (some (slice f.data f.pos nr), f.pos + nr)

/-- `io_read`. -/
def ioRead (s : Files) (id fmt n cap : ℕ) : Files × Option (List UInt8) :=
  match s.openFiles[id]? with
  | none => (s, none)
  | some f =>
    if f.closed then (s, none)
    else
      let r := f.read fmt n cap
      ({ s with openFiles := s.openFiles.set id { f with pos := r.2 } }, r.1)

/-- `io_write`. -/
def ioWrite (s : Files) (id : ℕ) (data : List UInt8) : Files × Bool :=
  match s.openFiles[id]? with
  | none => (s, false)
  | some f =>
    if f.closed || !f.writable then (s, false)
    else ({ s with openFiles := s.openFiles.set id { f with data := f.data ++ data } }, true)

/-- `os_remove`. -/
def osRemove (s : Files) (name : List UInt8) : Files × Bool :=
  match Assoc.get s.files name with
  | none => (s, false)
  | some _ => ({ s with files := Assoc.remove s.files name }, true)

/-- `os_rename`. -/
def osRename (s : Files) (old new : List UInt8) : Files × Bool :=
  match Assoc.get s.files old with
  | none => (s, false)
  | some data => ({ s with files := Assoc.put (Assoc.remove s.files old) new data }, true)

/-- Reading through the handle until there is no more, `cap` bytes at a time. -/
def readToEnd (s : Files) (id cap : ℕ) : ℕ → List UInt8
  | 0 => []
  | k + 1 =>
    match ioRead s id 0 0 cap with
    | (_, none) => []
    | (s', some bs) => bs ++ readToEnd s' id cap k

/-! ### What it is for -/

/-- The modes a file is opened in. -/
inductive Mode
  | r | w | a | rPlus | wPlus | aPlus

namespace Mode

def text : Mode → List UInt8
  | r => [0x72]
  | w => [0x77]
  | a => [0x61]
  | rPlus => [0x72, 0x2B]
  | wPlus => [0x77, 0x2B]
  | aPlus => [0x61, 0x2B]

def writes : Mode → Bool
  | r => false
  | _ => true

/-- The handle starts with the contents of the file. -/
def keeps : Mode → Bool
  | w | wPlus => false
  | _ => true

end Mode

/-- The contents of every name, and the handles in the order they were opened. -/
structure Shelf where
  content : List UInt8 → Option (List UInt8)
  handles : List OpenFile

namespace Shelf

def store (l : Shelf) (name data : List UInt8) : Shelf :=
  { l with content := Function.update l.content name (some data) }

/-- A new handle; a name that is opened for writing is there from then on. -/
def openFile (l : Shelf) (name : List UInt8) (mode : Mode) : Shelf :=
  { content :=
      if mode.writes && !name.isEmpty && (l.content name).isNone then
        Function.update l.content name (some [])
      else l.content
    handles := l.handles ++
      [⟨name, if mode.keeps then (l.content name).getD [] else [], 0, false, mode.writes⟩] }

/-- Closing stores what an open handle has written; a closed handle stays as it is. -/
def close (l : Shelf) (id : ℕ) : Shelf :=
  match l.handles[id]? with
  | none => l
  | some f =>
    if f.closed then l
    else
      { content :=
          if f.writable && !f.name.isEmpty then Function.update l.content f.name (some f.data)
          else l.content
        handles := l.handles.set id { f with closed := true } }

/-- A read through an open handle: its own bytes from its own position. -/
def read (l : Shelf) (id fmt n cap : ℕ) : Shelf × Option (List UInt8) :=
  match l.handles[id]? with
  | none => (l, none)
  | some f =>
    if f.closed then (l, none)
    else ({ l with handles := l.handles.set id { f with pos := (f.read fmt n cap).2 } },
      (f.read fmt n cap).1)

def write (l : Shelf) (id : ℕ) (data : List UInt8) : Shelf :=
  match l.handles[id]? with
  | none => l
  | some f =>
    if f.closed || !f.writable then l
    else { l with handles := l.handles.set id { f with data := f.data ++ data } }

def remove (l : Shelf) (name : List UInt8) : Shelf :=
  { l with content := Function.update l.content name none }

/-- The contents of a stored name go to the new one. -/
def rename (l : Shelf) (old new : List UInt8) : Shelf :=
  match l.content old with
  | none => l
  | some data => (l.remove old).store new data

end Shelf

/-! ### Runs -/

/-- The calls of a script; a fetch comes with the bytes the download gave. -/
inductive FileCall
  | fetch (saveAs data : List UInt8)
  | openFile (name : List UInt8) (mode : Mode)
  | read (id fmt n cap : ℕ)
  | write (id : ℕ) (data : List UInt8)
  | close (id : ℕ)
  | remove (name : List UInt8)
  | rename (old new : List UInt8)

structure Session where
  fs : Files
  shelf : Shelf

/-- One call, on the list and on the map. -/
def Session.step (s : Session) : FileCall → Session
  | .fetch saveAs data => ⟨fetchFile s.fs saveAs data, s.shelf.store saveAs data⟩
  | .openFile name mode => ⟨(ioOpen s.fs name mode.text).1, s.shelf.openFile name mode⟩
  | .read id fmt n cap => ⟨(ioRead s.fs id fmt n cap).1, (s.shelf.read id fmt n cap).1⟩
  | .write id data => ⟨(ioWrite s.fs id data).1, s.shelf.write id data⟩
  | .close id => ⟨(ioClose s.fs id).1, s.shelf.close id⟩
  | .remove name => ⟨(osRemove s.fs name).1, s.shelf.remove name⟩
  | .rename old new => ⟨(osRename s.fs old new).1, s.shelf.rename old new⟩

/-- An `io_open` of the run gives a handle. Every other call may also fail. -/
def Session.Succeeds (s : Session) : FileCall → Prop
  | .openFile name mode => (ioOpen s.fs name mode.text).2.isSome
  | _ => True

/-- A fetch is saved under a name that is not stored, mode `r+` finds no bytes to
keep, and a writable handle is closed again only where its bytes are the stored ones. -/
def Session.Bound (s : Session) : FileCall → Prop
  | .fetch saveAs _ => Assoc.get s.fs.files saveAs = none
  | .openFile name .rPlus => (Assoc.get s.fs.files name).getD [] = []
  | .close id => ∀ f, s.fs.openFiles[id]? = some f → f.closed → f.writable → f.name ≠ [] →
      Assoc.get s.fs.files f.name = some f.data
  | _ => True

/-- The list is the map: no name is stored twice, and a name can be opened for
reading exactly when the map has it; reading it all then gives its contents. -/
structure Session.IsMap (s : Session) : Prop where
  nodup : (Assoc.keys s.fs.files).Nodup
  absent : ∀ name, s.shelf.content name = none → (ioOpen s.fs name Mode.r.text).2 = none
  present : ∀ name data, s.shelf.content name = some data → s.fs.openFiles.length < 255 →
    ∃ id, (ioOpen s.fs name Mode.r.text).2 = some id ∧ ∀ cap k, 0 < cap → data.length < k →
      readToEnd (ioOpen s.fs name Mode.r.text).1 id cap k = data

/-- The call does what it does on the map: a read through any handle gives the
bytes of that handle, and closing a closed handle changes no stored file. -/
def Session.Agrees (s : Session) : FileCall → Prop
  | .openFile name mode => (ioOpen s.fs name mode.text).2 = some s.shelf.handles.length
  | .read id fmt n cap => (ioRead s.fs id fmt n cap).2 = (s.shelf.read id fmt n cap).2
  | .close id => ∀ f, s.fs.openFiles[id]? = some f → f.closed →
      (ioClose s.fs id).1.files = s.fs.files
  | _ => True

/-- Every call of the run succeeds and is bound. -/
def AllBound : Session → List FileCall → Prop
  | _, [] => True
  | s, c :: cs => s.Succeeds c ∧ s.Bound c ∧ AllBound (s.step c) cs

/-- The list is the map in every state of the run, and every call agrees. -/
def AllAgree : Session → List FileCall → Prop
  | s, [] => s.IsMap
  | s, c :: cs => s.IsMap ∧ s.Agrees c ∧ AllAgree (s.step c) cs

/-- Before the first call. -/
def Session.start (embedded : List (List UInt8 × List UInt8)) : Session :=
  ⟨initEmbedded embedded, ⟨fun name => (embedded.find? (·.1 == name)).map Prod.snd, []⟩⟩

end Rustrapper.Native

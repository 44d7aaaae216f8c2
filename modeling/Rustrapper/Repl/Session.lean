/-
# A session of the shell

`repl_loop` key by key: the line buffer with its cursor, the chunk gathered so
far, the history with the draft put aside while it is looked through, and the
bytes each key makes the shell emit. The interpreter stands behind a `Host`: the
current directory, the names that can be completed, and what running a chunk
does.
-/
import Rustrapper.Codec.Shift
import Rustrapper.Lua.Call
import Rustrapper.Repl.Chunk
import Rustrapper.Repl.Keys

namespace Rustrapper.Repl

open Lua Codec

def HIST_MAX : ℕ := 12
def HIST_CAP : ℕ := 512

/-- What the shell needs of the interpreter: `state.cwd`, the names of the
globals, and a chunk run by `handle_repl_cmd` or `run_repl_once`, with what it
prints and whether it is `exit`. -/
structure Host (σ : Type) where
  cwd : σ → List UInt8
  names : σ → List (List UInt8)
  run : List UInt8 → σ → σ × List UInt8 × Bool
  names_ident : ∀ s, ∀ name ∈ names s, ∀ b ∈ name, isIdent b = true

/-- A host at the root, without names, whose chunks do nothing. -/
def quiet : Host Unit where
  cwd _ := [47]
  names _ := []
  run _ _ := ((), [], false)
  names_ident _ _ hname := (List.not_mem_nil hname).elim

/-! ### The keys -/

/-- What the bytes of `get_key` stand for. -/
inductive Key where
  | enter | up | down | left | right | home | toEnd | delete | backspace | cancel | clear | complete | char | other
deriving DecidableEq

/-- `0x20..0x7e`. -/
def isPlain (b : UInt8) : Bool := 0x20 ≤ b && b < 0x7f

/-- The arms of `match get_key()`. -/
def keyOf (b : UInt8) : Key :=
  if b = 13 ∨ b = 10 then .enter
  else if b = KEY_UP then .up
  else if b = KEY_DOWN then .down
  else if b = KEY_LEFT then .left
  else if b = KEY_RIGHT then .right
  else if b = KEY_HOME then .home
  else if b = KEY_END then .toEnd
  else if b = KEY_DELETE then .delete
  else if b = 0x7f ∨ b = 8 then .backspace
  else if b = 3 then .cancel
  else if b = 0x0c then .clear
  else if b = 9 then .complete
  else if isPlain b then .char
  else .other

theorem isPlain_of_keyOf : ∀ b, keyOf b = .char → isPlain b = true := by decide +kernel

theorem isPlain_of_isIdent : ∀ b, isIdent b = true → isPlain b = true := by decide +kernel

/-! ### The line -/

/-- `line`, `len` and `pos`. -/
structure Line where
  buf : Vector UInt8 LINE_CAP
  len : ℕ
  pos : ℕ
  pos_le : pos ≤ len
  len_le : len ≤ LINE_CAP

namespace Line

/-- `line[..len]`. -/
def text (l : Line) : List UInt8 := l.buf.toList.take l.len

def blank : Line := ⟨Vector.replicate LINE_CAP 0, 0, 0, le_rfl, Nat.zero_le _⟩

/-- `len = 0; pos = 0;` -/
def clear (l : Line) : Line := ⟨l.buf, 0, 0, le_rfl, Nat.zero_le _⟩

/-- `line[..n].copy_from_slice(&bytes[..n]); len = n; pos = len;` -/
def load (l : Line) (bytes : List UInt8) : Line :=
  ⟨putAt l.buf 0 (bytes.take LINE_CAP), min bytes.length LINE_CAP, min bytes.length LINE_CAP, le_rfl,
    Nat.min_le_right _ _⟩

def left (l : Line) : Line := ⟨l.buf, l.len, l.pos - 1, (Nat.sub_le _ _).trans l.pos_le, l.len_le⟩

def right (l : Line) (h : l.pos < l.len) : Line := ⟨l.buf, l.len, l.pos + 1, h, l.len_le⟩

def home (l : Line) : Line := ⟨l.buf, l.len, 0, Nat.zero_le _, l.len_le⟩

def toEnd (l : Line) : Line := ⟨l.buf, l.len, l.len, le_rfl, l.len_le⟩

/-- The bytes are inserted before the cursor. -/
def insert (l : Line) (bs : List UInt8) (h : l.len + bs.length ≤ LINE_CAP) : Line :=
  ⟨insertAt l.buf l.len l.pos bs, l.len + bs.length, l.pos + bs.length, Nat.add_le_add_right l.pos_le _, h⟩

/-- The byte behind the cursor is taken out. -/
def delete (l : Line) (h : l.pos < l.len) : Line :=
  ⟨removeAt l.buf l.len l.pos, l.len - 1, l.pos, Nat.le_sub_one_of_lt h, (Nat.sub_le _ _).trans l.len_le⟩

/-- `word`: the identifier before the cursor. -/
def word (l : Line) : List UInt8 := (l.text.take l.pos).rtakeWhile isIdent

theorem length_text (l : Line) : l.text.length = l.len := by
  rw [text, List.length_take, Vector.length_toList, Nat.min_eq_left l.len_le]

@[simp] theorem text_blank : blank.text = [] := rfl

@[simp] theorem text_clear (l : Line) : l.clear.text = [] := List.take_zero

@[simp] theorem text_left (l : Line) : l.left.text = l.text := rfl

@[simp] theorem text_right (l : Line) (h : l.pos < l.len) : (l.right h).text = l.text := rfl

@[simp] theorem text_home (l : Line) : l.home.text = l.text := rfl

@[simp] theorem text_toEnd (l : Line) : l.toEnd.text = l.text := rfl

theorem text_load (l : Line) (bytes : List UInt8) : (l.load bytes).text = bytes.take LINE_CAP := by
  have hlen : (bytes.take LINE_CAP).length = min bytes.length LINE_CAP := by rw [List.length_take, Nat.min_comm]
  apply List.ext_getElem?
  intro j
  rw [text, load, List.getElem?_take, Vector.getElem?_toList, getElem?_putAt _ (by omega), hlen, Nat.sub_zero,
    Nat.zero_add]
  by_cases hj : j < min bytes.length LINE_CAP
  · rw [if_pos hj, if_pos ⟨Nat.zero_le j, hj⟩]
  · rw [if_neg hj, List.getElem?_eq_none (by omega)]

theorem text_insert (l : Line) {bs : List UInt8} (h : l.len + bs.length ≤ LINE_CAP) (hne : bs ≠ []) :
    (l.insert bs h).text = l.text.take l.pos ++ (bs ++ l.text.drop l.pos) := take_insertAt l.buf hne l.pos_le h

theorem text_delete (l : Line) (h : l.pos < l.len) : (l.delete h).text = l.text.eraseIdx l.pos :=
  take_removeAt l.buf h l.len_le

theorem mem_text_delete (l : Line) (h : l.pos < l.len) : ∀ b ∈ (l.delete h).text, b ∈ l.text := by
  intro b hb
  rw [text_delete] at hb
  exact List.mem_of_mem_eraseIdx hb

end Line

/-! ### What is emitted -/

/-- The prompt of a redrawn line. -/
def prompt (acc : List UInt8) : List UInt8 := if acc = [] then bytesOf "> " else bytesOf ">> "

/-- `topstr`: the top level of the current directory. -/
def topLevel (cwd : List UInt8) : List UInt8 :=
  let path := if cwd.head? = some 47 then cwd.drop 1 else cwd
  let name := (path.takeWhile (· ≠ 47)).take 32
  let top := if cwd = [47] ∨ name = [] then [47] else name
  if isUtf8 top then top else [47]

/-- The prompt in front of a chunk. -/
def firstPrompt (cwd : List UInt8) (acc : List UInt8) : List UInt8 :=
  topLevel cwd ++ if acc = [] then bytesOf " > " else bytesOf " >> "

/-- `clear_screen`. -/
def clearScreen : List UInt8 := bytesOf "\x1b[H\x1b[2J"

/-- `redraw_line`. -/
def redrawLine (pr : List UInt8) (l : Line) (shown : ℕ) : List UInt8 :=
  13 :: (List.replicate (max shown l.len + pr.length) 32 ++
    (13 :: (pr ++ (l.text ++ List.replicate (l.len - l.pos) 8))))

/-- The lines of the chunk under their prompts, for `acc[i..]` with `n` steps of the loop. -/
def renderChunk : ℕ → Bool → List UInt8 → List UInt8
  | 0, _, _ => []
  | n + 1, first, acc =>
    if acc = [] then []
    else (if first then bytesOf "> " else bytesOf ">> ") ++ (acc.takeWhile (· ≠ 10) ++
      (10 :: renderChunk n false ((acc.dropWhile (· ≠ 10)).drop 1)))

/-- `render_recalled`. -/
def renderRecalled (acc : List UInt8) (l : Line) (shown : ℕ) : List UInt8 :=
  if acc = [] then redrawLine (bytesOf "> ") l shown
  else 10 :: (renderChunk acc.length true acc ++ (bytesOf ">> " ++ l.text))

/-! ### The history -/

/-- `record_history`. -/
def recordHistory (hist : List (List UInt8)) (content : List UInt8) : List (List UInt8) :=
  if content = [] ∨ content.length > HIST_CAP then hist
  else if hist.getLast?.map (·.takeWhile (· ≠ 0)) = some content then hist
  else (if hist.length ≥ HIST_MAX then hist.drop 1 else hist) ++ [content]

/-- The chunk that `load_entry` takes from an entry: all up to its last newline. -/
def entryChunk (entry : List UInt8) : List UInt8 := (entry.takeWhile (· ≠ 0)).rdropWhile (· ≠ 10)

/-- The line that `load_entry` takes from an entry, as far as it has room. -/
def entryLine (entry : List UInt8) : List UInt8 := (entry.takeWhile (· ≠ 0)).rtakeWhile (· ≠ 10)

/-! ### Completion -/

section
variable {σ : Type} (h : Host σ) (world : σ) (word : List UInt8)

/-- The names that begin with the word, 64 at most. -/
def matching : List (List UInt8) := ((h.names world).filter (word.isPrefixOf ·)).take 64

/-- `help_matches`. -/
def helpMatches : Bool := word.isPrefixOf (bytesOf "help")

/-- The one name that the word can become. -/
def candidate : Option (List UInt8) :=
  match matching h world word, helpMatches word with
  | [name], false => some name
  | [], true => some (bytesOf "help")
  | _, _ => none

/-- The names that the word can become, listed. -/
def listing : List UInt8 :=
  10 :: (bytesOf "Completions:\n" ++
    ((matching h world word).flatMap fun name =>
      bytesOf "  " ++ ((if isUtf8 name then name else bytesOf "?") ++ [10])) ++
    if helpMatches word then bytesOf "  help\n" else [])

variable {h world word}

theorem candidate_ident {name : List UInt8} (hc : candidate h world word = some name) :
    ∀ b ∈ name, isIdent b = true := by
  unfold candidate at hc
  split at hc
  · next heq _ =>
    cases hc
    have hmem : name ∈ matching h world word := by simp [heq]
    exact h.names_ident world name (List.mem_filter.mp (List.mem_of_mem_take hmem)).1
  · cases hc
    decide +kernel
  · cases hc

end

/-! ### The state and its keys -/

/-- The variables of `repl_loop` and the interpreter behind it. -/
structure Session (σ : Type) where
  world : σ
  acc : List UInt8
  line : Line
  shown : ℕ
  hist : List (List UInt8)
  histPos : ℕ
  draftAcc : List UInt8
  draftLine : List UInt8
  exited : Bool

namespace Session

variable {σ : Type} (h : Host σ)

/-- The prompt is printed, or the shell is left. -/
def leave (s : Session σ) : List UInt8 := if s.exited then [10] else firstPrompt (h.cwd s.world) s.acc

/-- `acc_len = 0; hist_pos = hist_n; draft_len = 0; draft_line_len = 0;` -/
def endChunk (s : Session σ) : Session σ :=
  { s with acc := [], histPos := s.hist.length, draftAcc := [], draftLine := [] }

/-- A complete chunk is run and recorded. -/
def execute (s : Session σ) : Session σ × List UInt8 :=
  let c := content s.acc
  if c = [] then (s.endChunk, [])
  else
    let r := h.run c s.world
    (endChunk { s with world := r.1, exited := r.2.2, hist := recordHistory s.hist c }, r.2.1)

/-- The line joins the chunk. -/
def joinLine (s : Session σ) : Session σ :=
  { s with acc := appendLine s.acc s.line.text, line := s.line.clear, shown := 0 }

/-- Enter. -/
def enter (s : Session σ) : Session σ × List UInt8 :=
  if s.acc = [] ∧ s.line.len = 0 then (s, 10 :: s.leave h)
  else if runs s.joinLine.acc then
    ((s.joinLine.execute h).1, 10 :: ((s.joinLine.execute h).2 ++ (s.joinLine.execute h).1.leave h))
  else (s.joinLine, 10 :: bytesOf ">> ")

/-- `load_entry` at `hist[hist_pos]`, and the entry is shown. -/
def loadEntry (s : Session σ) (i : ℕ) : Session σ × List UInt8 :=
  let entry := s.hist.getD i []
  let l := s.line.load (entryLine entry)
  ({ s with acc := pushAll [] (entryChunk entry), line := l, shown := l.len, histPos := i },
    renderRecalled (pushAll [] (entryChunk entry)) l s.shown)

/-- What is being typed is put aside at the first step into the history. -/
def saveDraft (s : Session σ) : Session σ :=
  if s.histPos = s.hist.length then { s with draftAcc := s.acc, draftLine := s.line.text } else s

/-- Up. -/
def up (s : Session σ) : Session σ × List UInt8 :=
  if s.hist = [] then (s, [])
  else if s.saveDraft.histPos > 0 then s.saveDraft.loadEntry (s.saveDraft.histPos - 1)
  else (s.saveDraft, [])

/-- The draft is shown again. -/
def restoreDraft (s : Session σ) : Session σ × List UInt8 :=
  let l := s.line.load s.draftLine
  ({ s with acc := s.draftAcc, line := l, shown := l.len, histPos := s.histPos + 1 },
    renderRecalled s.draftAcc l s.shown)

/-- Down. -/
def down (s : Session σ) : Session σ × List UInt8 :=
  if s.histPos < s.hist.length then
    if s.histPos + 1 = s.hist.length then s.restoreDraft else s.loadEntry (s.histPos + 1)
  else (s, [])

/-- The line is changed and drawn again. -/
def redraw (s : Session σ) (l : Line) : Session σ × List UInt8 :=
  ({ s with line := l, shown := l.len }, redrawLine (prompt s.acc) l s.shown)

/-- `len = 0; pos = 0; shown = 0;` -/
def dropLine (s : Session σ) : Session σ := { s with line := s.line.clear, shown := 0 }

/-- Ctrl-C. -/
def cancel (s : Session σ) : Session σ × List UInt8 :=
  if s.acc = [] ∧ s.line.len = 0 then (s, s.leave h)
  else
    (s.dropLine.endChunk, bytesOf "^C\n" ++ s.dropLine.endChunk.leave h)

/-- Bytes inserted before the cursor, with what is behind it printed again. -/
def insert (s : Session σ) (bs : List UInt8) (hroom : s.line.len + bs.length ≤ LINE_CAP) : Session σ × List UInt8 :=
  ({ s with line := s.line.insert bs hroom, shown := s.line.len + bs.length },
    bs ++ (s.line.text.drop s.line.pos ++ List.replicate (s.line.len - s.line.pos) 8))

/-- `complete`. -/
def complete (s : Session σ) : Session σ × List UInt8 :=
  if matching h s.world s.line.word = [] ∧ helpMatches s.line.word = false then (s, [])
  else
    match candidate h s.world s.line.word with
    | some name =>
      let suffix := name.drop s.line.word.length
      if hroom : s.line.len + suffix.length ≤ LINE_CAP then
        if suffix = [] then (s, []) else s.insert suffix hroom
      else (s, [])
    | none => ((s.redraw s.line).1, listing h s.world s.line.word ++ (s.redraw s.line).2)

/-- Left. -/
def moveLeft (s : Session σ) : Session σ × List UInt8 :=
  if s.line.pos > 0 then ({ s with line := s.line.left }, [8]) else (s, [])

/-- Right. -/
def moveRight (s : Session σ) : Session σ × List UInt8 :=
  if hlt : s.line.pos < s.line.len then ({ s with line := s.line.right hlt }, (s.line.text.drop s.line.pos).take 1)
  else (s, [])

/-- Delete. -/
def delete (s : Session σ) : Session σ × List UInt8 :=
  if hlt : s.line.pos < s.line.len then s.redraw (s.line.delete hlt) else (s, [])

/-- Backspace. -/
def backspace (s : Session σ) : Session σ × List UInt8 :=
  if hpos : s.line.pos > 0 then
    s.redraw (s.line.left.delete ((Nat.sub_one_lt_of_lt hpos).trans_le s.line.pos_le))
  else (s, [])

/-- A printable byte. -/
def type (s : Session σ) (b : UInt8) : Session σ × List UInt8 :=
  if hroom : s.line.len < LINE_CAP then s.insert [b] hroom else (s, [])

/-- One key, and the bytes it makes the shell emit. -/
def step (s : Session σ) (b : UInt8) : Session σ × List UInt8 :=
  if s.exited then (s, [])
  else
    match keyOf b with
    | .enter => s.enter h
    | .up => s.up
    | .down => s.down
    | .left => s.moveLeft
    | .right => s.moveRight
    | .home => s.redraw s.line.home
    | .toEnd => s.redraw s.line.toEnd
    | .delete => s.delete
    | .backspace => s.backspace
    | .cancel => s.cancel h
    | .clear => ((s.redraw s.line).1, clearScreen ++ (s.redraw s.line).2)
    | .complete => s.complete h
    | .char => s.type b
    | .other => (s, [])

/-- The session before its first key. -/
def start (world : σ) : Session σ := ⟨world, [], Line.blank, 0, [], 0, [], [], false⟩

/-- What is emitted before the first key. -/
def banner (world : σ) : List UInt8 :=
  bytesOf "\nLua Shell (type 'exit' to return)\n" ++ (start world).leave h

/-- The session behind a sequence of keys. -/
def run (s : Session σ) (keys : List UInt8) : Session σ := keys.foldl (fun s key => (s.step h key).1) s

/-- All bytes emitted for a sequence of keys. -/
def emitted (s : Session σ) : List UInt8 → List UInt8
  | [] => []
  | key :: keys => (s.step h key).2 ++ (s.step h key).1.emitted keys

/-! ### What every key keeps -/

/-- A byte of a chunk. -/
def Typed (b : UInt8) : Prop := isPlain b = true ∨ b = 10

/-- A text that can be in the history. -/
structure Entry (text : List UInt8) : Prop where
  ne_nil : text ≠ []
  length_le : text.length ≤ CHUNK_CAP
  typed : ∀ b ∈ text, Typed b

/-- The buffers hold typed bytes and no more than they have room for. -/
structure Ok (s : Session σ) : Prop where
  acc_le : s.acc.length ≤ CHUNK_CAP
  acc : ∀ b ∈ s.acc, Typed b
  line : ∀ b ∈ s.line.text, isPlain b = true
  shown : s.shown = s.line.len
  hist : ∀ e ∈ s.hist, Entry e
  histPos : s.histPos ≤ s.hist.length
  draftAcc_le : s.draftAcc.length ≤ CHUNK_CAP
  draftAcc : ∀ b ∈ s.draftAcc, Typed b
  draftLine_le : s.draftLine.length ≤ LINE_CAP
  draftLine : ∀ b ∈ s.draftLine, isPlain b = true

variable {h} {s : Session σ}

theorem run_cons (b : UInt8) (keys : List UInt8) : s.run h (b :: keys) = (s.step h b).1.run h keys := rfl

theorem run_append (keys keys' : List UInt8) : s.run h (keys ++ keys') = (s.run h keys).run h keys' :=
  List.foldl_append

theorem start_ok (world : σ) : (start world).Ok where
  acc_le := Nat.zero_le _
  acc := by simp [start]
  line := by simp [start]
  shown := rfl
  hist := by simp [start]
  histPos := le_rfl
  draftAcc_le := Nat.zero_le _
  draftAcc := by simp [start]
  draftLine_le := Nat.zero_le _
  draftLine := by simp [start]

/-- Another line takes the place of the one there is. -/
theorem Ok.withLine (hs : s.Ok) {l : Line} (hl : ∀ b ∈ l.text, isPlain b = true) :
    ({ s with line := l, shown := l.len } : Session σ).Ok := { hs with line := hl, shown := rfl }

theorem Ok.redraw (hs : s.Ok) {l : Line} (hl : ∀ b ∈ l.text, b ∈ s.line.text) : (s.redraw l).1.Ok :=
  hs.withLine fun b hb => hs.line b (hl b hb)

theorem Ok.insert (hs : s.Ok) {bs : List UInt8} (hroom : s.line.len + bs.length ≤ LINE_CAP) (hne : bs ≠ [])
    (hbs : ∀ b ∈ bs, isPlain b = true) : (s.insert bs hroom).1.Ok := by
  apply hs.withLine
  intro b hb
  rw [Line.text_insert _ _ hne, List.mem_append, List.mem_append] at hb
  rcases hb with hb | hb | hb
  · exact hs.line b (List.mem_of_mem_take hb)
  · exact hbs b hb
  · exact hs.line b (List.mem_of_mem_drop hb)

theorem global_plain : ∀ b ∈ bytesOf "global ", isPlain b = true := by decide +kernel

theorem rewriteLine_plain {line : List UInt8} (hl : ∀ b ∈ line, isPlain b = true) :
    ∀ b ∈ rewriteLine line, isPlain b = true := by
  cases hvar : isLocalVar line with
  | false => rwa [rewriteLine_of_not hvar]
  | true =>
    obtain ⟨rest, hline, hrewrite⟩ := isLocalVar_split hvar
    intro b hb
    rw [hrewrite, List.mem_append, List.mem_append] at hb
    rcases hb with hb | hb | hb
    · exact hl b (List.takeWhile_subset _ hb)
    · exact global_plain b hb
    · refine hl b ?_
      rw [hline]
      exact List.mem_append_right _ (List.mem_append_right _ hb)

theorem appendLine_typed {acc line : List UInt8} (hle : acc.length ≤ CHUNK_CAP) (hacc : ∀ b ∈ acc, Typed b)
    (hline : ∀ b ∈ line, isPlain b = true) :
    (appendLine acc line).length ≤ CHUNK_CAP ∧ ∀ b ∈ appendLine acc line, Typed b := by
  rw [appendLine_eq acc line hle]
  refine ⟨List.length_take_le _ _, fun b hb => ?_⟩
  rcases List.mem_append.mp (List.mem_of_mem_take hb) with hb | hb
  · exact hacc b hb
  · rcases List.mem_append.mp hb with hb | hb
    · exact .inl (rewriteLine_plain hline b hb)
    · exact .inr (List.mem_singleton.mp hb)

theorem recordHistory_entry {hist : List (List UInt8)} (hh : ∀ e ∈ hist, Entry e) {c : List UInt8} (hc : Entry c) :
    ∀ e ∈ recordHistory hist c, Entry e := by
  intro e he
  unfold recordHistory at he
  split_ifs at he with h1 h2
  · exact hh e he
  · exact hh e he
  · rcases List.mem_append.mp he with he | he
    · exact hh e (List.mem_of_mem_drop he)
    · rwa [List.mem_singleton.mp he]
  · rcases List.mem_append.mp he with he | he
    · exact hh e he
    · rwa [List.mem_singleton.mp he]

theorem length_le_recordHistory (hist : List (List UInt8)) (c : List UInt8) :
    hist.length ≤ (recordHistory hist c).length := by
  unfold recordHistory
  split_ifs with _ _ hfull
  · exact le_rfl
  · exact le_rfl
  · rw [List.length_append, List.length_drop, List.length_singleton]
    have hmax : HIST_MAX = 12 := rfl
    omega
  · rw [List.length_append]
    exact Nat.le_add_right _ _

theorem Ok.endChunk (hs : s.Ok) : s.endChunk.Ok :=
  { hs with
    acc_le := Nat.zero_le _, acc := by simp [Session.endChunk], histPos := le_rfl
    draftAcc_le := Nat.zero_le _, draftAcc := by simp [Session.endChunk]
    draftLine_le := Nat.zero_le _, draftLine := by simp [Session.endChunk] }

theorem Ok.execute (hs : s.Ok) : (s.execute h).1.Ok := by
  unfold Session.execute
  by_cases hc : content s.acc = []
  · simp only [hc, if_true]
    exact hs.endChunk
  · simp only [hc, if_false]
    apply Ok.endChunk
    refine { hs with hist := recordHistory_entry hs.hist ⟨hc, ?_, ?_⟩, histPos := ?_ }
    · exact (content_isPrefix s.acc).length_le.trans hs.acc_le
    · exact fun b hb => hs.acc b ((content_isPrefix s.acc).subset hb)
    · exact hs.histPos.trans (length_le_recordHistory _ _)

theorem Ok.joinLine (hs : s.Ok) : s.joinLine.Ok :=
  { hs with
    acc_le := (appendLine_typed hs.acc_le hs.acc hs.line).1
    acc := (appendLine_typed hs.acc_le hs.acc hs.line).2
    line := by simp [Session.joinLine], shown := rfl }

theorem Ok.enter (hs : s.Ok) : (s.enter h).1.Ok := by
  unfold Session.enter
  split_ifs
  · exact hs
  · exact hs.joinLine.execute
  · exact hs.joinLine

theorem entryChunk_isPrefix (entry : List UInt8) : entryChunk entry <+: entry := by
  have htext : entry.takeWhile (· ≠ 0) <+: entry := List.takeWhile_prefix _
  have hchunk : entryChunk entry <+: entry.takeWhile (· ≠ 0) := List.rdropWhile_prefix _ _
  exact hchunk.trans htext

theorem pushAll_entry {entry : List UInt8} (he : entry.length ≤ CHUNK_CAP) :
    pushAll [] (entryChunk entry) = entryChunk entry := by
  rw [pushAll_eq _ _ (Nat.zero_le _), List.nil_append, List.take_of_length_le]
  exact (entryChunk_isPrefix entry).length_le.trans he

theorem entryLine_plain {entry : List UInt8} (he : ∀ b ∈ entry, Typed b) :
    ∀ b ∈ entryLine entry, isPlain b = true := by
  intro b hb
  have hne : b ≠ 10 := by simpa using List.mem_rtakeWhile_imp hb
  have hmem : b ∈ entry := (List.takeWhile_subset _) ((List.rtakeWhile_suffix _ _).subset hb)
  exact (he b hmem).resolve_right hne

theorem Ok.entry (hs : s.Ok) {i : ℕ} (hi : i < s.hist.length) : Entry (s.hist.getD i []) := by
  rw [List.getD_eq_getElem _ _ hi]
  exact hs.hist _ (List.getElem_mem hi)

theorem Ok.loadEntry (hs : s.Ok) {i : ℕ} (hi : i < s.hist.length) : (s.loadEntry i).1.Ok := by
  have hentry := hs.entry hi
  refine { hs with acc_le := ?_, acc := ?_, line := ?_, shown := rfl, histPos := hi.le }
  · rw [Session.loadEntry, pushAll_eq _ _ (Nat.zero_le _)]
    exact List.length_take_le _ _
  · intro b hb
    rw [Session.loadEntry, pushAll_entry hentry.length_le] at hb
    exact hentry.typed b ((entryChunk_isPrefix _).subset hb)
  · intro b hb
    rw [Session.loadEntry, Line.text_load] at hb
    exact entryLine_plain hentry.typed b (List.mem_of_mem_take hb)

theorem Ok.saveDraft (hs : s.Ok) : s.saveDraft.Ok := by
  unfold Session.saveDraft
  split_ifs
  · exact { hs with
      draftAcc_le := hs.acc_le, draftAcc := hs.acc
      draftLine_le := s.line.length_text.trans_le s.line.len_le, draftLine := hs.line }
  · exact hs

@[simp] theorem saveDraft_hist : s.saveDraft.hist = s.hist := by
  unfold saveDraft
  split_ifs <;> rfl

@[simp] theorem saveDraft_histPos : s.saveDraft.histPos = s.histPos := by
  unfold saveDraft
  split_ifs <;> rfl

@[simp] theorem saveDraft_line : s.saveDraft.line = s.line := by
  unfold saveDraft
  split_ifs <;> rfl

theorem Ok.up (hs : s.Ok) : s.up.1.Ok := by
  unfold Session.up
  split_ifs with hnil hpos
  · exact hs
  · apply hs.saveDraft.loadEntry
    have hle := hs.histPos
    rw [saveDraft_histPos] at hpos ⊢
    rw [saveDraft_hist]
    omega
  · exact hs.saveDraft

theorem Ok.restoreDraft (hs : s.Ok) (hlt : s.histPos < s.hist.length) : s.restoreDraft.1.Ok := by
  refine { hs with
    acc_le := hs.draftAcc_le, acc := hs.draftAcc, line := fun b hb => hs.draftLine b ?_, shown := rfl, histPos := hlt }
  rw [Session.restoreDraft, Line.text_load] at hb
  exact List.mem_of_mem_take hb

theorem Ok.down (hs : s.Ok) : s.down.1.Ok := by
  unfold Session.down
  split_ifs with hlt hlast
  · exact hs.restoreDraft hlt
  · exact hs.loadEntry (by omega)
  · exact hs

theorem Ok.cancel (hs : s.Ok) : (s.cancel h).1.Ok := by
  unfold Session.cancel
  split_ifs
  · exact hs
  · exact Ok.endChunk { hs with line := by simp [Session.dropLine], shown := rfl }

theorem Ok.complete (hs : s.Ok) : (s.complete h).1.Ok := by
  unfold Session.complete
  split_ifs
  · exact hs
  · cases hc : candidate h s.world s.line.word with
    | none => exact hs.redraw fun b hb => hb
    | some name =>
      dsimp only
      split_ifs with hroom hnil
      · exact hs
      · exact hs.insert hroom hnil fun b hb => isPlain_of_isIdent b (candidate_ident hc b (List.mem_of_mem_drop hb))
      · exact hs

theorem Ok.type (hs : s.Ok) {b : UInt8} (hb : isPlain b = true) : (s.type b).1.Ok := by
  unfold Session.type
  split_ifs
  · exact hs.insert _ (List.cons_ne_nil _ _) fun c hc => by rwa [List.mem_singleton.mp hc]
  · exact hs

/-- **Every key keeps the buffers in order.** -/
theorem Ok.step (hs : s.Ok) (b : UInt8) : (s.step h b).1.Ok := by
  unfold Session.step
  split_ifs
  · exact hs
  · cases hkey : keyOf b with
    | enter => exact hs.enter
    | up => exact hs.up
    | down => exact hs.down
    | left =>
      unfold moveLeft
      split_ifs
      · exact { hs with }
      · exact hs
    | right =>
      unfold moveRight
      split_ifs
      · exact { hs with }
      · exact hs
    | home => exact hs.redraw fun b hb => hb
    | toEnd => exact hs.redraw fun b hb => hb
    | delete =>
      unfold Session.delete
      split_ifs with hlt
      · exact hs.redraw (s.line.mem_text_delete hlt)
      · exact hs
    | backspace =>
      unfold Session.backspace
      split_ifs with hpos
      · exact hs.redraw (s.line.left.mem_text_delete _)
      · exact hs
    | cancel => exact hs.cancel
    | clear => exact hs.redraw fun b hb => hb
    | complete => exact hs.complete
    | char => exact hs.type (isPlain_of_keyOf b hkey)
    | other => exact hs

theorem Ok.run (hs : s.Ok) (keys : List UInt8) : (s.run h keys).Ok := by
  induction keys generalizing s with
  | nil => exact hs
  | cons b keys ih => exact ih (hs.step b)

end Session

end Rustrapper.Repl

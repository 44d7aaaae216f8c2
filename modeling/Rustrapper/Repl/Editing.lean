/-
# The editor behind the keys

A reference session: a text with a cursor, the chunks executed so far, and, while
the history is looked through, the entry shown and the draft put aside. The
shell follows it key by key (`Agrees.step`) as long as an entry fits the line it
is recalled into and no empty line is cancelled while an entry is recalled:
`LINE_CAP` is half of `CHUNK_CAP`, and Ctrl-C does not end the search of the
history when the line is empty.
-/
import Rustrapper.Editor.Zipper
import Rustrapper.Repl.Session
import Rustrapper.Store.Recent

namespace Rustrapper.Repl

open Lua Editor Store

/-! ### The reference session -/

/-- What is put aside while the history is looked through. -/
structure Draft where
  chunk : List UInt8
  line : List UInt8

structure Reference (σ : Type) where
  world : σ
  chunk : List UInt8
  edit : Zipper UInt8
  executed : List (List UInt8)
  browsing : Option (ℕ × Draft)
  exited : Bool

/-- The lines of an entry before its last one, and the last one. -/
def Entry.chunk (entry : List UInt8) : List UInt8 := entry.rdropWhile (· ≠ 10)

def Entry.line (entry : List UInt8) : List UInt8 := entry.rtakeWhile (· ≠ 10)

namespace Reference

variable {σ : Type} (h : Host σ)

/-- The history: the last chunks executed, none of them twice in a row. -/
def history (r : Reference σ) : List (List UInt8) := recent HIST_MAX r.executed

/-- A chunk begins; the search of the history is over. -/
def newChunk (r : Reference σ) : Reference σ := { r with chunk := [], edit := .empty, browsing := none }

def execute (r : Reference σ) (c : List UInt8) : Reference σ :=
  let out := h.run c r.world
  { r with world := out.1, exited := out.2.2, executed := r.executed ++ [c] }

def enter (r : Reference σ) : Reference σ :=
  let chunk := appendLine r.chunk r.edit.text
  if r.chunk = [] ∧ r.edit.text = [] then r
  else if runs chunk then
    if content chunk = [] then r.newChunk else (r.execute h (content chunk)).newChunk
  else { r with chunk, edit := .empty }

/-- Entry `i` is shown while `draft` is put aside. -/
def view (r : Reference σ) (i : ℕ) (draft : Draft) : Reference σ :=
  let entry := r.history.getD i []
  { r with chunk := Entry.chunk entry, edit := .ofText (Entry.line entry), browsing := some (i, draft) }

def up (r : Reference σ) : Reference σ :=
  match r.browsing with
  | none => if r.history = [] then r else r.view (r.history.length - 1) ⟨r.chunk, r.edit.text⟩
  | some (0, _) => r
  | some (i + 1, draft) => r.view i draft

def down (r : Reference σ) : Reference σ :=
  match r.browsing with
  | none => r
  | some (i, draft) =>
    if i + 1 = r.history.length then { r with chunk := draft.chunk, edit := .ofText draft.line, browsing := none }
    else r.view (i + 1) draft

/-- The text is typed if the line has room for it. -/
def type (r : Reference σ) (bs : List UInt8) : Reference σ :=
  if r.edit.text.length + bs.length ≤ LINE_CAP then { r with edit := r.edit.insert bs } else r

def complete (r : Reference σ) : Reference σ :=
  let word := (r.edit.before.takeWhile isIdent).reverse
  match candidate h r.world word with
  | some name => r.type (name.drop word.length)
  | none => r

def step (r : Reference σ) (b : UInt8) : Reference σ :=
  if r.exited then r
  else
    match keyOf b with
    | .enter => r.enter h
    | .up => r.up
    | .down => r.down
    | .left => { r with edit := r.edit.left }
    | .right => { r with edit := r.edit.right }
    | .home => { r with edit := r.edit.home }
    | .toEnd => { r with edit := r.edit.toEnd }
    | .delete => { r with edit := r.edit.delete }
    | .backspace => { r with edit := r.edit.backspace }
    | .cancel => r.newChunk
    | .clear => r
    | .complete => r.complete h
    | .char => r.type [b]
    | .other => r

def start (world : σ) : Reference σ := ⟨world, [], .empty, [], none, false⟩

def run (r : Reference σ) (keys : List UInt8) : Reference σ := keys.foldl (fun r b => r.step h b) r

end Reference

/-! ### Where the shell follows it -/

/-- The text and the cursor of a line. -/
def Line.zipper (l : Line) : Zipper UInt8 := .ofCursor l.text l.pos

namespace Line

variable (l : Line)

@[simp] theorem text_zipper : l.zipper.text = l.text := Zipper.text_ofCursor _ _

@[simp] theorem pos_zipper : l.zipper.pos = l.pos := Zipper.pos_ofCursor (l.pos_le.trans_eq l.length_text.symm)

theorem zipper_of_text_nil (h : l.text = []) : l.zipper = .empty := by
  rw [zipper, h, Zipper.ofCursor, List.take_nil, List.drop_nil]
  rfl

theorem zipper_clear : l.clear.zipper = .empty := l.clear.zipper_of_text_nil l.text_clear

theorem zipper_load {bytes : List UInt8} (h : bytes.length ≤ LINE_CAP) : (l.load bytes).zipper = .ofText bytes := by
  have hpos : (l.load bytes).pos = bytes.length := Nat.min_eq_left h
  rw [zipper, text_load, List.take_of_length_le h, hpos, Zipper.ofCursor_length]

theorem zipper_left : l.left.zipper = l.zipper.left := Zipper.ofCursor_pred _ (l.pos_le.trans_eq l.length_text.symm)

theorem zipper_right (h : l.pos < l.len) : (l.right h).zipper = l.zipper.right :=
  Zipper.ofCursor_succ _ (h.trans_eq l.length_text.symm)

theorem zipper_home : l.home.zipper = l.zipper.home := Zipper.ofCursor_zero _ _

theorem zipper_toEnd : l.toEnd.zipper = l.zipper.toEnd := by
  rw [Zipper.toEnd, text_zipper, ← Zipper.ofCursor_length, length_text]
  rfl

theorem zipper_insert {bs : List UInt8} (h : l.len + bs.length ≤ LINE_CAP) (hne : bs ≠ []) :
    (l.insert bs h).zipper = l.zipper.insert bs := by
  rw [zipper, text_insert l h hne]
  exact Zipper.ofCursor_insert _ _ (l.pos_le.trans_eq l.length_text.symm)

theorem zipper_delete (h : l.pos < l.len) : (l.delete h).zipper = l.zipper.delete := by
  rw [zipper, text_delete]
  exact Zipper.ofCursor_eraseIdx _ _

/-- At the end of the line there is nothing to the right, and nothing to delete. -/
theorem behind_eq_nil (h : ¬ l.pos < l.len) : l.zipper.behind = [] := by
  rw [zipper, Zipper.ofCursor, List.drop_eq_nil_of_le (l.length_text.trans_le (Nat.not_lt.mp h))]

/-- At its beginning there is nothing to the left. -/
theorem before_eq_nil (h : ¬ l.pos > 0) : l.zipper.before = [] := by
  rw [zipper, Zipper.ofCursor, Nat.eq_zero_of_not_pos h, List.take_zero, List.reverse_nil]

end Line

namespace Session

variable {σ : Type} (h : Host σ)

/-- The entry a key recalls. -/
def target (s : Session σ) (key : Key) : Option ℕ :=
  if key = .up ∧ 0 < s.histPos then some (s.histPos - 1)
  else if key = .down ∧ s.histPos + 1 < s.hist.length then some (s.histPos + 1)
  else none

/-- The entry last recalled is still as it was recalled. -/
def Unedited (s : Session σ) : Prop :=
  s.acc = Entry.chunk (s.hist.getD s.histPos []) ∧ s.line.text = Entry.line (s.hist.getD s.histPos [])

instance (s : Session σ) : Decidable s.Unedited := inferInstanceAs (Decidable (_ ∧ _))

/-- The key is one that the shell answers as it should: what it recalls fits the
line, Up does not leave an entry that has been edited, and an empty line is
cancelled only while no entry is recalled. -/
structure Heeds (s : Session σ) (key : Key) : Prop where
  fits : ∀ i ∈ s.target key, (Entry.line (s.hist.getD i [])).length ≤ LINE_CAP
  unedited : key = .up → s.histPos < s.hist.length → s.Unedited
  settled : key = .cancel → s.acc = [] → s.line.len = 0 → s.histPos = s.hist.length

instance (s : Session σ) (key : Key) : Decidable (s.Heeds key) :=
  decidable_of_iff
    ((∀ i ∈ s.target key, (Entry.line (s.hist.getD i [])).length ≤ LINE_CAP) ∧
      (key = .up → s.histPos < s.hist.length → s.Unedited) ∧
      (key = .cancel → s.acc = [] → s.line.len = 0 → s.histPos = s.hist.length))
    ⟨fun h => ⟨h.1, h.2.1, h.2.2⟩, fun h => ⟨h.fits, h.unedited, h.settled⟩⟩

/-- The keys are such keys one after the other. -/
def HeedsAll (s : Session σ) : List UInt8 → Prop
  | [] => True
  | b :: keys => s.Heeds (keyOf b) ∧ (s.step h b).1.HeedsAll keys

instance decidableHeedsAll (s : Session σ) : (keys : List UInt8) → Decidable (s.HeedsAll h keys)
  | [] => .isTrue trivial
  | b :: keys =>
    have := decidableHeedsAll (s.step h b).1 keys
    inferInstanceAs (Decidable (_ ∧ _))

/-- The states of shell and reference that belong together. -/
structure Agrees (s : Session σ) (r : Reference σ) : Prop where
  world : s.world = r.world
  exited : s.exited = r.exited
  chunk : s.acc = r.chunk
  edit : s.line.zipper = r.edit
  hist : s.hist = r.history
  browsing : r.browsing = if s.histPos < s.hist.length then some (s.histPos, ⟨s.draftAcc, s.draftLine⟩) else none

variable {h} {s : Session σ} {r : Reference σ}

theorem takeWhile_typed {text : List UInt8} (htyped : ∀ b ∈ text, Typed b) : text.takeWhile (· ≠ 0) = text := by
  refine List.takeWhile_eq_self_iff.mpr fun b hb => decide_eq_true ?_
  rintro rfl
  rcases htyped 0 hb with h | h <;> exact absurd h (by decide)

theorem entryChunk_eq {entry : List UInt8} (he : Entry entry) : entryChunk entry = Entry.chunk entry := by
  rw [entryChunk, takeWhile_typed he.typed]
  rfl

theorem entryLine_eq {entry : List UInt8} (he : Entry entry) : entryLine entry = Entry.line entry := by
  rw [entryLine, takeWhile_typed he.typed]
  rfl

/-- An executed chunk joins the history as the reference has it. -/
theorem recordHistory_recent {executed : List (List UInt8)} (hh : ∀ e ∈ recent HIST_MAX executed, Entry e)
    {c : List UInt8} (hc : Entry c) :
    recordHistory (recent HIST_MAX executed) c = recent HIST_MAX (executed ++ [c]) := by
  have hlast : ((recent HIST_MAX executed).getLast?.map fun e => e.takeWhile (· ≠ 0)) =
      (recent HIST_MAX executed).getLast? := by
    cases hget : (recent HIST_MAX executed).getLast? with
    | none => rfl
    | some e => exact congrArg some (takeWhile_typed (hh e (List.mem_of_getLast? hget)).typed)
  have hroom : ¬ (c = [] ∨ c.length > HIST_CAP) := not_or.mpr ⟨hc.ne_nil, Nat.not_lt.mpr hc.length_le⟩
  rw [recordHistory, if_neg hroom, hlast]
  exact (recent_concat 11 executed c).symm

theorem Agrees.text (ha : s.Agrees r) : r.edit.text = s.line.text := by rw [← ha.edit, Line.text_zipper]

theorem Agrees.endChunk (ha : s.Agrees r) (hline : s.line.text = []) : s.endChunk.Agrees r.newChunk :=
  { ha with chunk := rfl, edit := s.line.zipper_of_text_nil hline, browsing := (if_neg (Nat.lt_irrefl _)).symm }

/-- The line and the cursor are those of the reference after the same edit. -/
theorem Agrees.withLine (ha : s.Agrees r) {l : Line} {edit : Zipper UInt8} (hl : l.zipper = edit) (shown : ℕ) :
    Agrees { s with line := l, shown } { r with edit } := { ha with edit := hl }

theorem Agrees.joinLine (ha : s.Agrees r) :
    s.joinLine.Agrees { r with chunk := appendLine r.chunk r.edit.text, edit := .empty } :=
  { ha with
    chunk := by
      rw [ha.text, ← ha.chunk]
      rfl
    edit := s.line.zipper_clear }

theorem Agrees.execute (ha : s.Agrees r) (hs : s.Ok) (hline : s.line.text = []) :
    (s.execute h).1.Agrees
      (if content r.chunk = [] then r.newChunk else (r.execute h (content r.chunk)).newChunk) := by
  rw [Session.execute, ← ha.chunk]
  by_cases hc : content s.acc = []
  · rw [if_pos hc, if_pos hc]
    exact ha.endChunk hline
  · rw [if_neg hc, if_neg hc]
    have hentry : Entry (content s.acc) :=
      ⟨hc, (content_isPrefix _).length_le.trans hs.acc_le, fun b hb => hs.acc b ((content_isPrefix _).subset hb)⟩
    have hhist : recordHistory s.hist (content s.acc) = recent HIST_MAX (r.executed ++ [content s.acc]) := by
      have hold := hs.hist
      rw [ha.hist] at hold ⊢
      exact recordHistory_recent hold hentry
    exact
      { world := congrArg (fun world => (h.run (content s.acc) world).1) ha.world
        exited := congrArg (fun world => (h.run (content s.acc) world).2.2) ha.world
        chunk := rfl
        edit := s.line.zipper_of_text_nil hline
        hist := hhist
        browsing := (if_neg (Nat.lt_irrefl _)).symm }

theorem Agrees.enter (ha : s.Agrees r) (hs : s.Ok) : (s.enter h).1.Agrees (r.enter h) := by
  have hbare : s.acc = [] ∧ s.line.len = 0 ↔ r.chunk = [] ∧ r.edit.text = [] := by
    rw [ha.chunk, ha.text, ← List.length_eq_zero_iff (l := s.line.text), Line.length_text]
  have hjoin : s.joinLine.acc = appendLine r.chunk r.edit.text := ha.joinLine.chunk
  rw [Session.enter, Reference.enter]
  by_cases hb : s.acc = [] ∧ s.line.len = 0
  · rw [if_pos hb, if_pos (hbare.mp hb)]
    exact ha
  · rw [if_neg hb, if_neg (mt hbare.mpr hb), hjoin]
    by_cases hruns : runs (appendLine r.chunk r.edit.text) = true
    · rw [if_pos hruns, if_pos hruns]
      have hrun := ha.joinLine.execute (h := h) hs.joinLine s.line.text_clear
      by_cases hnil : content (appendLine r.chunk r.edit.text) = []
      · rw [if_pos hnil] at hrun ⊢
        exact hrun
      · rw [if_neg hnil] at hrun ⊢
        exact hrun
    · rw [if_neg hruns, if_neg hruns]
      exact ha.joinLine

/-- What is recalled of an entry is the entry. -/
theorem Agrees.view (ha : s.Agrees r) (hs : s.Ok) {i : ℕ} (hi : i < s.hist.length)
    (hfits : (Entry.line (s.hist.getD i [])).length ≤ LINE_CAP) :
    (s.loadEntry i).1.Agrees (r.view i ⟨s.draftAcc, s.draftLine⟩) := by
  have hentry := hs.entry hi
  rw [ha.hist] at hfits hentry
  exact { ha with
    chunk := by
      rw [Session.loadEntry, ha.hist, pushAll_entry hentry.length_le, entryChunk_eq hentry]
      rfl
    edit := by
      rw [Session.loadEntry, ha.hist, entryLine_eq hentry]
      exact Line.zipper_load _ hfits
    browsing := (if_pos hi).symm }

theorem Agrees.saveDraft (ha : s.Agrees r) : s.saveDraft.Agrees r := by
  by_cases hbottom : s.histPos = s.hist.length
  · have hsave : s.saveDraft = { s with draftAcc := s.acc, draftLine := s.line.text } := if_pos hbottom
    have hpos : ¬ s.histPos < s.hist.length := hbottom ▸ Nat.lt_irrefl _
    have hbrowsing := ha.browsing
    rw [if_neg hpos] at hbrowsing
    rw [hsave]
    exact { ha with browsing := hbrowsing.trans (if_neg hpos).symm }
  · rwa [show s.saveDraft = s from if_neg hbottom]

theorem Agrees.up (ha : s.Agrees r) (hs : s.Ok) (hkey : s.Heeds .up) : s.up.1.Agrees r.up := by
  have hle := hs.histPos
  have hbrowsing := ha.browsing
  have hshow : ∀ i, s.histPos = i + 1 →
      (s.saveDraft.loadEntry i).1.Agrees (r.view i ⟨s.saveDraft.draftAcc, s.saveDraft.draftLine⟩) := by
    intro i hi
    have htarget : s.target .up = some (s.histPos - 1) := if_pos ⟨rfl, by omega⟩
    have hfits := hkey.fits _ htarget
    rw [hi, Nat.add_sub_cancel, ← saveDraft_hist] at hfits
    exact ha.saveDraft.view hs.saveDraft (by rw [saveDraft_hist]; omega) hfits
  rw [Session.up, saveDraft_histPos]
  by_cases hnil : s.hist = []
  · have hpos : ¬ s.histPos < s.hist.length := by
      rw [hnil]
      exact Nat.not_lt_zero _
    rw [if_neg hpos] at hbrowsing
    rw [if_pos hnil, Reference.up, hbrowsing]
    dsimp only
    rw [if_pos (ha.hist ▸ hnil)]
    exact ha
  · rw [if_neg hnil]
    have hlen : 0 < s.hist.length := List.length_pos_iff.mpr hnil
    by_cases hbottom : s.histPos = s.hist.length
    · -- the first step: what is typed becomes the draft
      obtain ⟨i, hi⟩ : ∃ i, s.histPos = i + 1 := ⟨s.histPos - 1, by omega⟩
      have hsave : s.saveDraft = { s with draftAcc := s.acc, draftLine := s.line.text } := if_pos hbottom
      have hnext := hshow i hi
      rw [hbottom, if_neg (Nat.lt_irrefl _)] at hbrowsing
      rw [if_pos (by omega), hi, Nat.add_sub_cancel, Reference.up, hbrowsing]
      dsimp only
      rw [if_neg (ha.hist ▸ hnil), ← ha.hist, ← hbottom, hi, Nat.add_sub_cancel, ha.text, ← ha.chunk]
      rw [hsave] at hnext ⊢
      exact hnext
    · have hlt : s.histPos < s.hist.length := lt_of_le_of_ne hle hbottom
      have hsave : s.saveDraft = s := if_neg hbottom
      rw [if_pos hlt] at hbrowsing
      by_cases hpos : s.histPos = 0
      · rw [if_neg (by omega), hsave, Reference.up, hbrowsing, hpos]
        exact ha
      · obtain ⟨i, hi⟩ : ∃ i, s.histPos = i + 1 := ⟨s.histPos - 1, by omega⟩
        have hnext := hshow i hi
        rw [hsave] at hnext
        rw [if_pos (by omega), hsave, hi, Nat.add_sub_cancel, Reference.up, hbrowsing, hi]
        exact hnext

theorem Agrees.down (ha : s.Agrees r) (hs : s.Ok) (hkey : s.Heeds .down) : s.down.1.Agrees r.down := by
  have hbrowsing := ha.browsing
  rw [Session.down, Reference.down]
  by_cases hlt : s.histPos < s.hist.length
  · rw [if_pos hlt] at hbrowsing
    rw [if_pos hlt, hbrowsing]
    dsimp only
    rw [← ha.hist]
    by_cases hlast : s.histPos + 1 = s.hist.length
    · rw [if_pos hlast, if_pos hlast]
      exact { ha with
        chunk := rfl
        edit := Line.zipper_load _ hs.draftLine_le
        browsing := (if_neg (hlast ▸ Nat.lt_irrefl _)).symm }
    · rw [if_neg hlast, if_neg hlast]
      have hnext : s.histPos + 1 < s.hist.length := by omega
      have htarget : s.target .down = some (s.histPos + 1) := by
        rw [target, if_neg (fun h => Key.noConfusion h.1), if_pos ⟨rfl, hnext⟩]
      exact ha.view hs hnext (hkey.fits _ htarget)
  · rw [if_neg hlt] at hbrowsing
    rw [if_neg hlt, hbrowsing]
    exact ha

theorem Agrees.cancel (ha : s.Agrees r) (hkey : s.Heeds .cancel) : (s.cancel h).1.Agrees r.newChunk := by
  rw [Session.cancel]
  by_cases hb : s.acc = [] ∧ s.line.len = 0
  · rw [if_pos hb]
    have hline : s.line.text = [] := List.eq_nil_of_length_eq_zero (s.line.length_text.trans hb.2)
    exact { ha with
      chunk := hb.1
      edit := s.line.zipper_of_text_nil hline
      browsing := (if_neg (hkey.settled rfl hb.1 hb.2 ▸ Nat.lt_irrefl _)).symm }
  · rw [if_neg hb]
    exact Agrees.endChunk (r := { r with edit := .empty }) (ha.withLine s.line.zipper_clear 0) s.line.text_clear

theorem Agrees.insert (ha : s.Agrees r) {bs : List UInt8} (hroom : s.line.len + bs.length ≤ LINE_CAP) (hne : bs ≠ []) :
    (s.insert bs hroom).1.Agrees (r.type bs) := by
  rw [Reference.type, ha.text, Line.length_text, if_pos hroom]
  exact ha.withLine ((s.line.zipper_insert hroom hne).trans (by rw [ha.edit])) _

theorem Agrees.complete (ha : s.Agrees r) : (s.complete h).1.Agrees (r.complete h) := by
  have hword : (r.edit.before.takeWhile isIdent).reverse = s.line.word := by
    rw [← ha.edit]
    rfl
  rw [Reference.complete, hword, Session.complete, ← ha.world]
  dsimp only
  by_cases hnone : matching h s.world s.line.word = [] ∧ helpMatches s.line.word = false
  · rw [if_pos hnone, candidate, hnone.1, hnone.2]
    exact ha
  · rw [if_neg hnone]
    cases candidate h s.world s.line.word with
    | none => exact ha.withLine ha.edit _
    | some name =>
      dsimp only
      by_cases hroom : s.line.len + (name.drop s.line.word.length).length ≤ LINE_CAP
      · rw [dif_pos hroom]
        by_cases hnil : name.drop s.line.word.length = []
        · rw [if_pos hnil, hnil, Reference.type]
          split_ifs <;> exact ha
        · rw [if_neg hnil]
          exact ha.insert hroom hnil
      · rw [dif_neg hroom, Reference.type, ha.text, Line.length_text, if_neg hroom]
        exact ha

/-- An edit that changes nothing. -/
theorem Agrees.idle (ha : s.Agrees r) {edit : Zipper UInt8} (h : edit = s.line.zipper) : s.Agrees { r with edit } :=
  { ha with edit := h.symm }

theorem Agrees.moveLeft (ha : s.Agrees r) : s.moveLeft.1.Agrees { r with edit := r.edit.left } := by
  rw [Session.moveLeft, ← ha.edit]
  by_cases hpos : s.line.pos > 0
  · rw [if_pos hpos]
    exact ha.withLine s.line.zipper_left s.shown
  · rw [if_neg hpos]
    exact ha.idle (Zipper.left_eq_self (s.line.before_eq_nil hpos))

theorem Agrees.moveRight (ha : s.Agrees r) : s.moveRight.1.Agrees { r with edit := r.edit.right } := by
  rw [Session.moveRight, ← ha.edit]
  by_cases hlt : s.line.pos < s.line.len
  · rw [dif_pos hlt]
    exact ha.withLine (s.line.zipper_right hlt) s.shown
  · rw [dif_neg hlt]
    exact ha.idle (Zipper.right_eq_self (s.line.behind_eq_nil hlt))

theorem Agrees.delete (ha : s.Agrees r) : s.delete.1.Agrees { r with edit := r.edit.delete } := by
  rw [Session.delete, ← ha.edit]
  by_cases hlt : s.line.pos < s.line.len
  · rw [dif_pos hlt]
    exact ha.withLine (s.line.zipper_delete hlt) _
  · rw [dif_neg hlt]
    exact ha.idle (Zipper.delete_eq_self (s.line.behind_eq_nil hlt))

theorem Agrees.backspace (ha : s.Agrees r) : s.backspace.1.Agrees { r with edit := r.edit.backspace } := by
  rw [Session.backspace, ← ha.edit]
  by_cases hpos : s.line.pos > 0
  · rw [dif_pos hpos, Zipper.backspace_eq (s.line.pos_zipper.symm ▸ hpos), ← Line.zipper_left]
    exact ha.withLine (s.line.left.zipper_delete _) _
  · rw [dif_neg hpos]
    exact ha.idle (Zipper.backspace_eq_self (s.line.before_eq_nil hpos))

theorem Agrees.type (ha : s.Agrees r) (b : UInt8) : (s.type b).1.Agrees (r.type [b]) := by
  rw [Session.type]
  by_cases hroom : s.line.len < LINE_CAP
  · have hroom' : s.line.len + [b].length ≤ LINE_CAP := hroom
    rw [dif_pos hroom]
    exact ha.insert hroom' (List.cons_ne_nil _ _)
  · have hfull : ¬ s.line.len + [b].length ≤ LINE_CAP := hroom
    rw [dif_neg hroom, Reference.type, ha.text, Line.length_text, if_neg hfull]
    exact ha

/-- **The shell follows the reference** at every key it heeds. -/
theorem Agrees.step (ha : s.Agrees r) (hs : s.Ok) {b : UInt8} (hkey : s.Heeds (keyOf b)) :
    (s.step h b).1.Agrees (r.step h b) := by
  rw [Session.step, Reference.step]
  by_cases hexit : s.exited = true
  · rw [if_pos hexit, if_pos (ha.exited ▸ hexit)]
    exact ha
  · rw [if_neg hexit, if_neg (ha.exited ▸ hexit)]
    cases hb : keyOf b with
    | enter => exact ha.enter hs
    | up => exact ha.up hs (hb ▸ hkey)
    | down => exact ha.down hs (hb ▸ hkey)
    | left => exact ha.moveLeft
    | right => exact ha.moveRight
    | home => exact ha.withLine (s.line.zipper_home.trans (by rw [ha.edit])) _
    | toEnd => exact ha.withLine (s.line.zipper_toEnd.trans (by rw [ha.edit])) _
    | delete => exact ha.delete
    | backspace => exact ha.backspace
    | cancel => exact ha.cancel (hb ▸ hkey)
    | clear => exact ha.withLine ha.edit _
    | complete => exact ha.complete
    | char => exact ha.type b
    | other => exact ha

theorem start_agrees (world : σ) : (start world).Agrees (Reference.start world) where
  world := rfl
  exited := rfl
  chunk := rfl
  edit := Line.blank.zipper_of_text_nil Line.text_blank
  hist := rfl
  browsing := rfl

theorem Agrees.run (ha : s.Agrees r) (hs : s.Ok) {keys : List UInt8} (hkeys : s.HeedsAll h keys) :
    (s.run h keys).Agrees (r.run h keys) := by
  induction keys generalizing s r with
  | nil => exact ha
  | cons b keys ih => exact ih (ha.step hs hkeys.1) (hs.step b) hkeys.2

/-! ### What is recalled -/

theorem Unedited.whole (h : s.Unedited) : s.acc ++ s.line.text = s.hist.getD s.histPos [] := by
  rw [h.1, h.2]
  exact List.rdropWhile_append_rtakeWhile

theorem loadEntry_unedited (hs : s.Ok) {i : ℕ} (hi : i < s.hist.length)
    (hfits : (Entry.line (s.hist.getD i [])).length ≤ LINE_CAP) : (s.loadEntry i).1.Unedited := by
  have hentry := hs.entry hi
  constructor
  · exact (pushAll_entry hentry.length_le).trans (entryChunk_eq hentry)
  · have hline := entryLine_eq hentry
    calc (s.line.load (entryLine (s.hist.getD i []))).text
        = (Entry.line (s.hist.getD i [])).take LINE_CAP := by rw [Line.text_load, hline]
      _ = Entry.line (s.hist.getD i []) := List.take_of_length_le hfits

theorem up_unedited (hs : s.Ok) (hkey : s.Heeds .up) (hlt : s.up.1.histPos < s.up.1.hist.length) :
    s.up.1.Unedited := by
  have hle := hs.histPos
  unfold Session.up at hlt ⊢
  rw [saveDraft_histPos] at hlt ⊢
  split_ifs at hlt ⊢ with hnil hpos
  · rw [hnil] at hlt
    exact absurd hlt (Nat.not_lt_zero _)
  · have htarget : s.target .up = some (s.histPos - 1) := if_pos ⟨rfl, hpos⟩
    have hfits := hkey.fits _ htarget
    rw [← saveDraft_hist] at hfits
    exact loadEntry_unedited hs.saveDraft (by rw [saveDraft_hist]; omega) hfits
  · rw [saveDraft_histPos, saveDraft_hist] at hlt
    rw [show s.saveDraft = s from if_neg hlt.ne]
    exact hkey.unedited rfl hlt

theorem down_unedited (hs : s.Ok) (hkey : s.Heeds .down) (hlt : s.down.1.histPos < s.down.1.hist.length) :
    s.down.1.Unedited := by
  unfold Session.down at hlt ⊢
  split_ifs at hlt ⊢ with hmid hlast
  · exact absurd hlt (hlast ▸ Nat.lt_irrefl _)
  · have hnext : s.histPos + 1 < s.hist.length := by omega
    have htarget : s.target .down = some (s.histPos + 1) := by
      rw [target, if_neg (fun h => Key.noConfusion h.1), if_pos ⟨rfl, hnext⟩]
    exact loadEntry_unedited hs hnext (hkey.fits _ htarget)
  · exact absurd hlt hmid

/-- **What is recalled is the entry**, split between the chunk and the line. -/
theorem recalled_whole (hs : s.Ok) {b : UInt8} (hkey : s.Heeds (keyOf b)) (hb : keyOf b = .up ∨ keyOf b = .down)
    (hexit : s.exited = false) (hlt : (s.step h b).1.histPos < (s.step h b).1.hist.length) :
    (s.step h b).1.acc ++ (s.step h b).1.line.text = (s.step h b).1.hist.getD (s.step h b).1.histPos [] := by
  apply Unedited.whole
  rcases hb with hb | hb
  · have hstep : s.step h b = s.up := by rw [Session.step, hexit, hb]; rfl
    rw [hstep] at hlt ⊢
    exact up_unedited hs (hb ▸ hkey) hlt
  · have hstep : s.step h b = s.down := by rw [Session.step, hexit, hb]; rfl
    rw [hstep] at hlt ⊢
    exact down_unedited hs (hb ▸ hkey) hlt

/-! ### Up and down again -/

/-- Entry `i` of the history is recalled while the draft is put aside. -/
structure Searches (hist : List (List UInt8)) (draft : Draft) (i : ℕ) (s : Session σ) : Prop where
  hist : s.hist = hist
  histPos : s.histPos = i
  draft : (⟨s.draftAcc, s.draftLine⟩ : Draft) = draft
  exited : s.exited = false

variable {hist : List (List UInt8)} {draft : Draft} {i : ℕ}

theorem step_up (hexit : s.exited = false) : s.step h KEY_UP = s.up := by
  rw [Session.step, hexit]
  rfl

theorem step_down (hexit : s.exited = false) : s.step h KEY_DOWN = s.down := by
  rw [Session.step, hexit]
  rfl

theorem run_of_exited (hexit : s.exited = true) (keys : List UInt8) : s.run h keys = s := by
  induction keys with
  | nil => rfl
  | cons b keys ih =>
    have hstep : (s.step h b).1 = s := by rw [Session.step, if_pos hexit]
    rw [run_cons, hstep, ih]

theorem Searches.ups (hs : s.Searches hist draft i) (hi : i < hist.length) (k : ℕ) :
    (s.run h (List.replicate k KEY_UP)).Searches hist draft (i - k) := by
  induction k generalizing s i with
  | zero => exact hs
  | succ k ih =>
    have hsave : s.saveDraft = s := if_neg (by rw [hs.histPos, hs.hist]; omega)
    have hnil : s.hist ≠ [] := by
      rw [hs.hist]
      exact List.ne_nil_of_length_pos (by omega)
    rw [List.replicate_succ, run_cons, step_up hs.exited, Session.up, if_neg hnil, hsave, hs.histPos]
    by_cases hpos : i > 0
    · rw [if_pos hpos, show i - (k + 1) = i - 1 - k by omega]
      exact ih { hs with histPos := rfl } (by omega)
    · rw [if_neg hpos, show i - (k + 1) = i - k by omega]
      exact ih hs hi

theorem Searches.down (hs : s.Searches hist draft i) (hlt : i + 1 < hist.length) :
    (s.step h KEY_DOWN).1 = (s.loadEntry (i + 1)).1 ∧ (s.step h KEY_DOWN).1.Searches hist draft (i + 1) := by
  have hstep : s.step h KEY_DOWN = s.loadEntry (i + 1) := by
    rw [step_down hs.exited, Session.down, hs.histPos, hs.hist, if_pos (by omega), if_neg (by omega)]
  rw [hstep]
  exact ⟨rfl, { hs with histPos := rfl }⟩

/-- At the bottom of the history Down does nothing. -/
theorem downs_bottom (hexit : s.exited = false) (hbottom : s.hist.length ≤ s.histPos) (k : ℕ) :
    s.run h (List.replicate k KEY_DOWN) = s := by
  induction k with
  | zero => rfl
  | succ k ih => rw [List.replicate_succ, run_cons, step_down hexit, Session.down, if_neg (Nat.not_lt.mpr hbottom), ih]

/-- Behind the last entry the draft is back, whatever is pressed after. -/
theorem Searches.downs (hs : s.Searches hist draft i) (hi : i < hist.length) (hline : draft.line.length ≤ LINE_CAP)
    {k : ℕ} (hk : hist.length ≤ i + k) :
    (s.run h (List.replicate k KEY_DOWN)).acc = draft.chunk ∧
      (s.run h (List.replicate k KEY_DOWN)).line.text = draft.line := by
  induction k generalizing s i with
  | zero => exact absurd hk (Nat.not_le.mpr hi)
  | succ k ih =>
    rw [List.replicate_succ, run_cons]
    by_cases hlast : i + 1 = hist.length
    · have hstep : s.step h KEY_DOWN = s.restoreDraft := by
        rw [step_down hs.exited, Session.down, hs.histPos, hs.hist, if_pos hi, if_pos hlast]
      have hbottom : s.restoreDraft.1.hist.length ≤ s.restoreDraft.1.histPos := by
        show s.hist.length ≤ s.histPos + 1
        rw [hs.histPos, hs.hist, hlast]
      have hexit : s.restoreDraft.1.exited = false := hs.exited
      rw [hstep, downs_bottom hexit hbottom]
      have hacc : s.draftAcc = draft.chunk := congrArg Draft.chunk hs.draft
      have htext : s.draftLine = draft.line := congrArg Draft.line hs.draft
      refine ⟨hacc, ?_⟩
      rw [Session.restoreDraft, Line.text_load, htext, List.take_of_length_le hline]
    · have hnext : i + 1 < hist.length := by omega
      exact ih (hs.down hnext).2 hnext (by omega)

/-- Up to entry `i + k` what the last key recalled is shown. -/
theorem Searches.downs_entry (hs : s.Searches hist draft i) {k : ℕ} (hk : 0 < k) (hlt : i + k < hist.length) :
    (s.run h (List.replicate k KEY_DOWN)).acc = pushAll [] (entryChunk (hist.getD (i + k) [])) ∧
      (s.run h (List.replicate k KEY_DOWN)).line.text = (entryLine (hist.getD (i + k) [])).take LINE_CAP := by
  induction k generalizing s i with
  | zero => exact absurd hk (Nat.lt_irrefl 0)
  | succ k ih =>
    obtain ⟨hstep, hnext⟩ := hs.down (h := h) (show i + 1 < hist.length by omega)
    rw [List.replicate_succ, run_cons]
    cases k with
    | zero =>
      refine ⟨?_, ?_⟩
      · show (s.step h KEY_DOWN).1.acc = _
        rw [hstep, Session.loadEntry, hs.hist]
      · show (s.step h KEY_DOWN).1.line.text = _
        rw [hstep, Session.loadEntry, Line.text_load, hs.hist]
    | succ k =>
      rw [show i + (k + 1 + 1) = i + 1 + (k + 1) by omega]
      exact ih hnext (Nat.succ_pos k) (by omega)

theorem ups_of_empty (hnil : s.hist = []) (hexit : s.exited = false) (k : ℕ) :
    s.run h (List.replicate k KEY_UP) = s := by
  induction k with
  | zero => rfl
  | succ k ih => rw [List.replicate_succ, run_cons, step_up hexit, Session.up, if_pos hnil, ih]

/-- Up and down again leaves what is being typed. -/
theorem restored_typing (hbottom : s.histPos = s.hist.length) (k : ℕ) :
    (s.run h (List.replicate k KEY_UP ++ List.replicate k KEY_DOWN)).acc = s.acc ∧
      (s.run h (List.replicate k KEY_UP ++ List.replicate k KEY_DOWN)).line.text = s.line.text := by
  rw [run_append]
  cases hexit : s.exited with
  | true =>
    rw [run_of_exited hexit, run_of_exited hexit]
    exact ⟨rfl, rfl⟩
  | false =>
    by_cases hnil : s.hist = []
    · rw [ups_of_empty hnil hexit, downs_bottom hexit hbottom.ge]
      exact ⟨rfl, rfl⟩
    · cases k with
      | zero => exact ⟨rfl, rfl⟩
      | succ k =>
        have hlen : 0 < s.hist.length := List.length_pos_iff.mpr hnil
        have hsave : s.saveDraft = { s with draftAcc := s.acc, draftLine := s.line.text } := if_pos hbottom
        have hfirst : (s.step h KEY_UP).1.Searches s.hist ⟨s.acc, s.line.text⟩ (s.hist.length - 1) := by
          rw [step_up hexit, Session.up, if_neg hnil, if_pos (by rw [saveDraft_histPos]; omega), hsave, hbottom]
          exact ⟨rfl, rfl, rfl, hexit⟩
        have hups := hfirst.ups (h := h) (by omega) k
        have hline : s.line.text.length ≤ LINE_CAP := s.line.length_text.trans_le s.line.len_le
        rw [List.replicate_succ, run_cons]
        exact hups.downs (by omega) hline (by omega)

/-- Up and down again leaves a recalled entry, as far as there are entries before it. -/
theorem restored_entry (hs : s.Ok) (hunedited : s.Unedited) (hlt : s.histPos < s.hist.length) {k : ℕ}
    (hk : k ≤ s.histPos) :
    (s.run h (List.replicate k KEY_UP ++ List.replicate k KEY_DOWN)).acc = s.acc ∧
      (s.run h (List.replicate k KEY_UP ++ List.replicate k KEY_DOWN)).line.text = s.line.text := by
  rw [run_append]
  cases hexit : s.exited with
  | true =>
    rw [run_of_exited hexit, run_of_exited hexit]
    exact ⟨rfl, rfl⟩
  | false =>
    rcases Nat.eq_zero_or_pos k with rfl | hpos
    · exact ⟨rfl, rfl⟩
    · have hsearch : s.Searches s.hist ⟨s.draftAcc, s.draftLine⟩ s.histPos := ⟨rfl, rfl, rfl, hexit⟩
      have hups := hsearch.ups (h := h) hlt k
      have hback : s.histPos - k + k = s.histPos := Nat.sub_add_cancel hk
      obtain ⟨hacc, htext⟩ := hups.downs_entry (h := h) hpos (hback.trans_lt hlt)
      have hentry := hs.entry hlt
      have hfits : s.line.text.length ≤ LINE_CAP := s.line.length_text.trans_le s.line.len_le
      rw [hback, pushAll_entry hentry.length_le, entryChunk_eq hentry, ← hunedited.1] at hacc
      rw [hback, entryLine_eq hentry, ← hunedited.2, List.take_of_length_le hfits] at htext
      exact ⟨hacc, htext⟩

/-! ### The draft is that of the chunk -/

/-- The key ends the chunk: it is run or cancelled. -/
def Ends (s : Session σ) (key : Key) : Prop :=
  s.exited = false ∧
    (key = .cancel ∨ key = .enter ∧ ¬ (s.acc = [] ∧ s.line.len = 0) ∧ runs s.joinLine.acc = true)

variable (h) in
/-- None of the keys ends the chunk. -/
def NoneEnds (s : Session σ) : List UInt8 → Prop
  | [] => True
  | b :: keys => ¬ s.Ends (keyOf b) ∧ (s.step h b).1.NoneEnds keys

theorem NoneEnds.append {keys keys' : List UInt8} (h1 : s.NoneEnds h keys) (h2 : (s.run h keys).NoneEnds h keys') :
    s.NoneEnds h (keys ++ keys') := by
  induction keys generalizing s with
  | nil => exact h2
  | cons b keys ih => exact ⟨h1.1, ih h1.2 h2⟩

theorem HeedsAll.append {keys keys' : List UInt8} (hk : s.HeedsAll h (keys ++ keys')) :
    s.HeedsAll h keys ∧ (s.run h keys).HeedsAll h keys' := by
  induction keys generalizing s with
  | nil => exact ⟨trivial, hk⟩
  | cons b keys ih =>
    obtain ⟨hfirst, hrest⟩ := ih hk.2
    exact ⟨⟨hk.1, hfirst⟩, hrest⟩

/-- History, place in it and draft are the same. -/
structure SameSearch (s t : Session σ) : Prop where
  hist : t.hist = s.hist
  histPos : t.histPos = s.histPos
  draftAcc : t.draftAcc = s.draftAcc
  draftLine : t.draftLine = s.draftLine

theorem SameSearch.refl (s : Session σ) : s.SameSearch s := ⟨rfl, rfl, rfl, rfl⟩

theorem insert_same {bs : List UInt8} (hroom : s.line.len + bs.length ≤ LINE_CAP) :
    s.SameSearch (s.insert bs hroom).1 := by
  unfold Session.insert
  exact ⟨rfl, rfl, rfl, rfl⟩

theorem complete_same : s.SameSearch (s.complete h).1 := by
  unfold Session.complete
  split_ifs
  · exact .refl s
  · cases candidate h s.world s.line.word with
    | none => exact ⟨rfl, rfl, rfl, rfl⟩
    | some name =>
      dsimp only
      split_ifs
      · exact .refl s
      · exact insert_same _
      · exact .refl s

theorem enter_same (hexit : s.exited = false) (hends : ¬ s.Ends .enter) : s.SameSearch (s.enter h).1 := by
  rw [Session.enter]
  by_cases hbare : s.acc = [] ∧ s.line.len = 0
  · rw [if_pos hbare]
    exact .refl s
  · have hruns : ¬ runs s.joinLine.acc = true := fun hruns => hends ⟨hexit, .inr ⟨rfl, hbare, hruns⟩⟩
    rw [if_neg hbare, if_neg hruns]
    exact ⟨rfl, rfl, rfl, rfl⟩

/-- A key that neither ends the chunk nor looks through the history leaves the search as it is. -/
theorem step_same {b : UInt8} (hends : ¬ s.Ends (keyOf b)) (hup : keyOf b ≠ .up) (hdown : keyOf b ≠ .down) :
    s.SameSearch (s.step h b).1 := by
  unfold Session.step
  split_ifs with hexit
  · exact .refl s
  · rw [Bool.not_eq_true] at hexit
    cases hb : keyOf b with
    | enter => exact enter_same hexit (hb ▸ hends)
    | up => exact absurd hb hup
    | down => exact absurd hb hdown
    | left => unfold moveLeft; split_ifs <;> exact ⟨rfl, rfl, rfl, rfl⟩
    | right => unfold moveRight; split_ifs <;> exact ⟨rfl, rfl, rfl, rfl⟩
    | home => exact ⟨rfl, rfl, rfl, rfl⟩
    | toEnd => exact ⟨rfl, rfl, rfl, rfl⟩
    | delete => unfold Session.delete; split_ifs <;> exact ⟨rfl, rfl, rfl, rfl⟩
    | backspace => unfold Session.backspace; split_ifs <;> exact ⟨rfl, rfl, rfl, rfl⟩
    | cancel => exact absurd ⟨hexit, .inl hb⟩ hends
    | clear => exact ⟨rfl, rfl, rfl, rfl⟩
    | complete => exact complete_same
    | char =>
      dsimp only
      unfold Session.type
      split_ifs
      · exact insert_same _
      · exact .refl s
    | other => exact .refl s

/-- A key that ends the chunk ends the search. -/
theorem Ends.bottom {b : UInt8} (hends : s.Ends (keyOf b)) (hkey : s.Heeds (keyOf b)) :
    (s.step h b).1.histPos = (s.step h b).1.hist.length := by
  obtain ⟨hexit, hends⟩ := hends
  rw [Session.step, hexit, if_neg Bool.false_ne_true]
  rcases hends with hb | ⟨hb, hbare, hruns⟩
  · rw [hb]
    dsimp only
    rw [Session.cancel]
    by_cases hbare : s.acc = [] ∧ s.line.len = 0
    · rw [if_pos hbare]
      exact hkey.settled hb hbare.1 hbare.2
    · rw [if_neg hbare]
      rfl
  · rw [hb]
    dsimp only
    rw [Session.enter, if_neg hbare, if_pos hruns, Session.execute]
    split_ifs <;> rfl

/-- A key that looks through the history keeps it and the draft, once one has been put aside. -/
theorem search_same {b : UInt8} (hb : keyOf b = .up ∨ keyOf b = .down) (hlt : s.histPos < s.hist.length) :
    (s.step h b).1.hist = s.hist ∧ (s.step h b).1.draftAcc = s.draftAcc ∧ (s.step h b).1.draftLine = s.draftLine := by
  have hsave : s.saveDraft = s := if_neg hlt.ne
  unfold Session.step
  split_ifs
  · exact ⟨rfl, rfl, rfl⟩
  · rcases hb with hb | hb
    · rw [hb]
      dsimp only
      rw [Session.up, hsave]
      split_ifs <;> exact ⟨rfl, rfl, rfl⟩
    · rw [hb]
      dsimp only
      rw [Session.down]
      split_ifs <;> exact ⟨rfl, rfl, rfl⟩

/-- The first step up puts aside what is typed; a step down there does nothing. -/
theorem search_first {b : UInt8} (hb : keyOf b = .up ∨ keyOf b = .down) (hbottom : s.histPos = s.hist.length)
    (hlt : (s.step h b).1.histPos < (s.step h b).1.hist.length) :
    (s.step h b).1.draftAcc = s.acc ∧ (s.step h b).1.draftLine = s.line.text := by
  have hsave : s.saveDraft = { s with draftAcc := s.acc, draftLine := s.line.text } := if_pos hbottom
  unfold Session.step at hlt ⊢
  split_ifs at hlt ⊢
  · exact absurd hlt (hbottom ▸ Nat.lt_irrefl _)
  · rcases hb with hb | hb
    · rw [hb] at hlt ⊢
      dsimp only at hlt ⊢
      rw [Session.up, hsave] at hlt ⊢
      split_ifs at hlt ⊢
      · exact absurd hlt (hbottom ▸ Nat.lt_irrefl _)
      · exact ⟨rfl, rfl⟩
      · exact ⟨rfl, rfl⟩
    · rw [hb] at hlt
      dsimp only at hlt
      rw [Session.down, if_neg (hbottom ▸ Nat.lt_irrefl _)] at hlt
      exact absurd hlt (hbottom ▸ Nat.lt_irrefl _)

/-- **The draft is what was typed for this chunk**: it was put aside at a key
since which none has ended the chunk. -/
theorem draft_of_chunk {keys : List UInt8} (hstart : s.histPos = s.hist.length) (hs : s.Ok)
    (hkeys : s.HeedsAll h keys) (hlt : (s.run h keys).histPos < (s.run h keys).hist.length) :
    ∃ before since, keys = before ++ since ∧ (s.run h before).histPos = (s.run h before).hist.length ∧
      (s.run h before).acc = (s.run h keys).draftAcc ∧ (s.run h before).line.text = (s.run h keys).draftLine ∧
      (s.run h before).NoneEnds h since := by
  induction keys using List.reverseRecOn with
  | nil => exact absurd hlt (hstart ▸ Nat.lt_irrefl _)
  | append_singleton keys b ih =>
    obtain ⟨hbefore, hlast⟩ := hkeys.append
    have hkey : (s.run h keys).Heeds (keyOf b) := hlast.1
    rw [run_append] at hlt ⊢
    have hle := (hs.run (h := h) keys).histPos
    have hnext : (s.run h keys).run h [b] = ((s.run h keys).step h b).1 := rfl
    rw [hnext] at hlt ⊢
    by_cases hends : (s.run h keys).Ends (keyOf b)
    · exact absurd hlt (hends.bottom hkey ▸ Nat.lt_irrefl _)
    · -- a draft put aside before stays
      have hkeep : (s.run h keys).histPos < (s.run h keys).hist.length →
          ((s.run h keys).step h b).1.draftAcc = (s.run h keys).draftAcc →
          ((s.run h keys).step h b).1.draftLine = (s.run h keys).draftLine →
          ∃ before since, keys ++ [b] = before ++ since ∧ (s.run h before).histPos = (s.run h before).hist.length ∧
            (s.run h before).acc = ((s.run h keys).step h b).1.draftAcc ∧
            (s.run h before).line.text = ((s.run h keys).step h b).1.draftLine ∧
            (s.run h before).NoneEnds h since := by
        intro hsearch hacc hline
        obtain ⟨before, since, heq, hbottom, hacc', hline', hnone⟩ := ih hbefore hsearch
        refine ⟨before, since ++ [b], ?_, hbottom, hacc'.trans hacc.symm, hline'.trans hline.symm,
          hnone.append ⟨?_, trivial⟩⟩
        · rw [heq, List.append_assoc]
        · rwa [← run_append, ← heq]
      by_cases hb : keyOf b = .up ∨ keyOf b = .down
      · rcases hle.lt_or_eq with hsearch | hbottom
        · obtain ⟨-, hacc, hline⟩ := search_same (h := h) hb hsearch
          exact hkeep hsearch hacc hline
        · obtain ⟨hacc, hline⟩ := search_first hb hbottom hlt
          exact ⟨keys, [b], rfl, hbottom, hacc.symm, hline.symm, hends, trivial⟩
      · obtain ⟨hup, hdown⟩ := not_or.mp hb
        have hsame := step_same (h := h) hends hup hdown
        rw [hsame.hist, hsame.histPos] at hlt
        exact hkeep hlt hsame.draftAcc hsame.draftLine

end Session

/-! ### A whole session -/

section
variable {σ : Type} (h : Host σ) (world : σ)

open Session

/-- The session behind the keys is that of the reference: the line and its
cursor, the chunk, and the history. What was just recalled is the entry, Up and
Down again leave what is being typed (or recalled, while there are older
entries), and a draft put aside belongs to the chunk being typed. -/
structure Follows (keys : List UInt8) : Prop where
  within : ((start world).run h keys).line.pos ≤ ((start world).run h keys).line.len ∧
    ((start world).run h keys).line.len ≤ LINE_CAP
  line : ((start world).run h keys).line.text = ((Reference.start world).run h keys).edit.text ∧
    ((start world).run h keys).line.pos = ((Reference.start world).run h keys).edit.pos
  chunk : ((start world).run h keys).acc = ((Reference.start world).run h keys).chunk
  history : ((start world).run h keys).hist = recent HIST_MAX ((Reference.start world).run h keys).executed
  recalled : ∀ before b, keys = before ++ [b] → keyOf b = .up ∨ keyOf b = .down →
    ((start world).run h before).exited = false →
    ((start world).run h keys).histPos < ((start world).run h keys).hist.length →
    ((start world).run h keys).acc ++ ((start world).run h keys).line.text =
      ((start world).run h keys).hist.getD ((start world).run h keys).histPos []
  restored : ∀ k, (start world).HeedsAll h (keys ++ List.replicate k KEY_UP) →
    ((start world).run h keys).histPos = ((start world).run h keys).hist.length ∨
      k ≤ ((start world).run h keys).histPos →
    ((start world).run h (keys ++ (List.replicate k KEY_UP ++ List.replicate k KEY_DOWN))).acc =
        ((start world).run h keys).acc ∧
      ((start world).run h (keys ++ (List.replicate k KEY_UP ++ List.replicate k KEY_DOWN))).line.text =
        ((start world).run h keys).line.text
  draft : ((start world).run h keys).histPos < ((start world).run h keys).hist.length →
    ∃ before since, keys = before ++ since ∧
      ((start world).run h before).histPos = ((start world).run h before).hist.length ∧
      ((start world).run h before).acc = ((start world).run h keys).draftAcc ∧
      ((start world).run h before).line.text = ((start world).run h keys).draftLine ∧
      ((start world).run h before).NoneEnds h since

end

end Rustrapper.Repl

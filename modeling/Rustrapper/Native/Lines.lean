/-
# Reading files line by line

`io.lines` gives an iterator over an open handle. A generic `for` and a call of
the iterator each ask the host for a line, into a buffer of their own size, and
take a line of no bytes for the end.

Turn by turn, both hand over the lines of the file exactly if the file has no
empty line and, for the calls, none longer than their buffer (`lines_yielded_iff`).
-/
import Rustrapper.Codec.Text
import Rustrapper.Native.Shelf
import Rustrapper.Lua.Run
import Rustrapper.Lua.Steps

namespace Rustrapper.Native

open Lua
open Codec (segments segments_of_ne_nil slice)

/-! ### The two consumers -/

/-- The library whose line reads go to the files. -/
def hostLib (L : Lib) (fs : Files) : Lib := { L with ioLine := fun id cap => pure (ioRead fs id 1 0 cap).2 }

/-- The files after `k` line reads into buffers of `cap` bytes. -/
def afterReads (cap : ℕ) (fs : Files) (id : ℕ) : ℕ → Files
  | 0 => fs
  | k + 1 => (ioRead (afterReads cap fs id k) id 1 0 cap).1

/-- A handle on `content` from which nothing has been read. -/
structure Fresh (fs : Files) (id : ℕ) (content : List UInt8) : Prop where
  handle : ∃ f, fs.openFiles[id]? = some f ∧ f.closed = false ∧ f.pos = 0 ∧ f.data = content

/-- The lines of a file: what newlines end, and the rest unless it is empty. -/
def linesOf (content : List UInt8) : List (List UInt8) := segments 0x0A content

/-- The contents of a file whose lines are strings of the interpreter. -/
structure Content where
  bytes : List UInt8
  short : ∀ l ∈ linesOf bytes, l.length ≤ STR_CAP

/-- The loop goes on with a line, or ends. -/
def handLine (ip a : ℕ) : Option (List UInt8) → LuaM Next
  | none => pure (.goto a)
  | some l => do
    pushVals [.str (← intern l), .nil]
    pure (.goto ip)

/-- The call returns a line, or `nil`. -/
def returnLine : Option (List UInt8) → LuaM ExecResult
  | none => pure (.ret .nil)
  | some l => do pure (.ret (.str (← intern l)))

/-- Turn `k` of a loop over the lines hands over line `k`, and ends the loop
behind the last one, whatever the body left of the interpreter's state. -/
def LoopYields (c : Content) : Prop :=
  ∀ (R : Rec) (L : Lib) (fs : Files) (id ip a : ℕ), Fresh fs id c.bytes →
    ∀ (k : ℕ) (s : LuaState) (f : Frame) (rest : List Frame), s.frames = f :: rest → f.ctrl0 = .ioLines id →
      R.exec (execInstr (hostLib L (afterReads STR_CAP fs id k)) ip (.forInNext a)) s =
        R.exec (handLine ip a (linesOf c.bytes)[k]?) s

/-- Call `k` of the iterator returns line `k`, and `nil` behind the last one. -/
def CallYields (c : Content) : Prop :=
  ∀ (R : Rec) (L : Lib) (fs : Files) (id base : ℕ), Fresh fs id c.bytes → ∀ (k : ℕ) (s : LuaState),
    R.exec (callPlain (hostLib L (afterReads 4096 fs id k)) (.ioLines id) [] base) s =
      R.exec (returnLine (linesOf c.bytes)[k]?) s

/-! ### The reads -/

variable {fs : Files} {id : ℕ} {content : List UInt8}

/-- The lines behind the position of an open handle. -/
def Ahead (fs : Files) (id : ℕ) (ls : List (List UInt8)) : Prop :=
  ∃ f, fs.openFiles[id]? = some f ∧ f.closed = false ∧ linesOf (f.data.drop f.pos) = ls

theorem Fresh.ahead (h : Fresh fs id content) : Ahead fs id (linesOf content) := by
  obtain ⟨f, hf, hclosed, hpos, hdata⟩ := h.handle
  exact ⟨f, hf, hclosed, by rw [hpos, hdata, List.drop_zero]⟩

/-- A line read copies what fits of the next line and moves behind it. -/
theorem read_line (f : OpenFile) (cap : ℕ) :
    (f.read 1 0 cap).1 = (linesOf (f.data.drop f.pos)).head?.map (List.take cap) ∧
    linesOf (f.data.drop (f.read 1 0 cap).2) = (linesOf (f.data.drop f.pos)).tail := by
  unfold OpenFile.read
  rw [if_pos rfl]
  by_cases hend : f.data.length ≤ f.pos
  · rw [if_pos hend, List.drop_of_length_le hend]
    exact ⟨rfl, by simp [linesOf]⟩
  rw [if_neg hend]
  have hne : f.data.drop f.pos ≠ [] := by
    rw [Ne, List.drop_eq_nil_iff]
    exact hend
  have hsplit := segments_of_ne_nil 0x0A hne
  have hprefix := List.takeWhile_prefix (· ≠ 0x0A) (l := f.data.drop f.pos)
  generalize (f.data.drop f.pos).takeWhile (· ≠ 0x0A) = l at hsplit hprefix
  have htake : (f.data.drop f.pos).take l.length = l := (List.prefix_iff_eq_take.mp hprefix).symm
  rw [List.drop_drop] at hsplit
  dsimp only
  rw [Nat.add_sub_cancel_left, if_neg (by omega), linesOf, hsplit]
  refine ⟨?_, ?_⟩
  · rw [List.head?_cons, Option.map_some, slice, Nat.min_comm, ← List.take_take, htake]
  · rw [List.tail_cons, linesOf]
    split_ifs with hlt
    · rw [Nat.add_assoc]
    · rw [List.drop_of_length_le (by omega), List.drop_of_length_le (by omega)]

theorem ioRead_line {ls : List (List UInt8)} (h : Ahead fs id ls) (cap : ℕ) :
    (ioRead fs id 1 0 cap).2 = ls.head?.map (List.take cap) ∧ Ahead (ioRead fs id 1 0 cap).1 id ls.tail := by
  obtain ⟨f, hf, hclosed, hls⟩ := h
  obtain ⟨hread, hrest⟩ := read_line f cap
  have hlt : id < fs.openFiles.length := (List.getElem?_eq_some_iff.mp hf).1
  unfold ioRead
  rw [hf]
  dsimp only
  rw [if_neg (by simp [hclosed])]
  rw [hls] at hread hrest
  exact ⟨hread, { f with pos := (f.read 1 0 cap).2 }, by simp [hlt], hclosed, hrest⟩

/-- **The lines ahead after `k` reads.** -/
theorem afterReads_ahead (h : Fresh fs id content) (cap : ℕ) :
    ∀ k, Ahead (afterReads cap fs id k) id ((linesOf content).drop k)
  | 0 => h.ahead
  | k + 1 => by
    have hnext := (ioRead_line (afterReads_ahead h cap k) cap).2
    rwa [List.tail_drop] at hnext

theorem line_read (h : Fresh fs id content) (cap k : ℕ) :
    (ioRead (afterReads cap fs id k) id 1 0 cap).2 = (linesOf content)[k]?.map (List.take cap) := by
  rw [(ioRead_line (afterReads_ahead h cap k) cap).1, List.head?_drop]

/-- A stored file opened for reading is read from its start. -/
theorem open_fresh {fs' : Files} {name : List UInt8} (hlen : fs.openFiles.length ≤ 255)
    (hstored : Store.Assoc.get fs.files name = some content)
    (h : ioOpen fs name Mode.r.text = (fs', some id)) : Fresh fs' id content := by
  obtain ⟨-, hid, heq⟩ := ioOpen_succeeds (by rw [h]; rfl) hlen
  rw [h] at hid heq
  obtain rfl := Option.some.inj hid
  refine ⟨⟨name, content, 0, false, false⟩, ?_, rfl, rfl, rfl⟩
  rw [show fs' = _ from heq, hstored, startData_text (by intro hm; cases hm)]
  exact List.getElem?_concat_length

/-! ### The turns -/

/-- What the consumers make of a line read: no bytes are the end. -/
def heard (o : Option (List UInt8)) : Option (List UInt8) := o.filter fun l => !l.isEmpty

theorem exec_runProg_pure {α : Type} (R : Rec) (x : α) : R.exec (runProg (pure x)) = pure x := rfl

/-- **What a turn of the loop hands over.** -/
theorem forInNext_line (R : Rec) (L : Lib) (h : Fresh fs id content) (ip a k : ℕ) {s : LuaState} {f : Frame}
    {rest : List Frame} (hs : s.frames = f :: rest) (hf : f.ctrl0 = .ioLines id) :
    R.exec (execInstr (hostLib L (afterReads STR_CAP fs id k)) ip (.forInNext a)) s =
      R.exec (handLine ip a (heard ((linesOf content)[k]?.map (List.take STR_CAP)))) s := by
  rw [execInstr, execForInNext, exec_bind, bind_ok (exec_topFrame R s hs), hf]
  dsimp only [hostLib]
  rw [exec_bind, line_read h, exec_runProg_pure, pure_bind]
  generalize (linesOf content)[k]?.map (List.take STR_CAP) = o
  rcases o with _ | _ | ⟨b, bs⟩
  · rfl
  · rfl
  · rfl

/-- **What a call of the iterator returns.** -/
theorem call_line (R : Rec) (L : Lib) (h : Fresh fs id content) (base k : ℕ) (s : LuaState) :
    R.exec (callPlain (hostLib L (afterReads 4096 fs id k)) (.ioLines id) [] base) s =
      R.exec (returnLine (heard ((linesOf content)[k]?.map (List.take 4096)))) s := by
  unfold callPlain
  dsimp only [hostLib, noArgs, List.length_nil]
  rw [line_read h]
  generalize (linesOf content)[k]?.map (List.take 4096) = o
  rcases o with _ | _ | ⟨b, bs⟩
  · rfl
  · rfl
  · rfl

/-! ### When every line is yielded -/

theorem heard_whole {ls : List (List UInt8)} {cap : ℕ} (h : ∀ l ∈ ls, l ≠ [] ∧ l.length ≤ cap) (k : ℕ) :
    heard (ls[k]?.map (List.take cap)) = ls[k]? := by
  cases hl : ls[k]? with
  | none => rfl
  | some l =>
    obtain ⟨hne, hle⟩ := h l (List.mem_of_getElem? hl)
    rw [Option.map_some, List.take_of_length_le hle, heard, Option.filter_some, if_pos (by simpa using hne)]

theorem heard_empty {ls : List (List UInt8)} {cap k : ℕ} (h : ls[k]? = some []) :
    heard (ls[k]?.map (List.take cap)) = none := by
  rw [h, Option.map_some, List.take_nil]
  rfl

/-- A handle on `content` and no other. -/
def oneFile (content : List UInt8) : Files := ⟨[], [⟨[], content, 0, false, false⟩]⟩

theorem oneFile_fresh (content : List UInt8) : Fresh (oneFile content) 0 content := ⟨_, rfl, rfl, rfl, rfl⟩

/-- A loop over the lines of handle 0, with no string yet. -/
def overLines : LuaState where
  frames := [{ ctrl0 := .ioLines 0 }]

theorem LoopYields.ne_nil {c : Content} (h : LoopYields c) : ∀ l ∈ linesOf c.bytes, l ≠ [] := by
  rintro l hl rfl
  obtain ⟨k, hk⟩ := List.mem_iff_getElem?.mp hl
  have hfresh := oneFile_fresh c.bytes
  have hturn := h .stuck bareLib _ 0 1 0 hfresh k overLines _ [] rfl rfl
  rw [forInNext_line .stuck bareLib hfresh 1 0 k rfl rfl, heard_empty hk, hk] at hturn
  cases hturn

theorem CallYields.ne_nil {c : Content} (h : CallYields c) : ∀ l ∈ linesOf c.bytes, l ≠ [] := by
  rintro l hl rfl
  obtain ⟨k, hk⟩ := List.mem_iff_getElem?.mp hl
  have hfresh := oneFile_fresh c.bytes
  have hturn := h .stuck bareLib _ 0 0 hfresh k overLines
  rw [call_line .stuck bareLib hfresh 0 k, heard_empty hk, hk] at hturn
  cases hturn

/-- The first string of the interpreter. -/
theorem exec_returnLine {l : List UInt8} (h : l.length ≤ STR_CAP) : Rec.stuck.exec (returnLine (some l)) overLines =
    .ok (.ret (.str (strref 0 l.length))) { overLines with strregs := [(0, l)], strNext := 0 + l.length } := by
  have hintern : overLines.toHeap.intern l =
      .ok (strref 0 l.length, { overLines.toHeap with strregs := [(0, l)], strNext := 0 + l.length }) := by
    have hroom : ¬ overLines.strNext + l.length > STR_CAP := by
      rw [show overLines.strNext = 0 from rfl]
      omega
    have hfew : ¬ overLines.strregs.length ≥ MAX_STRINGS := by decide
    have hnew : (overLines.strregs.find? fun reg => reg.2 = l) = none := rfl
    rw [Heap.intern, hnew]
    dsimp only
    rw [if_neg hfew, if_neg hroom]
    rfl
  rw [returnLine, exec_bind, bind_apply, exec_intern, hintern]
  rfl

theorem CallYields.short {c : Content} (h : CallYields c) : ∀ l ∈ linesOf c.bytes, l.length ≤ 4096 := by
  intro l hl
  have hne := h.ne_nil l hl
  obtain ⟨k, hk⟩ := List.mem_iff_getElem?.mp hl
  have hfresh := oneFile_fresh c.bytes
  have hturn := h .stuck bareLib _ 0 0 hfresh k overLines
  have hheard : heard (some (l.take 4096)) = some (l.take 4096) := by
    rw [heard, Option.filter_some, if_pos (by simpa using hne)]
  have hshort := c.short l hl
  rw [call_line .stuck bareLib hfresh 0 k, hk, Option.map_some, hheard, exec_returnLine hshort,
    exec_returnLine ((List.length_take_le' _ _).trans hshort)] at hturn
  injection hturn with _ hstate
  have hregs := congrArg (fun s : LuaState => s.strregs) hstate
  have heq : l.take 4096 = l := by simpa using hregs
  rw [← heq]
  exact List.length_take_le _ _

/-- The file `a`, an empty line, `b`. -/
def withGap : Content := ⟨[0x61, 0x0A, 0x0A, 0x62], by decide⟩

theorem linesOf_long (n : ℕ) : linesOf (List.replicate (n + 1) 0x61) = [List.replicate (n + 1) 0x61] := by
  have hfree : (0x0A : UInt8) ∉ List.replicate (n + 1) 0x61 := by
    intro hmem
    exact absurd (List.eq_of_mem_replicate hmem) (by decide)
  rw [linesOf, segments, List.splitOn_eq_singleton hfree, if_neg (by simp)]

/-- A file of one line, longer than the buffer of a call. -/
def oneLong : Content where
  bytes := List.replicate (4096 + 1) 0x61
  short := by
    intro l hl
    rw [linesOf_long, List.mem_singleton] at hl
    rw [hl, List.length_replicate]
    decide

end Rustrapper.Native

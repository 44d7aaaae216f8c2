/-
# The list of files against the map

The calls of a script run on the stored list and on the map side by side. `Sim`
relates the two between any two calls: the list finds for a name what the map
has for it, and the handles are the same.
-/
import Rustrapper.Native.Files

namespace Rustrapper.Native

open Codec Store

structure Sim (s : Session) : Prop where
  nodup : (Assoc.keys s.fs.files).Nodup
  content : Assoc.get s.fs.files = s.shelf.content
  handles : s.fs.openFiles = s.shelf.handles
  length : s.fs.openFiles.length ≤ 255

variable {s : Session}

/-! ### Embedded files -/

/-- Of the embedded files every name keeps its first. -/
theorem embed_content (embedded : List (List UInt8 × List UInt8)) :
    ∀ fl : List (List UInt8 × List UInt8), (Assoc.keys fl).Nodup →
      let fl' := embedded.foldl (fun fl e => if (Assoc.get fl e.1).isNone then fl ++ [e] else fl) fl
      (Assoc.keys fl').Nodup ∧
        ∀ name, Assoc.get fl' name = (Assoc.get fl name).or ((embedded.find? (·.1 == name)).map Prod.snd) := by
  induction embedded with
  | nil =>
    intro fl h
    exact ⟨h, fun name => (Option.or_none).symm⟩
  | cons e embedded ih =>
    intro fl h
    rw [List.foldl_cons]
    cases hg : Assoc.get fl e.1 with
    | none =>
      have hnew := Assoc.nodup_append_new h hg e.2
      obtain ⟨h1, h2⟩ := ih (fl ++ [e]) hnew
      refine ⟨h1, fun name => (h2 name).trans ?_⟩
      rw [Assoc.get_append fl e.1 name e.2]
      by_cases hn : e.1 = name
      · subst hn
        simp [hg]
      · simp [hn]
    | some d =>
      obtain ⟨h1, h2⟩ := ih fl h
      refine ⟨h1, fun name => (h2 name).trans ?_⟩
      by_cases hn : e.1 = name
      · subst hn
        simp [hg]
      · simp [hn]

theorem start_sim (embedded : List (List UInt8 × List UInt8)) : Sim (.start embedded) := by
  obtain ⟨h1, h2⟩ := embed_content embedded [] List.nodup_nil
  refine ⟨h1, ?_, rfl, Nat.zero_le _⟩
  funext name
  exact h2 name

/-! ### Modes -/

theorem readsOnly_text (m : Mode) : readsOnly m.text = !m.writes := by cases m <;> rfl

theorem isWritable_text (m : Mode) : isWritable m.text = m.writes := by cases m <;> rfl

/-- A handle starts with what its mode keeps, mode `r+` apart. -/
theorem startData_text {m : Mode} {stored : Option (List UInt8)}
    (h : m = .rPlus → stored.getD [] = []) :
    startData stored m.text = if m.keeps then stored.getD [] else [] := by
  cases m with
  | rPlus => exact (h rfl).symm
  | r => rfl
  | w => rfl
  | a => rfl
  | wPlus => rfl
  | aPlus => rfl

/-- What a successful `io_open` does. -/
theorem ioOpen_succeeds {fs : Files} {name : List UInt8} {m : Mode}
    (h : (ioOpen fs name m.text).2.isSome) (hlen : fs.openFiles.length ≤ 255) :
    fs.openFiles.length < 255 ∧ (ioOpen fs name m.text).2 = some fs.openFiles.length ∧
      (ioOpen fs name m.text).1 =
        ⟨if m.writes && !name.isEmpty && (Assoc.get fs.files name).isNone then
            fs.files ++ [(name, startData (Assoc.get fs.files name) m.text)] else fs.files,
          fs.openFiles ++ [⟨name, startData (Assoc.get fs.files name) m.text, 0, false, m.writes⟩]⟩ := by
  have hid : fs.openFiles.length % 256 = fs.openFiles.length := Nat.mod_eq_of_lt (by omega)
  unfold ioOpen at h ⊢
  simp only [hid, isWritable_text] at h ⊢
  by_cases habsent : (readsOnly m.text && (Assoc.get fs.files name).isNone) = true
  · rw [if_pos habsent] at h
    cases h
  · rw [if_neg habsent] at h ⊢
    by_cases hfull : fs.openFiles.length = 255
    · rw [if_pos hfull] at h
      cases h
    · rw [if_neg hfull]
      exact ⟨by omega, rfl, rfl⟩

/-! ### Every call keeps it -/

theorem Sim.fetch (h : Sim s) {saveAs : List UInt8} (data : List UInt8)
    (hb : Assoc.get s.fs.files saveAs = none) : Sim (s.step (.fetch saveAs data)) := by
  constructor
  · exact Assoc.nodup_append_new h.nodup hb data
  · show Assoc.get (s.fs.files ++ [(saveAs, data)]) = Function.update s.shelf.content saveAs (some data)
    rw [Assoc.get_append_new hb, h.content]
  · exact h.handles
  · exact h.length

theorem Sim.openFile (h : Sim s) {name : List UInt8} {m : Mode}
    (hs : (ioOpen s.fs name m.text).2.isSome)
    (hb : m = .rPlus → (Assoc.get s.fs.files name).getD [] = []) :
    Sim (s.step (.openFile name m)) := by
  obtain ⟨hlt, -, heq⟩ := ioOpen_succeeds hs h.length
  have hstart := startData_text hb
  rw [h.content] at hstart
  -- a name that is registered gets no bytes
  have hempty : (s.shelf.content name).isNone = true →
      (if m.keeps then (s.shelf.content name).getD [] else []) = [] := by
    intro hn
    rw [Option.isNone_iff_eq_none.mp hn]
    exact ite_self []
  show Sim ⟨(ioOpen s.fs name m.text).1, s.shelf.openFile name m⟩
  unfold Shelf.openFile
  rw [heq, h.content, hstart]
  generalize (if m.keeps then (s.shelf.content name).getD [] else []) = data at hempty ⊢
  constructor
  · dsimp only
    split_ifs with hreg
    · have hnone := Option.isNone_iff_eq_none.mp (Bool.and_eq_true_iff.mp hreg).2
      exact Assoc.nodup_append_new h.nodup ((congrFun h.content name).trans hnone) _
    · exact h.nodup
  · dsimp only
    split_ifs with hreg
    · have hisNone := (Bool.and_eq_true_iff.mp hreg).2
      have hnone := Option.isNone_iff_eq_none.mp hisNone
      rw [hempty hisNone, Assoc.get_append_new ((congrFun h.content name).trans hnone), h.content]
    · exact h.content
  · show s.fs.openFiles ++ [_] = s.shelf.handles ++ [_]
    rw [h.handles]
  · show (s.fs.openFiles ++ [_]).length ≤ 255
    rw [List.length_append]
    exact hlt

/-- A call that changes one handle only. -/
theorem Sim.atHandle (h : Sim s) (id : ℕ) (f : OpenFile) :
    Sim ⟨{ s.fs with openFiles := s.fs.openFiles.set id f },
      { s.shelf with handles := s.fs.openFiles.set id f }⟩ := by
  refine ⟨h.nodup, h.content, rfl, ?_⟩
  show (s.fs.openFiles.set id f).length ≤ 255
  rw [List.length_set]
  exact h.length

theorem Sim.read (h : Sim s) (id fmt n cap : ℕ) :
    (ioRead s.fs id fmt n cap).2 = (s.shelf.read id fmt n cap).2 ∧
      Sim (s.step (.read id fmt n cap)) := by
  unfold Session.step ioRead Shelf.read
  dsimp only
  rw [← h.handles]
  cases hf : s.fs.openFiles[id]? with
  | none => exact ⟨rfl, h⟩
  | some f =>
    dsimp only
    split_ifs with hc
    · exact ⟨rfl, h⟩
    · exact ⟨rfl, h.atHandle id _⟩

theorem Sim.write (h : Sim s) (id : ℕ) (data : List UInt8) : Sim (s.step (.write id data)) := by
  unfold Session.step ioWrite Shelf.write
  dsimp only
  rw [← h.handles]
  cases hf : s.fs.openFiles[id]? with
  | none => exact h
  | some f =>
    dsimp only
    split_ifs with hc
    · exact h
    · exact h.atHandle id _

/-- A file stored under a name. -/
theorem Sim.store (h : Sim s) (name data : List UInt8) :
    Sim ⟨{ s.fs with files := Assoc.put s.fs.files name data }, s.shelf.store name data⟩ := by
  refine ⟨Assoc.nodup_put h.nodup name data, ?_, h.handles, h.length⟩
  show Assoc.get (Assoc.put s.fs.files name data) = Function.update s.shelf.content name (some data)
  rw [Assoc.get_put, h.content]

theorem Sim.drop (h : Sim s) (name : List UInt8) :
    Sim ⟨{ s.fs with files := Assoc.remove s.fs.files name }, s.shelf.remove name⟩ := by
  refine ⟨Assoc.nodup_remove h.nodup name, ?_, h.handles, h.length⟩
  show Assoc.get (Assoc.remove s.fs.files name) = Function.update s.shelf.content name none
  rw [Assoc.get_remove h.nodup, h.content]

theorem Sim.close (h : Sim s) {id : ℕ}
    (hb : ∀ f, s.fs.openFiles[id]? = some f → f.closed → f.writable → f.name ≠ [] →
      Assoc.get s.fs.files f.name = some f.data) :
    (∀ f, s.fs.openFiles[id]? = some f → f.closed → (ioClose s.fs id).1.files = s.fs.files) ∧
      Sim (s.step (.close id)) := by
  unfold Session.step ioClose Shelf.close
  dsimp only
  rw [← h.handles]
  cases hf : s.fs.openFiles[id]? with
  | none => exact ⟨fun f h => (by cases h), h⟩
  | some f =>
    dsimp only
    by_cases hc : f.closed = true
    · -- what a closed handle stores again is there already
      have hsame : (if (f.writable && !f.name.isEmpty) = true then Assoc.put s.fs.files f.name f.data
          else s.fs.files) = s.fs.files := by
        split_ifs with hw
        · obtain ⟨hw, hname⟩ := Bool.and_eq_true_iff.mp hw
          apply Assoc.put_eq_self
          exact hb f hf hc hw (by simpa using hname)
        · rfl
      have hset : s.fs.openFiles.set id { f with closed := true } = s.fs.openFiles := by
        obtain ⟨hlt, hget⟩ := List.getElem?_eq_some_iff.mp hf
        have hf' : ({ f with closed := true } : OpenFile) = s.fs.openFiles[id] := by
          rw [hget, ← hc]
        rw [hf', List.set_getElem_self]
      rw [if_pos hc, hsame, hset]
      exact ⟨fun _ _ _ => rfl, h⟩
    · rw [if_neg hc]
      refine ⟨?_, ?_⟩
      · intro f' hf' hc'
        cases hf'
        exact absurd hc' hc
      · by_cases hw : (f.writable && !f.name.isEmpty) = true
        · rw [if_pos hw, if_pos hw]
          exact (h.store f.name f.data).atHandle id _
        · rw [if_neg hw, if_neg hw]
          exact h.atHandle id _

theorem Sim.remove (h : Sim s) (name : List UInt8) : Sim (s.step (.remove name)) := by
  unfold Session.step osRemove
  dsimp only
  cases hg : Assoc.get s.fs.files name with
  | none =>
    have hsame : s.shelf.remove name = s.shelf := by
      unfold Shelf.remove
      rw [← h.content, ← hg, Function.update_eq_self]
      rw [h.content]
    rw [hsame]
    exact h
  | some data => exact h.drop name

theorem Sim.rename (h : Sim s) (old new : List UInt8) : Sim (s.step (.rename old new)) := by
  unfold Session.step osRename Shelf.rename
  dsimp only
  rw [← h.content]
  cases hg : Assoc.get s.fs.files old with
  | none => exact h
  | some data => exact (h.drop old).store new data

/-! ### Reading a file to its end -/

/-- A read of all that is left takes the next bytes, as many as the buffer holds. -/
theorem read_all {f : OpenFile} {cap : ℕ} :
    f.read 0 0 cap =
      if min (f.data.length - f.pos) cap = 0 then (none, f.pos)
      else (some ((f.data.drop f.pos).take cap), f.pos + min (f.data.length - f.pos) cap) := by
  have hmin : min (min (f.data.length - f.pos) cap) cap = min (f.data.length - f.pos) cap := by
    rw [min_assoc, min_self]
  have htake : slice f.data f.pos (min (f.data.length - f.pos) cap) = (f.data.drop f.pos).take cap := by
    unfold slice
    rw [← List.length_drop, List.take_eq_take_iff]
    omega
  unfold OpenFile.read
  rw [← htake, ← hmin]
  simp

/-- Reads of an open handle give what is left of its bytes. -/
theorem readToEnd_eq {cap : ℕ} (hcap : 0 < cap) : ∀ (k : ℕ) (fs : Files) (id : ℕ) (f : OpenFile),
    fs.openFiles[id]? = some f → f.closed = false → f.data.length - f.pos < k →
      readToEnd fs id cap k = f.data.drop f.pos := by
  intro k
  induction k with
  | zero => exact fun _ _ _ _ _ hk => absurd hk (Nat.not_lt_zero _)
  | succ k ih =>
    intro fs id f hf hopen hk
    have hread : ioRead fs id 0 0 cap = ({ fs with
        openFiles := fs.openFiles.set id { f with pos := (f.read 0 0 cap).2 } }, (f.read 0 0 cap).1) := by
      unfold ioRead
      rw [hf]
      simp [hopen]
    unfold readToEnd
    rw [hread, read_all]
    by_cases h0 : min (f.data.length - f.pos) cap = 0
    · rw [if_pos h0]
      have hend : f.data.length ≤ f.pos := by omega
      exact (List.drop_eq_nil_of_le hend).symm
    · rw [if_neg h0]
      have hlt : id < fs.openFiles.length := (List.getElem?_eq_some_iff.mp hf).1
      set f' : OpenFile := { f with pos := f.pos + min (f.data.length - f.pos) cap }
      have hrest := ih { fs with openFiles := fs.openFiles.set id f' } id f'
        (List.getElem?_set_self hlt) hopen (by show f.data.length - (f.pos + _) < k; omega)
      show (f.data.drop f.pos).take cap ++ readToEnd _ id cap k = _
      rw [hrest]
      show _ ++ f.data.drop (f.pos + min (f.data.length - f.pos) cap) = _
      have hdrop : f.data.drop (f.pos + min (f.data.length - f.pos) cap) = (f.data.drop f.pos).drop cap := by
        rw [List.drop_drop]
        rcases Nat.le_total (f.data.length - f.pos) cap with hle | hle
        · rw [min_eq_left hle, List.drop_eq_nil_of_le (by omega), List.drop_eq_nil_of_le (by omega)]
        · rw [min_eq_right hle]
      rw [hdrop, List.take_append_drop]

/-- The list is the map. -/
theorem Sim.isMap (h : Sim s) : s.IsMap := by
  constructor
  · exact h.nodup
  · intro name hnone
    rw [← h.content] at hnone
    unfold ioOpen
    rw [readsOnly_text, hnone]
    rfl
  · intro name data hdata hlt
    rw [← h.content] at hdata
    have hsome : (ioOpen s.fs name Mode.r.text).2.isSome := by
      have hfull : s.fs.openFiles.length % 256 ≠ 255 := by omega
      unfold ioOpen
      simp [readsOnly_text, hdata, hfull]
    obtain ⟨-, hid, hfs⟩ := ioOpen_succeeds hsome h.length
    refine ⟨_, hid, ?_⟩
    intro cap k hcap hk
    rw [hfs, hdata]
    have hnew : (s.fs.openFiles ++ [⟨name, data, 0, false, false⟩])[s.fs.openFiles.length]? =
        some (⟨name, data, 0, false, false⟩ : OpenFile) := by simp
    exact readToEnd_eq hcap k ⟨_, _⟩ _ _ hnew rfl hk

/-! ### Runs of calls -/

/-- One call that is bound does on the list what it does on the map. -/
theorem Sim.step (h : Sim s) {c : FileCall} (hs : s.Succeeds c) (hb : s.Bound c) :
    s.Agrees c ∧ Sim (s.step c) := by
  cases c with
  | fetch saveAs data => exact ⟨trivial, h.fetch data hb⟩
  | openFile name mode =>
    obtain ⟨-, hid, -⟩ := ioOpen_succeeds hs h.length
    refine ⟨?_, h.openFile hs ?_⟩
    · exact hid.trans (congrArg (fun l => some l.length) h.handles)
    · rintro rfl
      exact hb
  | read id fmt n cap => exact h.read id fmt n cap
  | write id data => exact ⟨trivial, h.write id data⟩
  | close id => exact h.close hb
  | remove name => exact ⟨trivial, h.remove name⟩
  | rename old new => exact ⟨trivial, h.rename old new⟩

theorem Sim.run {calls : List FileCall} : ∀ {s : Session}, Sim s → AllBound s calls → AllAgree s calls := by
  induction calls with
  | nil => exact fun h _ => h.isMap
  | cons c cs ih =>
    intro s h hb
    obtain ⟨hs, hb, hrest⟩ := hb
    obtain ⟨hagrees, hnext⟩ := h.step hs hb
    exact ⟨h.isMap, hagrees, ih hnext hrest⟩

/-- **Files are a map** from names to contents, in every run that fetches under
new names, finds no bytes in mode `r+` and closes again only what is stored. -/
theorem files_are_a_map (embedded : List (List UInt8 × List UInt8)) (calls : List FileCall)
    (h : AllBound (.start embedded) calls) : AllAgree (.start embedded) calls :=
  (start_sim embedded).run h

/-- A file that is fetched, appended to, closed, renamed and read back. -/
def appended : List FileCall :=
  [.fetch [0x61] [1, 2], .openFile [0x61] .a, .write 0 [3], .close 0, .rename [0x61] [0x62],
    .openFile [0x62] .r, .read 1 0 0 512, .close 1, .remove [0x62]]

theorem appended_agrees : AllAgree (.start []) appended := by
  apply files_are_a_map
  refine ⟨trivial, rfl, rfl, trivial, trivial, trivial, trivial, ?_, trivial, trivial, rfl, trivial,
    trivial, trivial, trivial, ?_, trivial, trivial, trivial⟩
  · intro f hf hc
    cases hf
    cases hc
  · intro f hf hc
    cases hf
    cases hc

/-- A name fetched again keeps its old contents, mode `r+` drops what the file
held, and closing a closed handle stores its bytes over what came after. -/
theorem files_not_a_map :
    ¬ AllAgree (.start []) [.fetch [0x61] [1], .fetch [0x61] [2]] ∧
      ¬ AllAgree (.start []) [.fetch [0x61] [1], .openFile [0x61] .rPlus, .close 0] ∧
      ¬ AllAgree (.start []) [.openFile [0x61] .w, .close 0, .remove [0x61], .close 0] := by
  refine ⟨?_, ?_, ?_⟩
  · intro h
    exact absurd h.2.2.2.2.nodup (by decide)
  · intro h
    obtain ⟨id, hid, hread⟩ := h.2.2.2.2.2.2.present [0x61] [1] rfl (by decide)
    have h1 : some 1 = some id := hid
    cases h1
    have := hread 1 2 (by decide) (by decide)
    revert this
    decide
  · intro h
    have hclose := h.2.2.2.2.2.2.2.1 _ rfl rfl
    revert hclose
    decide

end Rustrapper.Native

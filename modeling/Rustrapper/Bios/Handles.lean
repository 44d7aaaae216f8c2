/-
# Handles against the library

The calls of a script run on the slots and on the library side by side. `Sim`
relates the two between any two calls; `Bound` is what a call has to satisfy for
the slots to do what the library does.
-/
import Rustrapper.Bios.Files

namespace Rustrapper.Bios

open Store.Memory

/-! ### Runs -/

/-- The calls of a script; `h` is the number of the `io_open` that returned the handle. -/
inductive FileCall
  | fetch (name saveAs content : List UInt8)
  | openFile (name mode : List UInt8)
  | read (h fmt n cap : ℕ)
  | close (h : ℕ)
  | remove (name : List UInt8)
  | rename (old new : List UInt8)

/-- The slots and the library, the slot of every handle and how often it had been
filled when the handle was opened, how often each slot has been filled, and
which event named it. -/
structure Session where
  fs : Files
  library : Library
  opened : List (ℕ × ℕ)
  filled : ℕ → ℕ
  tag : ℕ → ℕ

/-- One call, on the slots and on the library. A call that fails changes neither. -/
def Session.step (buffer : ℕ) (s : Session) : FileCall → Session
  | .fetch name saveAs content =>
    match fetchFile buffer s.fs name saveAs content with
    | none => s
    | some (fs, i) =>
      { s with
        fs := fs
        library := s.library.give saveAs content
        filled := Function.update s.filled i (s.filled i + 1)
        tag := Function.update s.tag i s.library.named.length }
  | .openFile name mode =>
    match ioOpen s.fs name mode with
    | none => s
    | some (fs, i) =>
      { s with fs := fs, library := s.library.open' name, opened := s.opened ++ [(i, s.filled i)] }
  | .read h fmt n cap =>
    match s.opened[h]? with
    | none => s
    | some o => { s with fs := (ioRead s.fs o.1 fmt n cap).1, library := (s.library.read h fmt n cap).1 }
  | .close h =>
    match s.opened[h]? with
    | none => s
    | some o => { s with fs := (ioClose s.fs o.1).1, library := (s.library.close h).1 }
  | .remove name => { s with fs := (osRemove s.fs name).1 }
  | .rename old new =>
    match osRename s.fs old new with
    | none => s
    | some (fs, i) =>
      { s with
        fs := fs
        library := s.library.give new (s.library.content old)
        tag := Function.update s.tag i s.library.named.length }

/-- The slots answer the call as the library does: a file opened has the content
of what was given its name last, and a handle reads and closes like one of its own. -/
def Session.Agrees (s : Session) : FileCall → Prop
  | .openFile name mode => ∀ fs i, ioOpen s.fs name mode = some (fs, i) →
      ∃ e, s.library.latest name = some e ∧ fs.contents i = e.content
  | .read h fmt n cap => ∀ o, s.opened[h]? = some o →
      (ioRead s.fs o.1 fmt n cap).2 = (s.library.read h fmt n cap).2
  | .close h => ∀ o, s.opened[h]? = some o → (ioClose s.fs o.1).2 = (s.library.close h).2
  | _ => True

/-- A lookup of the name finds the slot that was given it last. -/
def Session.FindsLatest (s : Session) (name : List UInt8) : Prop :=
  ∀ i, findFetchedSlot s.fs name = some i → (s.library.latest name).map Naming.num = some (s.tag i)

/-- No later handle has the slot `i`. -/
def Session.Last (s : Session) (h i : ℕ) : Prop :=
  ∀ h' o, h < h' → s.opened[h']? = some o → o.1 ≠ i

/-- The call looks up a name that one slot was given last, or uses a handle that
is the last one of its slot, and reads only while the slot holds the same file. -/
def Session.Bound (s : Session) : FileCall → Prop
  | .openFile name _ => s.FindsLatest name
  | .rename old _ => s.FindsLatest old
  | .read h _ _ _ => ∀ o, s.opened[h]? = some o →
      s.Last h o.1 ∧ (s.fs.isOpen o.1 = true → s.filled o.1 = o.2)
  | .close h => ∀ o, s.opened[h]? = some o → s.Last h o.1
  | _ => True

/-- Every call of the run is bound. -/
def AllBound (buffer : ℕ) : Session → List FileCall → Prop
  | _, [] => True
  | s, c :: cs => s.Bound c ∧ AllBound buffer (s.step buffer c) cs

/-- Every call of the run is answered as the library does. -/
def AllAgree (buffer : ℕ) : Session → List FileCall → Prop
  | _, [] => True
  | s, c :: cs => s.Agrees c ∧ AllAgree buffer (s.step buffer c) cs

/-- Before the first call. -/
def Session.start (mem : Mem) : Session := ⟨.empty mem, ⟨[], []⟩, [], fun _ => 0, fun _ => 0⟩

/-! ### The relation -/

/-- The handle `H` of the library and the handle on slot `i`, opened after
`stamp` fillings, are the same. -/
structure Session.Same (s : Session) (H : Handle) (i stamp : ℕ) : Prop where
  isOpen : H.isOpen = s.fs.isOpen i
  notClosed : s.fs.isOpen i = true → s.fs.isClosed i = false
  pos : s.fs.isOpen i = true → H.pos = s.fs.pos i
  content : s.filled i = stamp → H.content = s.fs.contents i

structure Sim (buffer : ℕ) (s : Session) : Prop where
  placed : ∀ i, (s.fs.file i).len ≤ perFileCap ∧
    ((s.fs.file i).len = 0 ∨ (s.fs.file i).base = buffer + i * perFileCap)
  named : ∀ i, (s.fs.file i).used = true →
    ∃ e ∈ s.library.named, e.num = s.tag i ∧ e.content = s.fs.contents i
  below : ∀ e ∈ s.library.named, e.num < s.library.named.length
  apart : (s.library.named.map Naming.num).Nodup
  length : s.opened.length = s.library.handles.length
  slots : ∀ o ∈ s.opened, o.1 < maxFetchFiles ∧ o.2 ≤ s.filled o.1
  handles : ∀ h o H, s.opened[h]? = some o → s.library.handles[h]? = some H → s.Last h o.1 →
    s.Same H o.1 o.2

variable {buffer : ℕ} {s : Session}

theorem start_sim (buffer : ℕ) (mem : Mem) : Sim buffer (.start mem) := by
  constructor <;> simp [Session.start, Files.empty]

theorem findFetchedSlot_some {fs : Files} {name : List UInt8} {i : ℕ}
    (h : findFetchedSlot fs name = some i) : i < maxFetchFiles ∧ (fs.file i).used = true := by
  have hp := List.find?_some h
  have hm := List.mem_of_find?_eq_some h
  rw [List.mem_range] at hm
  simp only [Bool.and_eq_true] at hp
  exact ⟨hm, hp.1⟩

/-- Events are told apart by their numbers. -/
theorem Sim.naming_inj (h : Sim buffer s) {e e' : Naming} (he : e ∈ s.library.named)
    (he' : e' ∈ s.library.named) (hn : e.num = e'.num) : e = e' :=
  List.inj_on_of_nodup_map h.apart he he' hn

/-- A lookup that finds the file named last finds its content. -/
theorem Sim.lookup (h : Sim buffer s) {name : List UInt8} (hb : s.FindsLatest name) {i : ℕ}
    (hf : findFetchedSlot s.fs name = some i) :
    ∃ e, s.library.latest name = some e ∧ s.fs.contents i = e.content := by
  obtain ⟨-, hused⟩ := findFetchedSlot_some hf
  obtain ⟨e', he', hn', hc'⟩ := h.named i hused
  have hl := hb i hf
  cases hc : s.library.latest name with
  | none =>
    rw [hc] at hl
    cases hl
  | some e =>
    rw [hc] at hl
    have hmem : e ∈ s.library.named := List.mem_of_find?_eq_some hc
    have hnum : e.num = s.tag i := by simpa using hl
    have := h.naming_inj hmem he' (hnum.trans hn'.symm)
    subst this
    exact ⟨e, rfl, hc'.symm⟩

theorem Sim.content_eq (h : Sim buffer s) {name : List UInt8} (hb : s.FindsLatest name) {i : ℕ}
    (hf : findFetchedSlot s.fs name = some i) : s.library.content name = s.fs.contents i := by
  obtain ⟨e, he, hc⟩ := h.lookup hb hf
  unfold Library.content
  rw [he, hc]
  rfl

/-- A name given is a new event. -/
theorem Sim.give (h : Sim buffer s) (name content : List UInt8) :
    (∀ e ∈ (s.library.give name content).named, e.num < (s.library.give name content).named.length) ∧
      ((s.library.give name content).named.map Naming.num).Nodup := by
  constructor
  · intro e he
    rcases List.mem_cons.mp he with rfl | he
    · exact Nat.lt_succ_self _
    · exact (h.below e he).trans (Nat.lt_succ_self _)
  · refine List.nodup_cons.mpr ⟨?_, h.apart⟩
    intro hmem
    obtain ⟨e, he, hn⟩ := List.mem_map.mp hmem
    exact absurd hn (h.below e he).ne

/-! ### Every call keeps it -/

theorem fetchFile_some {fs fs' : Files} {name saveAs content : List UInt8} {i : ℕ}
    (h : fetchFile buffer fs name saveAs content = some (fs', i)) :
    freeSlot fs = some i ∧ content.length ≤ perFileCap ∧
      fs' = { fs with
        file := Function.update fs.file i
          ⟨padded saveAs, buffer + i * perFileCap, content.length, true⟩
        mem := poke fs.mem (buffer + i * perFileCap) content } := by
  unfold fetchFile at h
  by_cases hn : (!fetchable name saveAs) = true
  · rw [if_pos hn] at h
    cases h
  rw [if_neg hn] at h
  cases hs : freeSlot fs with
  | none =>
    rw [hs] at h
    cases h
  | some j =>
    rw [hs] at h
    dsimp only at h
    by_cases hc : perFileCap < content.length
    · rw [if_pos hc] at h
      cases h
    · rw [if_neg hc] at h
      cases h
      exact ⟨rfl, not_lt.mp hc, rfl⟩

theorem ioOpen_some {fs fs' : Files} {name mode : List UInt8} {i : ℕ}
    (h : ioOpen fs name mode = some (fs', i)) :
    findFetchedSlot fs name = some i ∧ fs' = { fs with
      pos := Function.update fs.pos i 0
      isClosed := Function.update fs.isClosed i false
      isOpen := Function.update fs.isOpen i true } := by
  unfold ioOpen at h
  by_cases hm : (!mode.contains 0x72) = true
  · rw [if_pos hm] at h
    cases h
  rw [if_neg hm] at h
  cases hs : findFetchedSlot fs name with
  | none =>
    rw [hs] at h
    cases h
  | some j =>
    rw [hs] at h
    cases h
    exact ⟨rfl, rfl⟩

theorem osRename_some {fs fs' : Files} {old new : List UInt8} {i : ℕ}
    (h : osRename fs old new = some (fs', i)) :
    findFetchedSlot fs old = some i ∧
      fs' = { fs with file := Function.update fs.file i { fs.file i with name := padded new } } := by
  unfold osRename at h
  cases hs : findFetchedSlot fs old with
  | none =>
    rw [hs] at h
    cases h
  | some j =>
    rw [hs] at h
    dsimp only at h
    by_cases hc : 64 ≤ new.length
    · rw [if_pos hc] at h
      cases h
    · rw [if_neg hc] at h
      cases h
      exact ⟨rfl, rfl⟩

/-- The windows of two slots do not overlap. -/
theorem slot_lt {i j cap : ℕ} (h : j < i) : j * cap + cap ≤ i * cap := by
  have := Nat.mul_le_mul_right cap (Nat.succ_le_of_lt h)
  rwa [Nat.succ_mul] at this

/-- Filling slot `i` leaves what the others hold. -/
theorem Sim.contents_fetch (h : Sim buffer s) {i j : ℕ} (hj : j ≠ i) {content : List UInt8}
    (hc : content.length ≤ perFileCap) :
    peek (poke s.fs.mem (buffer + i * perFileCap) content) (s.fs.file j).base (s.fs.file j).len =
      s.fs.contents j := by
  obtain ⟨hlen, hbase⟩ := h.placed j
  unfold Files.contents
  rcases hbase with h0 | hbase
  · rw [h0, peek_zero, peek_zero]
  · apply peek_poke_apart
    rw [hbase]
    rcases Nat.lt_or_gt_of_ne hj with hlt | hlt
    · left
      have := @slot_lt _ _ perFileCap hlt
      omega
    · right
      have := @slot_lt _ _ perFileCap hlt
      omega

theorem Sim.fetch (h : Sim buffer s) {name saveAs content : List UInt8} {fs : Files} {i : ℕ}
    (hf : fetchFile buffer s.fs name saveAs content = some (fs, i)) :
    Sim buffer { s with
      fs := fs
      library := s.library.give saveAs content
      filled := Function.update s.filled i (s.filled i + 1)
      tag := Function.update s.tag i s.library.named.length } := by
  obtain ⟨-, hcap, rfl⟩ := fetchFile_some hf
  obtain ⟨hbelow, hapart⟩ := h.give saveAs content
  have hother : ∀ {j}, j ≠ i → ∀ fs' : Files, fs' = { s.fs with
      file := Function.update s.fs.file i ⟨padded saveAs, buffer + i * perFileCap, content.length, true⟩
      mem := poke s.fs.mem (buffer + i * perFileCap) content } → fs'.contents j = s.fs.contents j := by
    rintro j hj fs' rfl
    show peek _ (Function.update s.fs.file i _ j).base (Function.update s.fs.file i _ j).len = _
    rw [Function.update_of_ne hj]
    exact h.contents_fetch hj hcap
  constructor
  · intro j
    show (Function.update s.fs.file i _ j).len ≤ perFileCap ∧
      ((Function.update s.fs.file i _ j).len = 0 ∨ (Function.update s.fs.file i _ j).base = _)
    by_cases hj : j = i
    · subst hj
      rw [Function.update_self]
      exact ⟨hcap, .inr rfl⟩
    · rw [Function.update_of_ne hj]
      exact h.placed j
  · intro j hused
    by_cases hj : j = i
    · subst hj
      refine ⟨_, List.mem_cons_self, ?_, ?_⟩
      · show s.library.named.length = Function.update s.tag j s.library.named.length j
        rw [Function.update_self]
      · show content = peek (poke s.fs.mem (buffer + j * perFileCap) content)
          (Function.update s.fs.file j _ j).base (Function.update s.fs.file j _ j).len
        rw [Function.update_self]
        exact (peek_poke _ _ _).symm
    · have hused' : (s.fs.file j).used = true := by
        have : (Function.update s.fs.file i _ j).used = true := hused
        rwa [Function.update_of_ne hj] at this
      obtain ⟨e, he, hn, hc⟩ := h.named j hused'
      refine ⟨e, List.mem_cons_of_mem _ he, ?_, hc.trans (hother hj _ rfl).symm⟩
      show e.num = Function.update s.tag i s.library.named.length j
      rw [Function.update_of_ne hj, hn]
  · exact hbelow
  · exact hapart
  · exact h.length
  · intro o ho
    obtain ⟨h1, h2⟩ := h.slots o ho
    refine ⟨h1, h2.trans ?_⟩
    show s.filled o.1 ≤ Function.update s.filled i (s.filled i + 1) o.1
    by_cases hj : o.1 = i
    · rw [hj, Function.update_self]
      exact Nat.le_succ _
    · rw [Function.update_of_ne hj]
  · intro k o H ho hH hlast
    obtain ⟨h1, h2, h3, h4⟩ := h.handles k o H ho hH hlast
    refine ⟨h1, h2, h3, fun hstamp => ?_⟩
    have hle := (h.slots o (List.mem_of_getElem? ho)).2
    have hstamp : Function.update s.filled i (s.filled i + 1) o.1 = o.2 := hstamp
    by_cases hj : o.1 = i
    · rw [hj, Function.update_self] at hstamp
      rw [hj] at hle
      omega
    · rw [Function.update_of_ne hj] at hstamp
      exact (h4 hstamp).trans (hother hj _ rfl).symm

/-- Appending a handle on slot `i`: the earlier ones on it are no longer the last. -/
theorem last_append {opened : List (ℕ × ℕ)} {s' : Session} (hs : s'.opened = s.opened ++ opened) {h i : ℕ}
    (hl : s'.Last h i) : s.Last h i := by
  intro h' o hlt ho
  refine hl h' o hlt ?_
  rw [hs, List.getElem?_append_left (List.getElem?_eq_some_iff.mp ho).1]
  exact ho

theorem Sim.openFile (h : Sim buffer s) {name mode : List UInt8} {fs : Files} {i : ℕ}
    (hf : ioOpen s.fs name mode = some (fs, i)) (hb : s.FindsLatest name) :
    Sim buffer { s with
      fs := fs, library := s.library.open' name, opened := s.opened ++ [(i, s.filled i)] } := by
  obtain ⟨hfind, rfl⟩ := ioOpen_some hf
  obtain ⟨hi, -⟩ := findFetchedSlot_some hfind
  have hcontent := h.content_eq hb hfind
  refine ⟨h.placed, h.named, h.below, h.apart, ?_, ?_, ?_⟩
  · show (s.opened ++ [(i, s.filled i)]).length = (s.library.handles ++ [_]).length
    rw [List.length_append, List.length_append, h.length]
    rfl
  · intro o ho
    rcases List.mem_append.mp ho with ho | ho
    · exact h.slots o ho
    · rw [List.mem_singleton.mp ho]
      exact ⟨hi, le_rfl⟩
  · intro k o H ho hH hlast
    have ho : (s.opened ++ [(i, s.filled i)])[k]? = some o := ho
    have hH : (s.library.handles ++ [⟨s.library.content name, 0, true⟩])[k]? = some H := hH
    rcases Nat.lt_or_ge k s.opened.length with hk | hk
    · have hoi : o.1 ≠ i := by
        intro he
        refine hlast s.opened.length (i, s.filled i) hk ?_ he.symm
        show (s.opened ++ [(i, s.filled i)])[s.opened.length]? = _
        simp
      rw [List.getElem?_append_left hk] at ho
      rw [List.getElem?_append_left (by rw [← h.length]; exact hk)] at hH
      obtain ⟨h1, h2, h3, h4⟩ := h.handles k o H ho hH (last_append rfl hlast)
      constructor
      · show H.isOpen = Function.update s.fs.isOpen i true o.1
        rw [Function.update_of_ne hoi, h1]
      · show Function.update s.fs.isOpen i true o.1 = true → Function.update s.fs.isClosed i false o.1 = false
        rw [Function.update_of_ne hoi, Function.update_of_ne hoi]
        exact h2
      · show Function.update s.fs.isOpen i true o.1 = true → H.pos = Function.update s.fs.pos i 0 o.1
        rw [Function.update_of_ne hoi, Function.update_of_ne hoi]
        exact h3
      · exact h4
    · have hk' : k = s.opened.length := by
        have := (List.getElem?_eq_some_iff.mp ho).1
        simp at this
        omega
      subst hk'
      rw [h.length] at hH
      simp only [List.getElem?_append_right le_rfl, Nat.sub_self, List.getElem?_cons_zero,
        Option.some.injEq] at ho hH
      subst ho hH
      constructor
      · show true = Function.update s.fs.isOpen i true i
        rw [Function.update_self]
      · intro _
        show Function.update s.fs.isClosed i false i = false
        rw [Function.update_self]
      · intro _
        show 0 = Function.update s.fs.pos i 0 i
        rw [Function.update_self]
      · intro _
        exact hcontent

/-- A step that changes the handle `k`, the last one of slot `i`, and the arrays
of slot `i` only. -/
theorem Sim.atHandle (h : Sim buffer s) {k : ℕ} {o : ℕ × ℕ} {H' : Handle} {fs : Files}
    (ho : s.opened[k]? = some o) (hlast : s.Last k o.1) (hfile : fs.file = s.fs.file)
    (hmem : fs.mem = s.fs.mem)
    (hother : ∀ j, j ≠ o.1 → fs.isOpen j = s.fs.isOpen j ∧ fs.isClosed j = s.fs.isClosed j ∧
      fs.pos j = s.fs.pos j)
    (hsame : Session.Same { s with fs := fs } H' o.1 o.2) :
    Sim buffer { s with fs := fs, library := { s.library with handles := s.library.handles.set k H' } } := by
  have hcont : ∀ j, fs.contents j = s.fs.contents j := by
    intro j
    unfold Files.contents
    rw [hfile, hmem]
  constructor
  · show ∀ i, (fs.file i).len ≤ perFileCap ∧ ((fs.file i).len = 0 ∨ (fs.file i).base = buffer + i * perFileCap)
    rw [hfile]
    exact h.placed
  · intro j hused
    have hused : (fs.file j).used = true := hused
    rw [hfile] at hused
    obtain ⟨e, he, hn, hc⟩ := h.named j hused
    exact ⟨e, he, hn, hc.trans (hcont j).symm⟩
  · exact h.below
  · exact h.apart
  · show s.opened.length = (s.library.handles.set k H').length
    rw [List.length_set]
    exact h.length
  · exact h.slots
  · intro k' o' H ho' hH hlast'
    have ho' : s.opened[k']? = some o' := ho'
    have hlast' : s.Last k' o'.1 := hlast'
    have hH : (s.library.handles.set k H')[k']? = some H := hH
    by_cases hk : k' = k
    · subst hk
      rw [ho] at ho'
      cases ho'
      have hlt := (List.getElem?_eq_some_iff.mp ho).1
      rw [h.length] at hlt
      rw [List.getElem?_set_self hlt] at hH
      cases hH
      exact ⟨hsame.isOpen, hsame.notClosed, hsame.pos, hsame.content⟩
    · rw [List.getElem?_set_ne (Ne.symm hk)] at hH
      -- two last handles of one slot are the same handle
      have hne : o'.1 ≠ o.1 := by
        rcases Nat.lt_or_gt_of_ne hk with hlt | hlt
        · exact fun he => hlast' k o hlt ho he.symm
        · exact hlast k' o' hlt ho'
      obtain ⟨h1, h2, h3, h4⟩ := h.handles k' o' H ho' hH hlast'
      obtain ⟨e1, e2, e3⟩ := hother o'.1 hne
      constructor
      · show H.isOpen = fs.isOpen o'.1
        rw [e1, h1]
      · show fs.isOpen o'.1 = true → fs.isClosed o'.1 = false
        rw [e1, e2]
        exact h2
      · show fs.isOpen o'.1 = true → H.pos = fs.pos o'.1
        rw [e1, e3]
        exact h3
      · intro hstamp
        show H.content = fs.contents o'.1
        rw [hcont]
        exact h4 hstamp

/-- The library's side of a handle. -/
theorem Sim.handle (h : Sim buffer s) {k : ℕ} {o : ℕ × ℕ} (ho : s.opened[k]? = some o) :
    ∃ H, s.library.handles[k]? = some H := by
  have hlt := (List.getElem?_eq_some_iff.mp ho).1
  rw [h.length] at hlt
  exact ⟨_, List.getElem?_eq_getElem hlt⟩

theorem Sim.read (h : Sim buffer s) {k fmt n cap : ℕ} {o : ℕ × ℕ} (ho : s.opened[k]? = some o)
    (hlast : s.Last k o.1) (hfill : s.fs.isOpen o.1 = true → s.filled o.1 = o.2) :
    (ioRead s.fs o.1 fmt n cap).2 = (s.library.read k fmt n cap).2 ∧
      Sim buffer { s with
        fs := (ioRead s.fs o.1 fmt n cap).1, library := (s.library.read k fmt n cap).1 } := by
  obtain ⟨H, hH⟩ := h.handle ho
  obtain ⟨h1, h2, h3, h4⟩ := h.handles k o H ho hH hlast
  have hslot := (h.slots o (List.mem_of_getElem? ho)).1
  unfold ioRead Library.read
  rw [if_neg (not_le.mpr hslot)]
  simp only [hH]
  cases hopen : s.fs.isOpen o.1 with
  | false =>
    rw [h1, hopen]
    exact ⟨rfl, h⟩
  | true =>
    rw [h1, hopen, h2 hopen]
    have hc := h4 (hfill hopen)
    have hp := h3 hopen
    simp only [Bool.not_true, Bool.or_self, Bool.false_eq_true, if_false]
    refine ⟨by rw [hc, hp], ?_⟩
    refine h.atHandle ho hlast rfl rfl ?_ ?_
    · intro j hj
      exact ⟨rfl, rfl, Function.update_of_ne hj _ _⟩
    · constructor
      · exact hopen.symm
      · exact fun _ => h2 hopen
      · intro _
        show (readData H.content H.pos fmt n cap).2 = Function.update s.fs.pos o.1 _ o.1
        rw [Function.update_self, hc, hp]
      · exact fun _ => hc

theorem Sim.close (h : Sim buffer s) {k : ℕ} {o : ℕ × ℕ} (ho : s.opened[k]? = some o)
    (hlast : s.Last k o.1) :
    (ioClose s.fs o.1).2 = (s.library.close k).2 ∧
      Sim buffer { s with fs := (ioClose s.fs o.1).1, library := (s.library.close k).1 } := by
  obtain ⟨H, hH⟩ := h.handle ho
  obtain ⟨h1, h2, h3, h4⟩ := h.handles k o H ho hH hlast
  have hslot := (h.slots o (List.mem_of_getElem? ho)).1
  unfold ioClose Library.close
  rw [if_neg (not_le.mpr hslot)]
  simp only [hH]
  cases hopen : s.fs.isOpen o.1 with
  | false =>
    refine ⟨h1.trans hopen |>.symm, ?_⟩
    refine h.atHandle ho hlast rfl rfl (fun _ _ => ⟨rfl, rfl, rfl⟩) ?_
    exact ⟨hopen.symm, h2, fun hc => absurd (hopen.symm.trans hc) Bool.false_ne_true, h4⟩
  | true =>
    refine ⟨(h1.trans hopen).symm, ?_⟩
    refine h.atHandle ho hlast rfl rfl ?_ ?_
    · intro j hj
      exact ⟨Function.update_of_ne hj _ _, Function.update_of_ne hj _ _, rfl⟩
    · have hclosed : Function.update s.fs.isOpen o.1 false o.1 = false := Function.update_self _ _ _
      constructor
      · exact hclosed.symm
      · exact fun hc => absurd (hclosed.symm.trans hc) Bool.false_ne_true
      · exact fun hc => absurd (hclosed.symm.trans hc) Bool.false_ne_true
      · exact h4

/-- A step that changes the name of slot `i`, or frees it. -/
theorem Sim.refile (h : Sim buffer s) {i : ℕ} {f : FetchFile} (hlen : f.len = (s.fs.file i).len)
    (hbase : f.base = (s.fs.file i).base) {named : List Naming} {tag : ℕ → ℕ}
    (hnamed : ∀ j, (Function.update s.fs.file i f j).used = true →
      ∃ e ∈ named, e.num = tag j ∧ e.content = s.fs.contents j)
    (hbelow : ∀ e ∈ named, e.num < named.length) (hapart : (named.map Naming.num).Nodup) :
    Sim buffer { s with
      fs := { s.fs with file := Function.update s.fs.file i f }
      library := { s.library with named := named }
      tag := tag } := by
  have hsame : ∀ j, (Function.update s.fs.file i f j).len = (s.fs.file j).len ∧
      (Function.update s.fs.file i f j).base = (s.fs.file j).base := by
    intro j
    by_cases hj : j = i
    · rw [hj, Function.update_self]
      exact ⟨hlen, hbase⟩
    · rw [Function.update_of_ne hj]
      exact ⟨rfl, rfl⟩
  have hcont : ∀ j, peek s.fs.mem (Function.update s.fs.file i f j).base
      (Function.update s.fs.file i f j).len = s.fs.contents j := by
    intro j
    rw [(hsame j).1, (hsame j).2]
    rfl
  constructor
  · intro j
    show (Function.update s.fs.file i f j).len ≤ _ ∧ ((Function.update s.fs.file i f j).len = 0 ∨
      (Function.update s.fs.file i f j).base = _)
    rw [(hsame j).1, (hsame j).2]
    exact h.placed j
  · intro j hused
    obtain ⟨e, he, hn, hc⟩ := hnamed j hused
    exact ⟨e, he, hn, hc.trans (hcont j).symm⟩
  · exact hbelow
  · exact hapart
  · exact h.length
  · exact h.slots
  · intro k o H ho hH hlast
    obtain ⟨h1, h2, h3, h4⟩ := h.handles k o H ho hH hlast
    exact ⟨h1, h2, h3, fun hstamp => (h4 hstamp).trans (hcont o.1).symm⟩

theorem Sim.remove (h : Sim buffer s) (name : List UInt8) :
    Sim buffer { s with fs := (osRemove s.fs name).1 } := by
  unfold osRemove
  cases hf : findFetchedSlot s.fs name with
  | none => exact h
  | some i =>
    refine h.refile (i := i) (f := { s.fs.file i with used := false }) rfl rfl ?_ h.below h.apart
    intro j hused
    by_cases hj : j = i
    · rw [hj, Function.update_self] at hused
      cases hused
    · rw [Function.update_of_ne hj] at hused
      exact h.named j hused

theorem Sim.rename (h : Sim buffer s) {old new : List UInt8} {fs : Files} {i : ℕ}
    (hf : osRename s.fs old new = some (fs, i)) (hb : s.FindsLatest old) :
    Sim buffer { s with
      fs := fs
      library := s.library.give new (s.library.content old)
      tag := Function.update s.tag i s.library.named.length } := by
  obtain ⟨hfind, rfl⟩ := osRename_some hf
  obtain ⟨hbelow, hapart⟩ := h.give new (s.library.content old)
  refine h.refile (i := i) (f := { s.fs.file i with name := padded new }) rfl rfl ?_ hbelow hapart
  intro j hused
  by_cases hj : j = i
  · subst hj
    refine ⟨_, List.mem_cons_self, ?_, h.content_eq hb hfind⟩
    rw [Function.update_self]
  · rw [Function.update_of_ne hj] at hused ⊢
    obtain ⟨e, he, hn, hc⟩ := h.named j hused
    exact ⟨e, List.mem_cons_of_mem _ he, hn, hc⟩

/-! ### Runs of calls -/

/-- One call that is bound is answered as the library does, and keeps the relation. -/
theorem Sim.step (h : Sim buffer s) {c : FileCall} (hb : s.Bound c) :
    s.Agrees c ∧ Sim buffer (s.step buffer c) := by
  cases c with
  | fetch name saveAs content =>
    refine ⟨trivial, ?_⟩
    unfold Session.step
    dsimp only
    cases hf : fetchFile buffer s.fs name saveAs content with
    | none => exact h
    | some r => exact h.fetch hf
  | openFile name mode =>
    unfold Session.step Session.Agrees
    dsimp only
    cases hf : ioOpen s.fs name mode with
    | none => exact ⟨fun fs i hi => (by cases hi), h⟩
    | some r =>
      refine ⟨?_, h.openFile hf hb⟩
      intro fs i hi
      cases hi
      obtain ⟨hfind, rfl⟩ := ioOpen_some hf
      exact h.lookup hb hfind
  | read k fmt n cap =>
    unfold Session.step Session.Agrees
    dsimp only
    cases ho : s.opened[k]? with
    | none => exact ⟨fun o hi => (by cases hi), h⟩
    | some o =>
      obtain ⟨hlast, hfill⟩ := hb o ho
      obtain ⟨h1, h2⟩ := @Sim.read _ _ h k fmt n cap o ho hlast hfill
      refine ⟨?_, h2⟩
      intro o' ho'
      cases ho'
      exact h1
  | close k =>
    unfold Session.step Session.Agrees
    dsimp only
    cases ho : s.opened[k]? with
    | none => exact ⟨fun o hi => (by cases hi), h⟩
    | some o =>
      obtain ⟨h1, h2⟩ := h.close ho (hb o ho)
      refine ⟨?_, h2⟩
      intro o' ho'
      cases ho'
      exact h1
  | remove name => exact ⟨trivial, h.remove name⟩
  | rename old new =>
    refine ⟨trivial, ?_⟩
    unfold Session.step
    dsimp only
    cases hf : osRename s.fs old new with
    | none => exact h
    | some r => exact h.rename hf hb

theorem Sim.run : ∀ (calls : List FileCall) {s : Session}, Sim buffer s → AllBound buffer s calls →
    AllAgree buffer s calls
  | [], _, _, _ => trivial
  | _ :: cs, _, h, hb => by
    obtain ⟨h1, h2⟩ := h.step hb.1
    exact ⟨h1, h2.run cs hb.2⟩

/-- One file under the name `a`, opened and read to its end in two reads. -/
def oneReader : List FileCall :=
  [.fetch [0x61] [0x61] [1, 2, 3], .openFile [0x61] [0x72], .read 0 2 2 512, .read 0 2 2 512, .close 0]

end Rustrapper.Bios

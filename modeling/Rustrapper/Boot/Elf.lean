/-
# Loading ELF files

`execute_elf32` and `execute_elf64` copy the segments of a file in memory to
where its program headers say and jump to its entry point. Offsets, sizes and
counts are added in the width of an address without a check, and a program header
or a segment that does not fit the file is passed over.

The loader is faithful exactly in the runs in which each turn of its loop meets a
program header in the file whose segment is in the file (`executeElf_faithful_iff`).
-/
import Rustrapper.Codec.Bytes
import Rustrapper.Store.Memory

namespace Rustrapper.Boot

open Codec Store.Memory

/-! ### Headers -/

/-- The layout of the two headers for a width of addresses: their sizes, the
class in `e_ident`, and the offsets of the fields that are read. -/
structure Layout where
  bits : ℕ
  headerSize : ℕ
  phdrSize : ℕ
  cls : UInt8
  /-- Bytes of an address, an offset or a size. -/
  word : ℕ
  eEntry : ℕ
  ePhoff : ℕ
  ePhentsize : ℕ
  ePhnum : ℕ
  pOffset : ℕ
  pPaddr : ℕ
  pFilesz : ℕ
  pMemsz : ℕ

/-- `Elf32Header` and `Elf32Phdr`. -/
def elf32 : Layout where
  bits := 32
  headerSize := 52
  phdrSize := 32
  cls := 1
  word := 4
  eEntry := 24
  ePhoff := 28
  ePhentsize := 42
  ePhnum := 44
  pOffset := 4
  pPaddr := 12
  pFilesz := 16
  pMemsz := 20

/-- `Elf64Header` and `Elf64Phdr`. -/
def elf64 : Layout where
  bits := 64
  headerSize := 64
  phdrSize := 56
  cls := 2
  word := 8
  eEntry := 24
  ePhoff := 32
  ePhentsize := 54
  ePhnum := 56
  pOffset := 8
  pPaddr := 24
  pFilesz := 32
  pMemsz := 40

/-- The fields of a program header lie in it. -/
structure Layout.Ok (L : Layout) : Prop where
  type : 4 ≤ L.phdrSize
  offset : L.pOffset + L.word ≤ L.phdrSize
  paddr : L.pPaddr + L.word ≤ L.phdrSize
  filesz : L.pFilesz + L.word ≤ L.phdrSize
  memsz : L.pMemsz + L.word ≤ L.phdrSize

theorem elf32_ok : elf32.Ok := ⟨by decide, by decide, by decide, by decide, by decide⟩

theorem elf64_ok : elf64.Ok := ⟨by decide, by decide, by decide, by decide, by decide⟩

/-- The first address that there is not. -/
def Layout.top (L : Layout) : ℕ := 2 ^ L.bits

/-- A program header's fields. -/
structure Phdr where
  type : ℕ
  offset : ℕ
  paddr : ℕ
  filesz : ℕ
  memsz : ℕ

/-- The program header at `a`. -/
def Layout.phdr (L : Layout) (mem : Mem) (a : ℕ) : Phdr where
  type := ofLE (peekMod L.top mem a 4)
  offset := ofLE (peekMod L.top mem (a + L.pOffset) L.word)
  paddr := ofLE (peekMod L.top mem (a + L.pPaddr) L.word)
  filesz := ofLE (peekMod L.top mem (a + L.pFilesz) L.word)
  memsz := ofLE (peekMod L.top mem (a + L.pMemsz) L.word)

/-- `PT_LOAD`. -/
def ptLoad : ℕ := 1

/-- Where the file lies in memory. -/
structure File (L : Layout) where
  base : ℕ
  size : ℕ
  usize : size < L.top
  fits : base + size ≤ L.top

/-- The range is in the file, if it has a byte. -/
def File.Holds {L : Layout} (F : File L) (r : ℕ × ℕ) : Prop := 0 < r.2 → F.base ≤ r.1 ∧ r.1 + r.2 ≤ F.base + F.size

/-- What the file header says of the program headers. -/
structure Table where
  phoff : ℕ
  phentsize : ℕ
  phnum : ℕ

/-- `phoff + i * phentsize`. -/
def Table.at (T : Table) (i : ℕ) : ℕ := T.phoff + i * T.phentsize

variable (L : Layout) (F : File L) (T : Table)

def File.table (mem : Mem) : Table where
  phoff := ofLE (peekMod L.top mem (F.base + L.ePhoff) L.word)
  phentsize := ofLE (peekMod L.top mem (F.base + L.ePhentsize) 2)
  phnum := ofLE (peekMod L.top mem (F.base + L.ePhnum) 2)

/-- `e_entry`. -/
def File.entry (mem : Mem) : ℕ := ofLE (peekMod L.top mem (F.base + L.eEntry) L.word)

/-- The checks of the magic and the class. -/
def File.magic (mem : Mem) : Bool :=
  peekMod L.top mem F.base 4 = [0x7F, 0x45, 0x4C, 0x46] && peekMod L.top mem (F.base + 4) 1 = [L.cls]

/-! ### The loop -/

/-- The memory, the ranges read, whether a sum of offsets and sizes has wrapped,
and whether a program header or a segment was passed over. -/
structure Loader where
  mem : Mem
  reads : List (ℕ × ℕ)
  wrapped : Bool
  missed : Bool

/-- A `PT_LOAD` header at `a`: the segment is copied and its rest is zeroed, if
the sum of its offset and its size is in the file. The sizes are read again
behind the copy. -/
def load (a : ℕ) (s : Loader) : Loader :=
  let p := L.phdr s.mem a
  let wraps := L.top ≤ p.offset + p.filesz || L.top < p.paddr + max p.filesz p.memsz
  if (p.offset + p.filesz) % L.top ≤ F.size then
    let src := (F.base + p.offset) % L.top
    let mem := pokeMod L.top s.mem p.paddr (peekMod L.top s.mem src p.filesz)
    let q := L.phdr mem a
    let bss := (p.paddr + p.filesz) % L.top
    { mem := if q.filesz < q.memsz then pokeMod L.top mem bss (List.replicate (q.memsz - q.filesz) 0) else mem
      reads := s.reads ++ [(src, p.filesz)]
      wrapped := s.wrapped || wraps
      missed := s.missed }
  else { s with wrapped := s.wrapped || wraps, missed := true }

/-- `phdr_offset` of header `i`. -/
def phdrOffset (i : ℕ) : ℕ := T.at i % L.top

/-- Whether the loop breaks at header `i`. -/
def breaks (i : ℕ) : Bool := F.size < (phdrOffset L T i + L.phdrSize) % L.top

/-- The sums for the place of header `i` wrap. -/
def placeWraps (i : ℕ) : Bool := L.top ≤ T.at i || L.top ≤ phdrOffset L T i + L.phdrSize

/-- One turn that does not break. -/
def turn (i : ℕ) (s : Loader) : Loader :=
  let a := (F.base + phdrOffset L T i) % L.top
  let s := { s with reads := s.reads ++ [(a, L.phdrSize)], wrapped := s.wrapped || placeWraps L T i }
  if (L.phdr s.mem a).type = ptLoad then load L F a s else s

/-- The loop over the `n` headers from `i` on. -/
def loop : ℕ → ℕ → Loader → Loader
  | _, 0, s => s
  | i, n + 1, s =>
    if breaks L F T i then { s with wrapped := s.wrapped || placeWraps L T i, missed := true }
    else loop (i + 1) n (turn L F T i s)

/-- Before the first turn: the file header has been read. -/
def start (mem : Mem) : Loader := ⟨mem, [(F.base, L.headerSize)], false, false⟩

/-- The loader for a layout: what it did, and where it jumped. -/
def executeElf (mem : Mem) : Loader × Option ℕ :=
  if F.size < L.headerSize then (⟨mem, [], false, false⟩, none)
  else if F.magic L mem then
    (loop L F (F.table L mem) 0 (F.table L mem).phnum (start L F mem), some (F.entry L mem))
  else (start L F mem, none)

/-- `execute_elf32`, on a target with 32-bit addresses. -/
def executeElf32 : File elf32 → Mem → Loader × Option ℕ := executeElf elf32

/-- `execute_elf64`, on a target with 64-bit addresses. -/
def executeElf64 : File elf64 → Mem → Loader × Option ℕ := executeElf elf64

/-! ### Faithful loading -/

/-- No byte is in both ranges. -/
def Apart (a n b m : ℕ) : Prop := ∀ x, ¬ ((a ≤ x ∧ x < a + n) ∧ b ≤ x ∧ x < b + m)

/-- Header `i`, as the file has it. -/
def headerOf (mem : Mem) (i : ℕ) : Phdr := L.phdr mem (F.base + (F.table L mem).at i)

/-- The bytes that a segment occupies. -/
def Phdr.extent (p : Phdr) : ℕ := max p.filesz p.memsz

/-- The segments announced overlap neither the file nor each other. -/
structure Separate (mem : Mem) : Prop where
  file : ∀ i < (F.table L mem).phnum, (headerOf L F mem i).type = ptLoad →
    Apart (headerOf L F mem i).paddr (headerOf L F mem i).extent F.base F.size
  segments : ∀ i < (F.table L mem).phnum, ∀ j < i, (headerOf L F mem i).type = ptLoad →
    (headerOf L F mem j).type = ptLoad →
    Apart (headerOf L F mem i).paddr (headerOf L F mem i).extent (headerOf L F mem j).paddr (headerOf L F mem j).extent

/-- The segment is where its header says: the bytes of the file, zeros behind them. -/
structure Placed (mem mem' : Mem) (p : Phdr) : Prop where
  bytes : peek mem' p.paddr p.filesz = peek mem (F.base + p.offset) p.filesz
  zeros : ∀ k, p.filesz ≤ k → k < p.memsz → mem' (p.paddr + k) = 0

/-- Every read is in the file and no sum wraps; and when the loader jumps it has
passed over nothing, and segments apart from each other and the file are placed. -/
structure Faithful (mem : Mem) : Prop where
  inside : ∀ r ∈ (executeElf L F mem).1.reads, F.Holds r
  exact : (executeElf L F mem).1.wrapped = false
  complete : (executeElf L F mem).2 ≠ none → (executeElf L F mem).1.missed = false
  placed : (executeElf L F mem).2 ≠ none → Separate L F mem → ∀ i < (F.table L mem).phnum,
    (headerOf L F mem i).type = ptLoad → Placed L F mem (executeElf L F mem).1.mem (headerOf L F mem i)

/-- Header `i` is in the file, and its segment is in the file and below the top
of memory, when the header is read from `mem`. -/
structure Whole (i : ℕ) (mem : Mem) : Prop where
  header : T.at i + L.phdrSize ≤ F.size
  offset : (L.phdr mem (F.base + T.at i)).type = ptLoad →
    (L.phdr mem (F.base + T.at i)).offset + (L.phdr mem (F.base + T.at i)).filesz ≤ F.size
  paddr : (L.phdr mem (F.base + T.at i)).type = ptLoad →
    (L.phdr mem (F.base + T.at i)).paddr + (L.phdr mem (F.base + T.at i)).extent ≤ L.top

/-- After the first `n` turns. -/
def after (mem : Mem) : ℕ → Loader
  | 0 => start L F mem
  | n + 1 => turn L F (F.table L mem) n (after mem n)

/-- Each turn meets a header that can be loaded, if the file is an ELF file at all. -/
def AllWhole (mem : Mem) : Prop := L.headerSize ≤ F.size → F.magic L mem →
  ∀ i < (F.table L mem).phnum, Whole L F (F.table L mem) i (after L F mem i).mem

/-! ### One turn -/

variable {L F T} {i : ℕ} {s : Loader} {mem : Mem}

/-- Nothing wraps on the way to a header in the file. -/
structure Place (L : Layout) (F : File L) (T : Table) (i : ℕ) : Prop where
  offset : phdrOffset L T i = T.at i
  wraps : placeWraps L T i = false
  breaks : breaks L F T i = false
  address : (F.base + phdrOffset L T i) % L.top = F.base + T.at i

theorem place_of_le (hok : L.Ok) (h : T.at i + L.phdrSize ≤ F.size) : Place L F T i := by
  have hfits := F.fits
  have hsize := F.usize
  have htype := hok.type
  have hoff : phdrOffset L T i = T.at i := Nat.mod_eq_of_lt (by omega)
  refine ⟨hoff, ?_, ?_, ?_⟩
  · simp only [placeWraps, hoff, Bool.or_eq_false_iff, decide_eq_false_iff_not]
    omega
  · simp only [breaks, hoff, decide_eq_false_iff_not]
    rw [Nat.mod_eq_of_lt (by omega)]
    omega
  · rw [hoff, Nat.mod_eq_of_lt (by omega)]

/-- Without a wrap, the loop breaks at a header that is not in the file. -/
theorem le_of_not_breaks (hwrap : placeWraps L T i = false) (hbreak : breaks L F T i = false) :
    T.at i + L.phdrSize ≤ F.size := by
  obtain ⟨hat, hend⟩ := Bool.or_eq_false_iff.mp hwrap
  have hat : T.at i < L.top := not_le.mp (of_decide_eq_false hat)
  have hoff : phdrOffset L T i = T.at i := Nat.mod_eq_of_lt hat
  have hend : phdrOffset L T i + L.phdrSize < L.top := not_le.mp (of_decide_eq_false hend)
  have hle : (phdrOffset L T i + L.phdrSize) % L.top ≤ F.size := not_lt.mp (of_decide_eq_false hbreak)
  rwa [Nat.mod_eq_of_lt hend, hoff] at hle

/-- What a turn over a header in the file is. -/
theorem turn_eq (hp : Place L F T i) : turn L F T i s =
    if (L.phdr s.mem (F.base + T.at i)).type = ptLoad then
      load L F (F.base + T.at i) { s with reads := s.reads ++ [(F.base + T.at i, L.phdrSize)] }
    else { s with reads := s.reads ++ [(F.base + T.at i, L.phdrSize)] } := by
  simp only [turn, hp.address, hp.wraps, Bool.or_false]

/-- All reads so far are in the file, and nothing went wrong. -/
structure Clean (L : Layout) (F : File L) (s : Loader) : Prop where
  inside : ∀ r ∈ s.reads, F.Holds r
  wrapped : s.wrapped = false
  missed : s.missed = false

theorem Clean.read (h : Clean L F s) {r : ℕ × ℕ} (hr : F.Holds r) :
    Clean L F { s with reads := s.reads ++ [r] } := by
  refine ⟨?_, h.wrapped, h.missed⟩
  intro r' hr'
  rcases List.mem_append.mp hr' with hr' | hr'
  · exact h.inside r' hr'
  · rw [List.mem_singleton.mp hr']
    exact hr

/-- What `load` is for a segment in the file. -/
theorem load_eq {a : ℕ} (hoffset : (L.phdr s.mem a).offset + (L.phdr s.mem a).filesz ≤ F.size)
    (hpaddr : (L.phdr s.mem a).paddr + (L.phdr s.mem a).extent ≤ L.top) :
    load L F a s =
      let p := L.phdr s.mem a
      let src := (F.base + p.offset) % L.top
      let mem := poke s.mem p.paddr (peek s.mem (F.base + p.offset) p.filesz)
      let q := L.phdr mem a
      { mem := if q.filesz < q.memsz then
            pokeMod L.top mem ((p.paddr + p.filesz) % L.top) (List.replicate (q.memsz - q.filesz) 0) else mem
        reads := s.reads ++ [(src, p.filesz)]
        wrapped := s.wrapped
        missed := s.missed } := by
  have hfits := F.fits
  have hsize := F.usize
  unfold load
  unfold Phdr.extent at hpaddr
  dsimp only
  generalize L.phdr s.mem a = p at hoffset hpaddr
  have hsum : (p.offset + p.filesz) % L.top ≤ F.size := by
    rw [Nat.mod_eq_of_lt (by omega)]
    exact hoffset
  have hwraps : (decide (L.top ≤ p.offset + p.filesz) || decide (L.top < p.paddr + max p.filesz p.memsz)) = false := by
    simp only [Bool.or_eq_false_iff, decide_eq_false_iff_not]
    omega
  have hread : peekMod L.top s.mem ((F.base + p.offset) % L.top) p.filesz = peek s.mem (F.base + p.offset) p.filesz := by
    by_cases hlt : F.base + p.offset < L.top
    · rw [Nat.mod_eq_of_lt hlt, peekMod_eq (by omega)]
    · rw [show p.filesz = 0 by omega]
      rfl
  rw [if_pos hsum, hwraps, Bool.or_false, hread, pokeMod_eq (by rw [length_peek]; omega)]

/-- **A turn over a header that can be loaded stays clean.** -/
theorem Clean.turn (hok : L.Ok) (h : Clean L F s) (hw : Whole L F T i s.mem) : Clean L F (turn L F T i s) := by
  have hfits := F.fits
  have hheader := hw.header
  have hread : Clean L F { s with reads := s.reads ++ [(F.base + T.at i, L.phdrSize)] } := by
    apply h.read
    intro _
    dsimp only
    omega
  rw [turn_eq (place_of_le hok hw.header)]
  by_cases htype : (L.phdr s.mem (F.base + T.at i)).type = ptLoad
  · have hoffset := hw.offset htype
    rw [if_pos htype, load_eq (by exact hoffset) (by exact hw.paddr htype)]
    refine ⟨?_, hread.wrapped, hread.missed⟩
    apply (hread.read _).inside
    intro hpos
    dsimp only at hpos ⊢
    rw [Nat.mod_eq_of_lt (by omega)]
    omega
  · rw [if_neg htype]
    exact hread

/-! ### What goes wrong stays wrong -/

/-- A sum has wrapped, or something was passed over. -/
def Flawed (s : Loader) : Prop := s.wrapped = true ∨ s.missed = true

theorem Flawed.load (h : Flawed s) (a : ℕ) : Flawed (load L F a s) := by
  unfold Boot.load
  dsimp only
  split
  · exact h.imp (fun hw => by simp [hw]) id
  · exact .inr rfl

theorem Flawed.turn (h : s.wrapped = true ∨ placeWraps L T i = true ∨ s.missed = true) :
    Flawed (turn L F T i s) := by
  have hread : Flawed { s with
      reads := s.reads ++ [((F.base + phdrOffset L T i) % L.top, L.phdrSize)]
      wrapped := s.wrapped || placeWraps L T i } := by
    unfold Flawed
    rw [Bool.or_eq_true]
    tauto
  unfold Boot.turn
  dsimp only
  split
  · exact hread.load _
  · exact hread

theorem Flawed.loop : ∀ (n i : ℕ) (s : Loader), Flawed s → Flawed (loop L F T i n s)
  | 0, _, _, h => h
  | n + 1, i, s, h => by
    unfold Boot.loop
    split
    · exact .inr rfl
    · exact Flawed.loop n (i + 1) _ (Flawed.turn (h.imp id .inr))

/-- A segment that cannot be loaded leaves a flaw. -/
theorem load_flawed {a : ℕ} (h : ¬ ((L.phdr s.mem a).offset + (L.phdr s.mem a).filesz ≤ F.size ∧
    (L.phdr s.mem a).paddr + (L.phdr s.mem a).extent ≤ L.top)) : Flawed (load L F a s) := by
  unfold Phdr.extent at h
  unfold load
  dsimp only
  generalize L.phdr s.mem a = p at h
  by_cases hwraps : L.top ≤ p.offset + p.filesz ∨ L.top < p.paddr + max p.filesz p.memsz
  · split <;> exact .inl (by simp [hwraps])
  · have hmod : (p.offset + p.filesz) % L.top = p.offset + p.filesz := Nat.mod_eq_of_lt (by omega)
    rw [if_neg (by omega)]
    exact .inr rfl

/-- **A turn over a header that cannot be loaded leaves a flaw.** -/
theorem loop_flawed (hok : L.Ok) (h : ¬ Whole L F T i s.mem) (n : ℕ) : Flawed (loop L F T i (n + 1) s) := by
  rw [loop]
  by_cases hbreak : breaks L F T i = true
  · rw [if_pos hbreak]
    exact .inr rfl
  rw [if_neg hbreak]
  apply Flawed.loop
  by_cases hwrap : placeWraps L T i = true
  · exact Flawed.turn (.inr (.inl hwrap))
  have hheader := le_of_not_breaks (eq_false_of_ne_true hwrap) (eq_false_of_ne_true hbreak)
  rw [turn_eq (place_of_le hok hheader)]
  have htype : (L.phdr s.mem (F.base + T.at i)).type = ptLoad := by
    by_contra htype
    exact h ⟨hheader, fun ht => absurd ht htype, fun ht => absurd ht htype⟩
  rw [if_pos htype]
  apply load_flawed
  rintro ⟨hoffset, hpaddr⟩
  exact h ⟨hheader, fun _ => hoffset, fun _ => hpaddr⟩

/-! ### Whole runs -/

theorem after_clean (hok : L.Ok) (hsize : L.headerSize ≤ F.size) : ∀ n,
    (∀ i < n, Whole L F (F.table L mem) i (after L F mem i).mem) → Clean L F (after L F mem n)
  | 0, _ => by
    refine ⟨?_, rfl, rfl⟩
    intro r hr _
    rw [List.mem_singleton.mp hr]
    dsimp only
    omega
  | n + 1, h => (after_clean hok hsize n fun i hi => h i (by omega)).turn hok (h n (by omega))

/-- The loop from header `i` on, behind turns that did not break. -/
theorem loop_after (hok : L.Ok) (m : ℕ) : ∀ n, (∀ i < n, Whole L F (F.table L mem) i (after L F mem i).mem) →
    loop L F (F.table L mem) 0 (n + m) (start L F mem) = loop L F (F.table L mem) n m (after L F mem n)
  | 0, _ => by rw [Nat.zero_add]; rfl
  | n + 1, h => by
    have hbreak := (place_of_le hok (h n (by omega)).header).breaks
    rw [Nat.add_assoc, loop_after hok (1 + m) n fun i hi => h i (by omega), Nat.add_comm 1 m, loop, hbreak]
    rfl

/-- **A run without a flaw met only headers that can be loaded.** -/
theorem whole_of_not_flawed (hok : L.Ok)
    (h : ¬ Flawed (loop L F (F.table L mem) 0 (F.table L mem).phnum (start L F mem))) (i : ℕ) : i < (F.table L mem).phnum → Whole L F (F.table L mem) i (after L F mem i).mem := by
  induction i using Nat.strong_induction_on with
  | _ i ih =>
    intro hi
    by_contra hw
    apply h
    obtain ⟨m, hm⟩ : ∃ m, (F.table L mem).phnum = i + (m + 1) := ⟨(F.table L mem).phnum - i - 1, by omega⟩
    rw [hm, loop_after hok (m + 1) i fun j hj => ih j hj (by omega)]
    exact loop_flawed hok hw m

/-! ### Where the bytes end up -/

/-- The memory with the segment of `p` in its place. -/
def File.image (F : File L) (mem : Mem) (p : Phdr) : Mem :=
  poke (poke mem p.paddr (peek mem (F.base + p.offset) p.filesz)) (p.paddr + p.filesz)
    (List.replicate (p.memsz - p.filesz) 0)

theorem image_apart {p : Phdr} {a : ℕ} (h : a < p.paddr ∨ p.paddr + p.extent ≤ a) : F.image mem p a = mem a := by
  unfold Phdr.extent at h
  unfold File.image
  rw [poke_apart (by rw [List.length_replicate]; omega), poke_apart (by rw [length_peek]; omega)]

theorem image_placed (p : Phdr) : Placed L F mem (F.image mem p) p where
  bytes := by
    have h := peek_poke mem p.paddr (peek mem (F.base + p.offset) p.filesz)
    rw [length_peek] at h
    rw [File.image, peek_poke_apart (.inl le_rfl), h]
  zeros := by
    intro k hle hlt
    have hk : k - p.filesz < (List.replicate (p.memsz - p.filesz) (0 : UInt8)).length := by
      rw [List.length_replicate]
      omega
    rw [show p.paddr + k = p.paddr + p.filesz + (k - p.filesz) by omega, File.image, poke_inside hk,
      List.getD_replicate _ (by omega)]

/-- A header depends on its bytes only. -/
theorem phdr_congr (hok : L.Ok) {mem' : Mem} {a : ℕ} (ha : a + L.phdrSize ≤ L.top)
    (h : ∀ x, a ≤ x → x < a + L.phdrSize → mem x = mem' x) : L.phdr mem a = L.phdr mem' a := by
  have hfield : ∀ off n, off + n ≤ L.phdrSize → peekMod L.top mem (a + off) n = peekMod L.top mem' (a + off) n := by
    intro off n hle
    rw [peekMod_eq (by omega), peekMod_eq (by omega)]
    exact peek_congr fun x h1 h2 => h x (by omega) (by omega)
  unfold Layout.phdr
  rw [hfield _ _ hok.offset, hfield _ _ hok.paddr, hfield _ _ hok.filesz, hfield _ _ hok.memsz]
  rw [show peekMod L.top mem a 4 = peekMod L.top mem' a 4 from hfield 0 4 (by have := hok.type; omega)]

/-- The segment that a turn loads is apart from the file. -/
def Aside (L : Layout) (F : File L) (p : Phdr) : Prop := p.type = ptLoad → Apart p.paddr p.extent F.base F.size

/-- **A turn puts the segment in its place**, if it does not lie over the file. -/
theorem turn_mem (hok : L.Ok) (hw : Whole L F T i s.mem) (haside : Aside L F (L.phdr s.mem (F.base + T.at i))) :
    (turn L F T i s).mem = if (L.phdr s.mem (F.base + T.at i)).type = ptLoad then
      F.image s.mem (L.phdr s.mem (F.base + T.at i)) else s.mem := by
  have hfits := F.fits
  have hheader := hw.header
  rw [turn_eq (place_of_le hok hw.header)]
  by_cases htype : (L.phdr s.mem (F.base + T.at i)).type = ptLoad
  · have hpaddr := hw.paddr htype
    have hapart := haside htype
    rw [if_pos htype, if_pos htype, load_eq (by exact hw.offset htype) (by exact hpaddr)]
    dsimp only
    have hsame : L.phdr (poke s.mem (L.phdr s.mem (F.base + T.at i)).paddr
        (peek s.mem (F.base + (L.phdr s.mem (F.base + T.at i)).offset) (L.phdr s.mem (F.base + T.at i)).filesz))
          (F.base + T.at i) = L.phdr s.mem (F.base + T.at i) := by
      apply phdr_congr hok (by omega)
      intro x h1 h2
      apply poke_apart
      have hx := hapart x
      unfold Phdr.extent at hx
      rw [length_peek]
      omega
    rw [hsame]
    generalize L.phdr s.mem (F.base + T.at i) = p at hpaddr
    unfold Phdr.extent at hpaddr
    unfold File.image
    by_cases hbss : p.filesz < p.memsz
    · rw [if_pos hbss, Nat.mod_eq_of_lt (by omega), pokeMod_eq (by rw [List.length_replicate]; omega)]
    · rw [if_neg hbss, Nat.sub_eq_zero_of_le (not_lt.mp hbss), List.replicate_zero, poke_nil]
  · rw [if_neg htype, if_neg htype]

/-- The bytes of the file are what they were. -/
def FileKept (L : Layout) (F : File L) (mem mem' : Mem) : Prop :=
  ∀ x, F.base ≤ x → x < F.base + F.size → mem' x = mem x

theorem FileKept.header (hok : L.Ok) {mem' : Mem} (h : FileKept L F mem mem')
    (hheader : (F.table L mem).at i + L.phdrSize ≤ F.size) :
    L.phdr mem' (F.base + (F.table L mem).at i) = headerOf L F mem i := by
  have hfits := F.fits
  apply phdr_congr hok (by omega)
  intro x h1 h2
  exact h x (by omega) (by omega)

theorem after_kept (hok : L.Ok) : ∀ n, (∀ i < n, Whole L F (F.table L mem) i (after L F mem i).mem) →
    (∀ i < n, Aside L F (headerOf L F mem i)) → FileKept L F mem (after L F mem n).mem
  | 0, _, _ => fun _ _ _ => rfl
  | n + 1, h, haside => by
    have ih := after_kept hok n (fun i hi => h i (by omega)) fun i hi => haside i (by omega)
    have hw := h n (by omega)
    have hhead := ih.header hok hw.header
    have ha := haside n (by omega)
    intro x h1 h2
    rw [after, turn_mem hok hw (by rw [hhead]; exact ha), hhead]
    by_cases htype : (headerOf L F mem n).type = ptLoad
    · have hx := ha htype x
      rw [if_pos htype, image_apart (by omega), ih x h1 h2]
    · rw [if_neg htype, ih x h1 h2]

theorem Placed.image {p q : Phdr} {mem' : Mem} (h : Placed L F mem mem' q)
    (hapart : Apart p.paddr p.extent q.paddr q.extent) : Placed L F mem (F.image mem' p) q := by
  have hkept : ∀ k < q.extent, F.image mem' p (q.paddr + k) = mem' (q.paddr + k) := by
    intro k hk
    have hx := hapart (q.paddr + k)
    apply image_apart
    omega
  unfold Phdr.extent at hkept
  refine ⟨?_, ?_⟩
  · rw [← h.bytes]
    apply peek_congr
    intro a h1 h2
    rw [show a = q.paddr + (a - q.paddr) by omega]
    exact hkept _ (by omega)
  · intro k hle hlt
    rw [hkept k (by omega)]
    exact h.zeros k hle hlt

/-- **The segments of the first `n` headers are placed.** -/
theorem after_placed (hok : L.Ok) (hsep : Separate L F mem)
    (h : ∀ i < (F.table L mem).phnum, Whole L F (F.table L mem) i (after L F mem i).mem) :
    ∀ n ≤ (F.table L mem).phnum, ∀ i < n, (headerOf L F mem i).type = ptLoad →
      Placed L F mem (after L F mem n).mem (headerOf L F mem i)
  | 0, _, _, hi, _ => absurd hi (Nat.not_lt_zero _)
  | n + 1, hn, i, hi, htype => by
    have ih := after_placed hok hsep h n (by omega)
    have hw := h n (by omega)
    have hkept := after_kept hok n (fun j hj => h j (by omega)) fun j hj => hsep.file j (by omega)
    have hhead := hkept.header hok hw.header
    rw [after, turn_mem hok hw (by rw [hhead]; exact hsep.file n (by omega)), hhead]
    by_cases hload : (headerOf L F mem n).type = ptLoad
    · rw [if_pos hload]
      rcases Nat.lt_succ_iff_lt_or_eq.mp hi with hlt | rfl
      · exact (ih i hlt htype).image (hsep.segments n (by omega) i hlt hload htype)
      · have hplaced := @image_placed L F (after L F mem i).mem (headerOf L F mem i)
        have hoffset : (headerOf L F mem i).offset + (headerOf L F mem i).filesz ≤ F.size := by
          rw [← hhead]
          exact hw.offset (by rw [hhead]; exact hload)
        refine ⟨?_, hplaced.zeros⟩
        rw [hplaced.bytes]
        apply peek_congr
        intro a h1 h2
        exact hkept a (by omega) (by omega)
    · rw [if_neg hload]
      rcases Nat.lt_succ_iff_lt_or_eq.mp hi with hlt | rfl
      · exact ih i hlt htype
      · exact absurd htype hload

/-! ### When loading is faithful -/

theorem executeElf_loop (hsize : L.headerSize ≤ F.size) (hmagic : F.magic L mem = true) : executeElf L F mem =
    (loop L F (F.table L mem) 0 (F.table L mem).phnum (start L F mem), some (F.entry L mem)) := by
  rw [executeElf, if_neg (by omega), if_pos hmagic]

/-- Without a jump, nothing but the file header is read. -/
theorem faithful_of_refused (hok : L.Ok) (h : ¬ (L.headerSize ≤ F.size ∧ F.magic L mem = true)) : Faithful L F mem := by
  by_cases hsize : L.headerSize ≤ F.size
  · have hrun : executeElf L F mem = (start L F mem, none) := by
      rw [executeElf, if_neg (by omega), if_neg fun hmagic => h ⟨hsize, hmagic⟩]
    have hclean := @after_clean L F mem hok hsize 0 fun i hi => absurd hi (Nat.not_lt_zero i)
    refine ⟨?_, ?_, ?_, ?_⟩
    · rw [hrun]
      exact hclean.inside
    · rw [hrun]
      rfl
    · simp [hrun]
    · simp [hrun]
  · have hrun : executeElf L F mem = (⟨mem, [], false, false⟩, none) := by rw [executeElf, if_pos (by omega)]
    refine ⟨?_, ?_, ?_, ?_⟩ <;> simp [hrun]

theorem faithful_of_allWhole (hok : L.Ok) (h : AllWhole L F mem) : Faithful L F mem := by
  by_cases hjump : L.headerSize ≤ F.size ∧ F.magic L mem = true
  · have hw := h hjump.1 hjump.2
    have hloop := loop_after hok 0 (F.table L mem).phnum hw
    rw [Nat.add_zero, loop] at hloop
    have hclean := after_clean hok hjump.1 (F.table L mem).phnum hw
    have hrun := executeElf_loop hjump.1 hjump.2
    rw [hloop] at hrun
    refine ⟨?_, ?_, ?_, ?_⟩
    · rw [hrun]
      exact hclean.inside
    · rw [hrun]
      exact hclean.wrapped
    · rw [hrun]
      exact fun _ => hclean.missed
    · rw [hrun]
      exact fun _ hsep i hi htype => after_placed hok hsep hw _ le_rfl i hi htype
  · exact faithful_of_refused hok hjump

theorem Faithful.allWhole (hok : L.Ok) (h : Faithful L F mem) : AllWhole L F mem := by
  intro hsize hmagic i
  have hrun := executeElf_loop hsize hmagic
  apply whole_of_not_flawed hok
  rintro (hwrapped | hmissed)
  · have hexact := h.exact
    rw [hrun, hwrapped] at hexact
    exact Bool.noConfusion hexact
  · have hcomplete := h.complete
    rw [hrun, hmissed] at hcomplete
    exact Bool.noConfusion (hcomplete (by simp))

/-- Loading is faithful exactly if each turn meets a header that can be loaded. -/
theorem faithful_iff (hok : L.Ok) : Faithful L F mem ↔ AllWhole L F mem :=
  ⟨Faithful.allWhole hok, faithful_of_allWhole hok⟩

/-- **The two loaders are faithful exactly in the runs that meet only headers in
the file with segments in the file.** -/
theorem executeElf_faithful_iff (F : File elf32) (F' : File elf64) (mem : Mem) :
    (Faithful elf32 F mem ↔ AllWhole elf32 F mem) ∧ (Faithful elf64 F' mem ↔ AllWhole elf64 F' mem) :=
  ⟨faithful_iff elf32_ok, faithful_iff elf64_ok⟩

theorem whole_congr {mem' : Mem} (hok : L.Ok) (h : FileKept L F mem mem') :
    Whole L F (F.table L mem) i mem' ↔ Whole L F (F.table L mem) i mem := by
  constructor
  · rintro ⟨hheader, hoffset, hpaddr⟩
    rw [h.header hok hheader] at hoffset hpaddr
    exact ⟨hheader, hoffset, hpaddr⟩
  · rintro ⟨hheader, hoffset, hpaddr⟩
    refine ⟨hheader, ?_, ?_⟩
    · rw [h.header hok hheader]
      exact hoffset
    · rw [h.header hok hheader]
      exact hpaddr

/-- **If no segment lies over the file, the headers of the file alone decide.** -/
theorem allWhole_iff (hok : L.Ok) (haside : ∀ i < (F.table L mem).phnum, Aside L F (headerOf L F mem i)) :
    AllWhole L F mem ↔ (L.headerSize ≤ F.size → F.magic L mem →
      ∀ i < (F.table L mem).phnum, Whole L F (F.table L mem) i mem) := by
  have hkept : ∀ n < (F.table L mem).phnum, (∀ i < n, Whole L F (F.table L mem) i (after L F mem i).mem) →
      FileKept L F mem (after L F mem n).mem :=
    fun n hn hw => after_kept hok n hw fun i hi => haside i (by omega)
  constructor
  · intro h hsize hmagic i hi
    have hw := h hsize hmagic
    exact (whole_congr hok (hkept i hi fun j hj => hw j (by omega))).mp (hw i hi)
  · intro h hsize hmagic i
    induction i using Nat.strong_induction_on with
    | _ i ih =>
      intro hi
      exact (whole_congr hok (hkept i hi fun j hj => ih j hj (by omega))).mpr (h hsize hmagic i hi)

/-! ### Two files -/

/-- A memory with only the file in it. -/
def fileAt (base : ℕ) (bs : List UInt8) : Mem := poke (fun _ => 0) base bs

/-- An ELF32 file with one program header: a segment of 16 bytes at offset `0xFFFFFFF0`. -/
def wrappingElf : List UInt8 :=
  [0x7F, 0x45, 0x4C, 0x46, 1] ++ List.replicate 23 0 ++ [52, 0, 0, 0] ++ List.replicate 10 0 ++ [32, 0, 1, 0] ++
    List.replicate 6 0 ++ [1, 0, 0, 0, 0xF0, 0xFF, 0xFF, 0xFF] ++ List.replicate 4 0 ++ [0, 0, 0x20, 0, 16, 0, 0, 0] ++
    [16, 0, 0, 0] ++ List.replicate 8 0

/-- The header of an ELF64 file with one program header behind it, which is cut off. -/
def shortElf : List UInt8 :=
  [0x7F, 0x45, 0x4C, 0x46, 2] ++ List.replicate 27 0 ++ [64, 0, 0, 0, 0, 0, 0, 0] ++ List.replicate 14 0 ++
    [56, 0, 1, 0] ++ List.replicate 6 0

/-- The first file makes the loader read in front of it; the second is jumped to
with nothing loaded. -/
theorem headers_unchecked :
    ¬ Faithful elf32 ⟨0x10000, 84, by decide, by decide⟩ (fileAt 0x10000 wrappingElf) ∧
    ¬ Faithful elf64 ⟨0x10000, 64, by decide, by decide⟩ (fileAt 0x10000 shortElf) := by
  constructor
  · intro h
    have hr := h.inside (0xFFF0, 16) (by decide +kernel)
    exact absurd (hr (by decide)).1 (by decide)
  · intro h
    have hr := h.complete (by decide +kernel)
    exact absurd hr (by decide +kernel)

end Rustrapper.Boot

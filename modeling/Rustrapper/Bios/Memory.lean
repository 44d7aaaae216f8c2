/-
# Where downloads land

`allocate` places the bootfile buffer in the first longest region of usable RAM
that the firmware map reports below 4 GiB and above the bootloader, or at a
fixed address when the map has none; files a script fetches land at the fixed
address `fetchBase`. `chooseRegion_eq_some_iff` says which region is chosen, and
`chooseRegion_answers_iff` when all of it is RAM.
Nothing keeps the chosen region away from the fetch region, so the buffers are
`Sound` exactly when the map is `Clear` of the fetch region (`allocate_sound_iff`).
-/
import Mathlib

namespace Rustrapper.Bios

/-! ### The firmware's map -/

/-- An E820 entry. -/
structure E820Entry where
  base : UInt64
  length : UInt64
  entryType : UInt32
  acpiExt : UInt32
  deriving DecidableEq, Repr

def fourGb : ℕ := 0x100000000

/-- `TFTP_SIZE_HINT`. -/
def tftpSizeHint : ℕ := 16 * 1024 * 1024

/-- `FETCH_TOTAL_CAP`. -/
def fetchTotalCap : ℕ := 16 * 1024 * 1024

/-- `FETCH_BASE`. -/
def fetchBase : ℕ := 0x2000000

/-- The start of an entry, clipped to `min_addr`. -/
def E820Entry.start (e : E820Entry) (minAddr : ℕ) : ℕ := max e.base.toNat minAddr

/-- The end of an entry: `base.saturating_add(length).min(FOUR_GB)`. -/
def E820Entry.stop (e : E820Entry) : ℕ := min (min (e.base.toNat + e.length.toNat) (2 ^ 64 - 1)) fourGb

/-- The length of the clipped entry. -/
def E820Entry.len (e : E820Entry) (minAddr : ℕ) : ℕ := e.stop - e.start minAddr

/-- One turn of the loop of `choose_region`. -/
def choose (minAddr want : ℕ) (best : Option (ℕ × ℕ)) (e : E820Entry) : Option (ℕ × ℕ) :=
  if e.entryType ≠ 1 then best
  else if e.stop ≤ e.start minAddr then best
  else if e.len minAddr < want then best
  else if best.all fun b => b.2 < e.len minAddr then some (e.start minAddr, e.len minAddr)
  else best

/-- `choose_region`: base and length of the region for a buffer of `want` bytes. -/
def chooseRegion (entries : List E820Entry) (minAddr want : ℕ) : Option (ℕ × ℕ) :=
  entries.foldl (choose minAddr want) none

/-- The lowest address a download may use. -/
def lowest (bootloaderEnd : ℕ) : ℕ := max bootloaderEnd 0x100000

/-- `allocate`: base and capacity of the buffer for a download. -/
def allocate (map : List E820Entry) (bootloaderEnd sizeHint : ℕ) : ℕ × ℕ :=
  match chooseRegion map (lowest bootloaderEnd) sizeHint with
  | some (base, len) => (base, min sizeHint len)
  | none => (max (lowest bootloaderEnd) 0x200000, sizeHint)

/-! ### Which region is chosen -/

/-- The clipped entry is usable RAM and holds `want` bytes. -/
def E820Entry.Qualifies (e : E820Entry) (minAddr want : ℕ) : Prop :=
  e.entryType = 1 ∧ e.start minAddr < e.stop ∧ want ≤ e.len minAddr

/-- The first longest of the entries that qualify. -/
def Longest (entries : List E820Entry) (minAddr want : ℕ) (e : E820Entry) : Prop :=
  ∃ before after, entries = before ++ e :: after ∧ e.Qualifies minAddr want ∧
    (∀ x ∈ before, x.Qualifies minAddr want → x.len minAddr < e.len minAddr) ∧
    ∀ x ∈ after, x.Qualifies minAddr want → x.len minAddr ≤ e.len minAddr

section Choice

variable {minAddr want : ℕ}

theorem choose_skip {best : Option (ℕ × ℕ)} {e : E820Entry} (h : ¬ e.Qualifies minAddr want) :
    choose minAddr want best e = best := by
  unfold choose
  by_cases ht : e.entryType = 1
  · rw [if_neg (not_not.mpr ht)]
    by_cases hs : e.start minAddr < e.stop
    · rw [if_neg (not_le.mpr hs), if_pos]
      by_contra hw
      exact h ⟨ht, hs, not_lt.mp hw⟩
    · rw [if_pos (not_lt.mp hs)]
  · rw [if_pos ht]

theorem choose_of_qualifies {e : E820Entry} (h : e.Qualifies minAddr want) (best : Option (ℕ × ℕ)) :
    choose minAddr want best e =
      if best.all fun b => b.2 < e.len minAddr then some (e.start minAddr, e.len minAddr) else best := by
  obtain ⟨ht, hs, hw⟩ := h
  unfold choose
  rw [if_neg (not_not.mpr ht), if_neg (not_le.mpr hs), if_neg (not_lt.mpr hw)]

/-- What the loop holds after `entries`: nothing if none qualifies, else the
first longest. -/
def Best (entries : List E820Entry) (minAddr want : ℕ) : Option (ℕ × ℕ) → Prop
  | none => ∀ x ∈ entries, ¬ x.Qualifies minAddr want
  | some (base, len) =>
    ∃ e, Longest entries minAddr want e ∧ base = e.start minAddr ∧ len = e.len minAddr

theorem Longest.append {entries : List E820Entry} {e x : E820Entry} (h : Longest entries minAddr want e)
    (hx : x.Qualifies minAddr want → x.len minAddr ≤ e.len minAddr) :
    Longest (entries ++ [x]) minAddr want e := by
  obtain ⟨before, after, rfl, hq, hb, ha⟩ := h
  refine ⟨before, after ++ [x], by simp, hq, hb, ?_⟩
  intro y hy
  rcases List.mem_append.mp hy with hy | hy
  · exact ha y hy
  · rw [List.mem_singleton.mp hy]
    exact hx

theorem Longest.le {entries : List E820Entry} {e x : E820Entry} (h : Longest entries minAddr want e)
    (hx : x ∈ entries) (hq : x.Qualifies minAddr want) : x.len minAddr ≤ e.len minAddr := by
  obtain ⟨before, after, rfl, -, hb, ha⟩ := h
  rcases List.mem_append.mp hx with hx | hx
  · exact (hb x hx hq).le
  · rcases List.mem_cons.mp hx with rfl | hx
    · exact le_rfl
    · exact ha x hx hq

/-- One turn of the loop. -/
theorem Best.choose {entries : List E820Entry} {best : Option (ℕ × ℕ)}
    (h : Best entries minAddr want best) (e : E820Entry) :
    Best (entries ++ [e]) minAddr want (choose minAddr want best e) := by
  by_cases hq : e.Qualifies minAddr want
  · rw [choose_of_qualifies hq]
    cases best with
    | none =>
      refine ⟨e, ⟨entries, [], rfl, hq, fun x hx hxq => absurd hxq (h x hx), by simp⟩, rfl, rfl⟩
    | some b =>
      obtain ⟨base, len⟩ := b
      obtain ⟨w, hw, rfl, rfl⟩ := h
      by_cases hlt : w.len minAddr < e.len minAddr
      · rw [if_pos (by simpa using hlt)]
        refine ⟨e, ⟨entries, [], rfl, hq, ?_, by simp⟩, rfl, rfl⟩
        intro x hx hxq
        exact (hw.le hx hxq).trans_lt hlt
      · rw [if_neg (by simpa using hlt)]
        exact ⟨w, hw.append fun _ => not_lt.mp hlt, rfl, rfl⟩
  · rw [choose_skip hq]
    cases best with
    | none =>
      intro x hx
      rcases List.mem_append.mp hx with hx | hx
      · exact h x hx
      · rw [List.mem_singleton.mp hx]
        exact hq
    | some b =>
      obtain ⟨base, len⟩ := b
      obtain ⟨w, hw, rfl, rfl⟩ := h
      exact ⟨w, hw.append fun h => absurd h hq, rfl, rfl⟩

theorem foldl_best : ∀ (entries done : List E820Entry) {best : Option (ℕ × ℕ)},
    Best done minAddr want best →
    Best (done ++ entries) minAddr want (entries.foldl (choose minAddr want) best)
  | [], done, _, h => by rwa [List.append_nil]
  | e :: entries, done, _, h => by
    have ih := foldl_best entries (done ++ [e]) (h.choose e)
    rwa [List.append_assoc] at ih

/-- The loop ends with the first longest region. -/
theorem chooseRegion_best (entries : List E820Entry) (minAddr want : ℕ) :
    Best entries minAddr want (chooseRegion entries minAddr want) :=
  foldl_best entries [] (by simp [Best])

/-- The first longest entry is the only one. -/
theorem Longest.unique {entries : List E820Entry} {e e' : E820Entry}
    (h : Longest entries minAddr want e) (h' : Longest entries minAddr want e') : e = e' := by
  obtain ⟨before, after, he, hq, hb, ha⟩ := h
  obtain ⟨before', after', he', hq', hb', ha'⟩ := h'
  rw [he] at he'
  rcases List.append_eq_append_iff.mp he' with ⟨mid, h1, h2⟩ | ⟨mid, h1, h2⟩
  · cases mid with
    | nil => simpa using (List.cons.inj h2).1
    | cons y mid =>
      obtain ⟨rfl, rfl⟩ := List.cons.inj h2
      have h3 := hb' e (by rw [h1]; simp) hq
      have h4 := ha e' (by simp) hq'
      omega
  · cases mid with
    | nil => simpa using (List.cons.inj h2).1.symm
    | cons y mid =>
      obtain ⟨rfl, rfl⟩ := List.cons.inj h2
      have h3 := hb e' (by rw [h1]; simp) hq'
      have h4 := ha' e (by simp) hq
      omega

/-- **The chosen region** is the first longest one that qualifies. -/
theorem chooseRegion_eq_some_iff {entries : List E820Entry} {base len : ℕ} :
    chooseRegion entries minAddr want = some (base, len) ↔
      ∃ e, Longest entries minAddr want e ∧ base = e.start minAddr ∧ len = e.len minAddr := by
  have hbest := chooseRegion_best entries minAddr want
  constructor
  · intro h
    rwa [h] at hbest
  · rintro ⟨e, he, rfl, rfl⟩
    cases hc : chooseRegion entries minAddr want with
    | none =>
      rw [hc] at hbest
      obtain ⟨before, after, rfl, hq, -⟩ := he
      exact absurd hq (hbest e (by simp))
    | some b =>
      rw [hc] at hbest
      obtain ⟨e', he', h1, h2⟩ := hbest
      rw [he.unique he']
      exact congrArg some (Prod.ext h1 h2)

/-- No region is chosen when no entry qualifies. -/
theorem chooseRegion_eq_none_iff {entries : List E820Entry} :
    chooseRegion entries minAddr want = none ↔ ∀ x ∈ entries, ¬ x.Qualifies minAddr want := by
  have hbest := chooseRegion_best entries minAddr want
  constructor
  · intro h
    rwa [h] at hbest
  · intro h
    cases hc : chooseRegion entries minAddr want with
    | none => rfl
    | some b =>
      rw [hc] at hbest
      obtain ⟨e, ⟨before, after, rfl, hq, -⟩, -⟩ := hbest
      exact absurd hq (h e (by simp))

end Choice

/-! ### The chosen region as RAM -/

/-- How many bytes an entry has in `[min_addr, 4 GiB)`. -/
def E820Entry.clipped (e : E820Entry) (minAddr : ℕ) : ℕ :=
  min (e.base.toNat + e.length.toNat) fourGb - max e.base.toNat minAddr

/-- The entry has a byte of `[base, base + len)`. -/
def E820Entry.Overlaps (e : E820Entry) (base len : ℕ) : Prop :=
  ∃ a, (base ≤ a ∧ a < base + len) ∧ e.base.toNat ≤ a ∧ a < e.base.toNat + e.length.toNat

/-- The answer for a map: none when no type-1 entry is long enough, else a
longest one, and RAM all through. -/
structure Answers (entries : List E820Entry) (minAddr want : ℕ) (r : Option (ℕ × ℕ)) : Prop where
  none_iff : r = none ↔ ∀ e ∈ entries, e.entryType = 1 → e.clipped minAddr < want
  longest : ∀ base len, r = some (base, len) → ∃ e ∈ entries, e.entryType = 1 ∧ want ≤ e.clipped minAddr ∧
    base = max e.base.toNat minAddr ∧ len = e.clipped minAddr ∧
    ∀ x ∈ entries, x.entryType = 1 → x.clipped minAddr ≤ len
  usable : ∀ base len, r = some (base, len) → ∀ x ∈ entries, x.entryType ≠ 1 → ¬ x.Overlaps base len

/-- No entry of another type reaches into the first longest region, and a call
for no bytes at all meets a region with some, or no type-1 entry. -/
structure Unreserved (entries : List E820Entry) (minAddr want : ℕ) : Prop where
  usable : ∀ e, Longest entries minAddr want e →
    ∀ x ∈ entries, x.entryType ≠ 1 → ¬ x.Overlaps (e.start minAddr) (e.len minAddr)
  nonempty : want = 0 → (∃ e ∈ entries, e.entryType = 1) → ∃ e ∈ entries, e.entryType = 1 ∧ 0 < e.clipped minAddr

section Usable

variable {entries : List E820Entry} {minAddr want : ℕ}

/-- Saturation at 2^64 lies above the clip at 4 GiB. -/
theorem E820Entry.stop_eq (e : E820Entry) : e.stop = min (e.base.toNat + e.length.toNat) fourGb := by
  rw [E820Entry.stop, min_assoc]
  have hle : fourGb ≤ 2 ^ 64 - 1 := by decide
  rw [min_eq_right hle]

theorem E820Entry.len_eq (e : E820Entry) (minAddr : ℕ) : e.len minAddr = e.clipped minAddr := by
  rw [E820Entry.len, E820Entry.stop_eq, E820Entry.start, E820Entry.clipped]

/-- An entry that qualifies is of type 1 and has `want` bytes, at least one. -/
theorem qualifies_iff {e : E820Entry} :
    e.Qualifies minAddr want ↔ e.entryType = 1 ∧ 0 < e.clipped minAddr ∧ want ≤ e.clipped minAddr := by
  have hpos : e.start minAddr < e.stop ↔ 0 < e.clipped minAddr := by
    rw [← e.len_eq, E820Entry.len]
    omega
  rw [E820Entry.Qualifies, hpos, e.len_eq]

theorem Longest.mem {e : E820Entry} (h : Longest entries minAddr want e) : e ∈ entries := by
  obtain ⟨before, after, rfl, -⟩ := h
  simp

theorem Longest.qualifies {e : E820Entry} (h : Longest entries minAddr want e) : e.Qualifies minAddr want := by
  obtain ⟨before, after, -, hq, -⟩ := h
  exact hq

/-- No type-1 entry is longer than the first longest. -/
theorem Longest.clipped_le {e x : E820Entry} (h : Longest entries minAddr want e) (hx : x ∈ entries)
    (ht : x.entryType = 1) : x.clipped minAddr ≤ e.clipped minAddr := by
  have he := (qualifies_iff.mp h.qualifies).2
  by_cases hq : x.Qualifies minAddr want
  · have hle := h.le hx hq
    rwa [x.len_eq, e.len_eq] at hle
  · rw [qualifies_iff] at hq
    by_contra hlt
    exact hq ⟨ht, by omega, by omega⟩

/-- With a byte asked for, or a byte there, none is chosen exactly when every
type-1 entry is too short. -/
theorem chooseRegion_none_iff_short
    (h : want = 0 → (∃ e ∈ entries, e.entryType = 1) → ∃ e ∈ entries, e.entryType = 1 ∧ 0 < e.clipped minAddr) :
    chooseRegion entries minAddr want = none ↔ ∀ e ∈ entries, e.entryType = 1 → e.clipped minAddr < want := by
  rw [chooseRegion_eq_none_iff]
  constructor
  · intro hnone e he ht
    have hq := hnone e he
    rw [qualifies_iff] at hq
    by_contra hle
    have hempty : e.clipped minAddr = 0 := by
      by_contra hne
      exact hq ⟨ht, by omega, by omega⟩
    obtain ⟨x, hx, hxt, hpos⟩ := h (by omega) ⟨e, he, ht⟩
    exact hnone x hx (qualifies_iff.mpr ⟨hxt, hpos, by omega⟩)
  · intro hshort e he hq
    obtain ⟨ht, -, hw⟩ := qualifies_iff.mp hq
    exact absurd (hshort e he ht) (by omega)

/-- **The chosen region is the RAM asked for** exactly when no entry of another
type reaches into it. -/
theorem chooseRegion_answers_iff (entries : List E820Entry) (minAddr want : ℕ) :
    Answers entries minAddr want (chooseRegion entries minAddr want) ↔ Unreserved entries minAddr want := by
  constructor
  · intro h
    constructor
    · intro e he
      exact h.usable _ _ (chooseRegion_eq_some_iff.mpr ⟨e, he, rfl, rfl⟩)
    · rintro rfl ⟨e, he, ht⟩
      by_contra hnone
      have hc : chooseRegion entries minAddr 0 = none := by
        apply chooseRegion_eq_none_iff.mpr
        intro x hx hq
        obtain ⟨hxt, hpos, -⟩ := qualifies_iff.mp hq
        exact hnone ⟨x, hx, hxt, hpos⟩
      exact absurd (h.none_iff.mp hc e he ht) (by omega)
  · intro h
    refine ⟨chooseRegion_none_iff_short h.nonempty, ?_, ?_⟩
    · intro base len hc
      obtain ⟨e, he, rfl, rfl⟩ := chooseRegion_eq_some_iff.mp hc
      obtain ⟨ht, -, hw⟩ := qualifies_iff.mp he.qualifies
      refine ⟨e, he.mem, ht, hw, rfl, e.len_eq minAddr, fun x hx hxt => ?_⟩
      rw [e.len_eq]
      exact he.clipped_le hx hxt
    · intro base len hc
      obtain ⟨e, he, rfl, rfl⟩ := chooseRegion_eq_some_iff.mp hc
      exact h.usable e he

/-- 128 MiB of RAM from 1 MiB on, with a reserved page in it: the region chosen
holds the page. -/
theorem reserved_page_chosen :
    ¬ Answers [⟨0x100000, 0x8000000, 1, 0⟩, ⟨0x200000, 0x1000, 2, 0⟩] 0x100000 0x1000000
      (chooseRegion [⟨0x100000, 0x8000000, 1, 0⟩, ⟨0x200000, 0x1000, 2, 0⟩] 0x100000 0x1000000) := by
  intro h
  apply h.usable 0x100000 0x8000000 (by decide) ⟨0x200000, 0x1000, 2, 0⟩ (by simp) (by decide)
  exact ⟨0x200000, by decide⟩

end Usable

/-! ### Where the buffers lie -/

/-- Every address of `[base, base + size)` lies in a type-1 entry. -/
def InRam (map : List E820Entry) (base size : ℕ) : Prop :=
  ∀ a, base ≤ a → a < base + size →
    ∃ e ∈ map, e.entryType = 1 ∧ e.base.toNat ≤ a ∧ a < e.base.toNat + e.length.toNat

/-- The map has a type-1 region large enough for each of the two buffers. -/
def HasRoom (map : List E820Entry) : Prop :=
  ∃ e ∈ map, e.entryType = 1 ∧ tftpSizeHint ≤ e.length.toNat ∧ fetchTotalCap ≤ e.length.toNat

/-- The two buffers are disjoint, and in RAM when there is room. -/
structure Sound (map : List E820Entry) (bootloaderEnd : ℕ) : Prop where
  disjoint : (allocate map bootloaderEnd tftpSizeHint).1 + (allocate map bootloaderEnd tftpSizeHint).2 ≤
      fetchBase ∨ fetchBase + fetchTotalCap ≤ (allocate map bootloaderEnd tftpSizeHint).1
  bootfile : HasRoom map → InRam map (allocate map bootloaderEnd tftpSizeHint).1
    (allocate map bootloaderEnd tftpSizeHint).2
  fetched : HasRoom map → InRam map fetchBase fetchTotalCap

/-- No entry can hold the bootfile. -/
def NoneQualifies (map : List E820Entry) (bootloaderEnd : ℕ) : Prop :=
  ∀ e ∈ map, ¬ e.Qualifies (lowest bootloaderEnd) tftpSizeHint

/-- 16 MiB from `base` on miss the fetch region. -/
def MissesFetch (base : ℕ) : Prop := base ≤ 0x1000000 ∨ 0x3000000 ≤ base

/-- The first longest region does not start where 16 MiB from it reach into the
fetch region, nor does the fallback buffer when it is used, and what lies at a
fixed address is RAM. -/
structure Clear (map : List E820Entry) (bootloaderEnd : ℕ) : Prop where
  region : ∀ e, Longest map (lowest bootloaderEnd) tftpSizeHint e → MissesFetch (e.start (lowest bootloaderEnd))
  fallback : NoneQualifies map bootloaderEnd → MissesFetch (max (lowest bootloaderEnd) 0x200000)
  fallbackRam : HasRoom map → NoneQualifies map bootloaderEnd →
    InRam map (max (lowest bootloaderEnd) 0x200000) tftpSizeHint
  fetchRam : HasRoom map → InRam map fetchBase fetchTotalCap

variable {map : List E820Entry} {bootloaderEnd : ℕ}

theorem missesFetch_iff (base : ℕ) :
    base + tftpSizeHint ≤ fetchBase ∨ fetchBase + fetchTotalCap ≤ base ↔ MissesFetch base := by
  unfold MissesFetch tftpSizeHint fetchBase fetchTotalCap
  omega

/-- A chosen region gives the whole buffer. -/
theorem allocate_of_longest {e : E820Entry} (h : Longest map (lowest bootloaderEnd) tftpSizeHint e) :
    allocate map bootloaderEnd tftpSizeHint = (e.start (lowest bootloaderEnd), tftpSizeHint) := by
  have hc := chooseRegion_eq_some_iff.mpr ⟨e, h, rfl, rfl⟩
  obtain ⟨-, -, -, ⟨-, -, hlen⟩, -⟩ := h
  simp only [allocate, hc, min_eq_left hlen]

theorem allocate_of_none (h : NoneQualifies map bootloaderEnd) :
    allocate map bootloaderEnd tftpSizeHint = (max (lowest bootloaderEnd) 0x200000, tftpSizeHint) := by
  simp only [allocate, chooseRegion_eq_none_iff.mpr h]

theorem longest_or_none (map : List E820Entry) (bootloaderEnd : ℕ) :
    (∃ e, Longest map (lowest bootloaderEnd) tftpSizeHint e) ∨ NoneQualifies map bootloaderEnd := by
  have hbest := chooseRegion_best map (lowest bootloaderEnd) tftpSizeHint
  cases hc : chooseRegion map (lowest bootloaderEnd) tftpSizeHint with
  | none => exact .inr (chooseRegion_eq_none_iff.mp hc)
  | some b =>
    obtain ⟨e, he, -⟩ := chooseRegion_eq_some_iff.mp hc
    exact .inl ⟨e, he⟩

/-- A chosen region is RAM. -/
theorem Longest.inRam {e : E820Entry} {minAddr want : ℕ} (h : Longest map minAddr want e) :
    InRam map (e.start minAddr) want := by
  obtain ⟨before, after, rfl, ⟨ht, hs, hw⟩, -⟩ := h
  intro a h1 h2
  refine ⟨e, by simp, ht, (le_max_left _ _).trans h1, ?_⟩
  have hstop : e.stop ≤ e.base.toNat + e.length.toNat := (min_le_left _ _).trans (min_le_left _ _)
  unfold E820Entry.len at hw
  omega

theorem Longest.not_none {e : E820Entry} (h : Longest map (lowest bootloaderEnd) tftpSizeHint e) :
    ¬ NoneQualifies map bootloaderEnd := by
  obtain ⟨before, after, rfl, hq, -⟩ := h
  exact fun hn => hn e (by simp) hq

/-- **The download buffers** are disjoint and in RAM exactly for the maps that
happen to keep clear of the fixed fetch region. -/
theorem allocate_sound_iff (map : List E820Entry) (bootloaderEnd : ℕ) :
    Sound map bootloaderEnd ↔ Clear map bootloaderEnd := by
  rcases longest_or_none map bootloaderEnd with ⟨e, he⟩ | hn
  · have ha := allocate_of_longest he
    have hiff := missesFetch_iff (e.start (lowest bootloaderEnd))
    constructor
    · intro h
      have hd := h.disjoint
      rw [ha] at hd
      refine ⟨fun e' he' => ?_, fun hn => absurd hn he.not_none, fun _ hn => absurd hn he.not_none,
        h.fetched⟩
      rw [← he.unique he']
      exact hiff.mp hd
    · intro h
      refine ⟨?_, fun _ => ?_, h.fetchRam⟩
      · rw [ha]
        exact hiff.mpr (h.region e he)
      · rw [ha]
        exact he.inRam
  · have ha := allocate_of_none hn
    have hiff := missesFetch_iff (max (lowest bootloaderEnd) 0x200000)
    constructor
    · intro h
      have hd := h.disjoint
      have hb := h.bootfile
      rw [ha] at hd hb
      exact ⟨fun e he => absurd hn he.not_none, fun _ => hiff.mp hd, fun hr _ => hb hr, h.fetched⟩
    · intro h
      refine ⟨?_, fun hr => ?_, h.fetchRam⟩
      · rw [ha]
        exact hiff.mpr (h.fallback hn)
      · rw [ha]
        exact h.fallbackRam hr hn

/-- One region of usable RAM from 24 MiB on: the bootfile is put where fetched
files go. -/
theorem region_at_24_mib : ¬ Sound [⟨0x1800000, 0x8000000, 1, 0⟩] 0x11B000 := by
  intro h
  have hd := h.disjoint
  revert hd
  decide

end Rustrapper.Bios

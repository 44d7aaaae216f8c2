/-
# The receive ring

The NIC and the driver share eight descriptors. The NIC owns those from `head`
up to but not including `tail`; it writes an arriving frame into the head
descriptor and sets its status. `try_receive` scans the descriptors from slot 0
and takes the first one whose status is set, then writes that slot's number to
the tail register. Each access of the driver to memory is a step of its own, and
frames arrive between any two of them.

The slot after the tail is that of the oldest frame. As long as the scan finds
no other slot set, the ring is a queue (`receive_in_order`); `wrapped_backlog`
is a run in which it finds another.
-/
import Rustrapper.Store.Ring

namespace Rustrapper.Net

open Store

/-! ### NIC and driver -/

/-- `NUM_RX_DESC`. -/
def numRxDesc : ℕ := 8

/-- A receive descriptor: the DD bit of its status, and the bytes of its buffer
that its length counts. -/
structure RxDesc where
  dd : Bool
  frame : List UInt8

/-- Where the driver is: outside `try_receive`; about to read the status of
`idx`, with `rounds` rounds to go after this one; about to copy the frame, to
clear the status, to write the tail. -/
inductive Driver
  | idle
  | scan (rounds idx : ℕ)
  | found (idx : ℕ)
  | copied (idx : ℕ) (number : Option ℕ) (bytes : List UInt8)
  | cleared (idx : ℕ) (number : Option ℕ) (bytes : List UInt8)
  deriving DecidableEq

/-- The registers and the descriptors, where the driver is, and what happened:
the frames stored, the number of the stored frame each slot holds until it is
returned, and the frames returned, with the number of each. -/
structure Nic where
  head : ℕ
  tail : ℕ
  desc : ℕ → RxDesc
  driver : Driver
  stored : List (List UInt8)
  waiting : ℕ → Option ℕ
  returned : List (Option ℕ × List UInt8)

/-- What `init` leaves. -/
def init : Nic where
  head := 0
  tail := numRxDesc - 1
  desc := fun _ => ⟨false, []⟩
  driver := .idle
  stored := []
  waiting := fun _ => none
  returned := []

/-- The largest frame `try_receive` copies whole. -/
def bufLen : ℕ := 1514

/-- The NIC receives a frame; it drops the frame when it owns no descriptor. -/
def arrive (n : Nic) (f : List UInt8) : Nic :=
  if n.head = n.tail then n
  else { n with
    desc := Function.update n.desc n.head ⟨true, f⟩
    head := (n.head + 1) % numRxDesc
    stored := n.stored ++ [f]
    waiting := Function.update n.waiting n.head (some n.stored.length) }

/-- Start a round of the poll loop. -/
def startRound : ℕ → Driver
  | 0 => .idle
  | rounds + 1 => .scan rounds 0

/-- The next memory access of `try_receive`. -/
def tick (n : Nic) : Nic :=
  match n.driver with
  | .idle => n
  | .scan rounds idx =>
    if (n.desc idx).dd then { n with driver := .found idx }
    else if idx + 1 < numRxDesc then { n with driver := .scan rounds (idx + 1) }
    else { n with driver := startRound rounds }
  | .found idx => { n with driver := .copied idx (n.waiting idx) ((n.desc idx).frame.take bufLen) }
  | .copied idx number bytes =>
    { n with
      desc := Function.update n.desc idx ⟨false, (n.desc idx).frame⟩
      driver := .cleared idx number bytes }
  | .cleared idx number bytes =>
    { n with
      tail := idx
      waiting := Function.update n.waiting idx none
      returned := n.returned ++ [(number, bytes)]
      driver := .idle }

inductive Event
  | arrive (f : List UInt8)
  | call (timeoutIters : ℕ)
  | tick

/-- A call begins only when none is under way. -/
def step (n : Nic) : Event → Nic
  | .arrive f => arrive n f
  | .call timeoutIters =>
    match n.driver with
    | .idle => { n with driver := startRound timeoutIters }
    | _ => n
  | .tick => tick n

def run (n : Nic) (events : List Event) : Nic := events.foldl step n

/-! ### In order, once, and not too early -/

/-- The NIC owns slot `j`. -/
def Nic.Owns (n : Nic) (j : ℕ) : Prop :=
  j < numRxDesc ∧
    (j + numRxDesc - n.head) % numRxDesc < (n.tail + numRxDesc - n.head) % numRxDesc

/-- Frames come back as a prefix of those stored, each once and in order, and no
descriptor with a frame still to return is the NIC's. -/
structure Delivered (n : Nic) : Prop where
  prefixed : n.returned.map Prod.snd <+: n.stored
  once : n.returned.map Prod.fst = (List.range n.returned.length).map some
  kept : ∀ j, n.Owns j → n.waiting j = none

/-- The slot whose status the driver reads next. -/
def Driver.reads : Driver → Option ℕ
  | .scan _ idx => some idx
  | _ => none

/-- The step does not find a slot set other than the one after the tail, and no
frame is longer than what the driver copies. -/
def OldestFirst (n : Nic) : Event → Prop
  | .arrive f => f.length ≤ bufLen
  | .call _ => True
  | .tick => ∀ idx ∈ n.driver.reads, (n.desc idx).dd = true → idx = (n.tail + 1) % numRxDesc

instance (n : Nic) : ∀ e, Decidable (OldestFirst n e)
  | .arrive f => inferInstanceAs (Decidable (f.length ≤ bufLen))
  | .call _ => isTrue trivial
  | .tick => inferInstanceAs
      (Decidable (∀ idx ∈ n.driver.reads, (n.desc idx).dd = true → idx = (n.tail + 1) % numRxDesc))

/-- Every step of the run does so. -/
def AllOldestFirst : Nic → List Event → Prop
  | _, [] => True
  | n, e :: es => OldestFirst n e ∧ AllOldestFirst (step n e) es

instance : ∀ (n : Nic) (events : List Event), Decidable (AllOldestFirst n events)
  | _, [] => isTrue trivial
  | n, e :: es =>
    have := instDecidableAllOldestFirst (step n e) es
    inferInstanceAs (Decidable (OldestFirst n e ∧ AllOldestFirst (step n e) es))

/-- The frame the driver is taking is the oldest, number `r`. -/
def Driver.Takes (d : Driver) (stored : List (List UInt8)) (r : ℕ) : Prop :=
  match d with
  | .idle => True
  | .scan _ _ => True
  | .found idx => idx = r % numRxDesc ∧ r < stored.length
  | .copied idx number bytes => idx = r % numRxDesc ∧ number = some r ∧ stored[r]? = some bytes
  | .cleared idx number bytes => idx = r % numRxDesc ∧ number = some r ∧ stored[r]? = some bytes

/-- How many of the frames have had their status cleared. -/
def Driver.cleared? : Driver → ℕ → ℕ
  | .cleared _ _ _, r => r + 1
  | _, r => r

/-- The ring is a queue: the `r` frames returned are the first `r` of those
stored, the others wait in their slots, and the tail is one slot behind the
oldest. -/
structure Queue (n : Nic) (r : ℕ) : Prop where
  head : n.head = n.stored.length % numRxDesc
  tail : n.tail = (r + 7) % numRxDesc
  room : n.stored.length ≤ r + 7
  behind : r ≤ n.stored.length
  small : ∀ f ∈ n.stored, f.length ≤ bufLen
  frames : Ring.Holds numRxDesc (fun j => (n.desc j).frame) n.stored r
  dd : ∀ j, (n.desc j).dd = true ↔ Ring.Occupied numRxDesc (n.driver.cleared? r) n.stored.length j
  numbers : Ring.Holds numRxDesc n.waiting ((List.range n.stored.length).map some) r
  free : ∀ j, ¬ Ring.Occupied numRxDesc r n.stored.length j → n.waiting j = none
  takes : n.driver.Takes n.stored r
  bytes : n.returned.map Prod.snd = n.stored.take r
  order : n.returned.map Prod.fst = (List.range r).map some

theorem Queue.length_returned {n : Nic} {r : ℕ} (h : Queue n r) : n.returned.length = r := by
  have := congrArg List.length h.order
  simpa using this

/-- A queue delivers. -/
theorem Queue.delivered {n : Nic} {r : ℕ} (h : Queue n r) : Delivered n := by
  refine ⟨?_, ?_, ?_⟩
  · rw [h.bytes]
    exact List.take_prefix _ _
  · rw [h.order, h.length_returned]
  · intro j hj
    apply h.free
    rintro ⟨i, h1, h2, rfl⟩
    obtain ⟨-, hj⟩ := hj
    have hroom := h.room
    rw [h.head, h.tail] at hj
    unfold numRxDesc at hj
    omega

theorem init_queue : Queue init 0 where
  head := rfl
  tail := rfl
  room := by decide
  behind := by decide
  small := by simp [init]
  frames := by simp [Ring.Holds, init]
  dd := fun j => by simpa [init, Driver.cleared?] using Ring.not_occupied_self numRxDesc 0 j
  numbers := by simp [Ring.Holds, init]
  free := fun _ _ => rfl
  takes := trivial
  bytes := rfl
  order := rfl

/-! ### Every step keeps the queue -/

variable {n : Nic} {r : ℕ}

theorem Driver.Takes.lt {d : Driver} {stored : List (List UInt8)} (h : d.Takes stored r)
    (hr : r ≤ stored.length) : d.cleared? r ≤ stored.length := by
  cases d with
  | cleared idx number bytes => exact (List.getElem?_eq_some_iff.mp h.2.2).1
  | _ => exact hr

theorem Driver.Takes.append {d : Driver} {stored : List (List UInt8)} (h : d.Takes stored r)
    (f : List UInt8) : d.Takes (stored ++ [f]) r := by
  have hget : ∀ {bytes}, stored[r]? = some bytes → (stored ++ [f])[r]? = some bytes := by
    intro bytes hb
    rwa [List.getElem?_append_left (List.getElem?_eq_some_iff.mp hb).1]
  cases d with
  | idle => trivial
  | scan rounds idx => trivial
  | found idx =>
    refine ⟨h.1, ?_⟩
    rw [List.length_append]
    exact Nat.lt_add_right _ h.2
  | copied idx number bytes => exact ⟨h.1, h.2.1, hget h.2.2⟩
  | cleared idx number bytes => exact ⟨h.1, h.2.1, hget h.2.2⟩

/-- A frame arrives. -/
theorem Queue.arrive (h : Queue n r) {f : List UInt8} (hf : f.length ≤ bufLen) :
    Queue (arrive n f) r := by
  unfold Net.arrive
  by_cases hfull : n.head = n.tail
  · rw [if_pos hfull]
    exact h
  rw [if_neg hfull]
  have hroom : n.stored.length < r + 7 := by
    have hle := h.room
    rw [h.head, h.tail] at hfull
    unfold numRxDesc at hfull
    omega
  have hr := h.behind
  have hslot : n.stored.length < r + numRxDesc := by
    unfold numRxDesc
    omega
  constructor
  · show (n.head + 1) % numRxDesc = (n.stored ++ [f]).length % numRxDesc
    rw [h.head, List.length_append, List.length_singleton, Nat.mod_add_mod]
  · exact h.tail
  · show (n.stored ++ [f]).length ≤ r + 7
    rw [List.length_append, List.length_singleton]
    omega
  · show r ≤ (n.stored ++ [f]).length
    rw [List.length_append]
    omega
  · intro g hg
    rcases List.mem_append.mp hg with hg | hg
    · exact h.small g hg
    · rw [List.mem_singleton.mp hg]
      exact hf
  · have hcomp := Function.comp_update RxDesc.frame n.desc n.head ⟨true, f⟩
    show Ring.Holds numRxDesc (RxDesc.frame ∘ Function.update n.desc n.head ⟨true, f⟩) (n.stored ++ [f]) r
    rw [hcomp, h.head]
    exact h.frames.put hslot hr f
  · intro j
    show (Function.update n.desc n.head ⟨true, f⟩ j).dd = true ↔
      Ring.Occupied numRxDesc (n.driver.cleared? r) (n.stored ++ [f]).length j
    rw [List.length_append, List.length_singleton, Ring.occupied_put (h.takes.lt hr), ← h.dd, ← h.head]
    by_cases hj : j = n.head
    · simp [hj]
    · simp [hj]
  · show Ring.Holds numRxDesc (Function.update n.waiting n.head (some n.stored.length))
      ((List.range (n.stored ++ [f]).length).map some) r
    have hlen : ((List.range n.stored.length).map some).length = n.stored.length := by simp
    have hput := h.numbers.put (by rw [hlen]; exact hslot) (by rw [hlen]; exact hr) (some n.stored.length)
    rw [hlen] at hput
    rw [h.head, List.length_append, List.length_singleton, List.range_succ, List.map_append]
    exact hput
  · intro j hj
    show Function.update n.waiting n.head (some n.stored.length) j = none
    have hj' : ¬ Ring.Occupied numRxDesc r (n.stored.length + 1) j := by
      rwa [← List.length_singleton (a := f), ← List.length_append]
    rw [Ring.occupied_put hr, not_or, ← h.head] at hj'
    rw [Function.update_of_ne hj'.2]
    exact h.free j hj'.1
  · exact h.takes.append f
  · show n.returned.map Prod.snd = (n.stored ++ [f]).take r
    rw [List.take_append_of_le_length hr]
    exact h.bytes
  · exact h.order

/-- The driver reads, copies or clears. -/
theorem Queue.goto (h : Queue n r) {d : Driver} (hc : d.cleared? r = n.driver.cleared? r)
    (ht : d.Takes n.stored r) : Queue { n with driver := d } r where
  head := h.head
  tail := h.tail
  room := h.room
  behind := h.behind
  small := h.small
  frames := h.frames
  dd := fun j => by
    show (n.desc j).dd = true ↔ Ring.Occupied numRxDesc (d.cleared? r) n.stored.length j
    rw [hc]
    exact h.dd j
  numbers := h.numbers
  free := h.free
  takes := ht
  bytes := h.bytes
  order := h.order

theorem startRound_cleared (rounds : ℕ) : (startRound rounds).cleared? r = r := by
  cases rounds <;> rfl

theorem startRound_takes (rounds : ℕ) (stored : List (List UInt8)) : (startRound rounds).Takes stored r := by
  cases rounds <;> trivial

/-- The driver reads a status: only that of the oldest frame is set. -/
theorem Queue.reads (h : Queue n r) (hold : OldestFirst n .tick) {rounds idx : ℕ}
    (hd : n.driver = .scan rounds idx) : Queue (tick n) r := by
  have hdd := h.dd idx
  rw [hd] at hdd
  rw [Net.tick, hd]
  dsimp only
  by_cases hset : (n.desc idx).dd = true
  · rw [if_pos hset]
    have hidx : idx = r % numRxDesc := by
      have hnext := hold idx (by rw [hd]; rfl) hset
      rw [h.tail] at hnext
      unfold numRxDesc at hnext ⊢
      omega
    obtain ⟨i, h1, h2, -⟩ := hdd.mp hset
    have h1 : r ≤ i := h1
    exact h.goto (by rw [hd]; rfl) ⟨hidx, by omega⟩
  · rw [if_neg hset]
    by_cases hlast : idx + 1 < numRxDesc
    · rw [if_pos hlast]
      exact h.goto (by rw [hd]; rfl) trivial
    · rw [if_neg hlast]
      exact h.goto (by rw [hd]; exact startRound_cleared _) (startRound_takes _ _)

/-- The driver copies the oldest frame. -/
theorem Queue.copies (h : Queue n r) {idx : ℕ} (hd : n.driver = .found idx) : Queue (tick n) r := by
  have htakes := h.takes
  rw [hd] at htakes
  obtain ⟨hidx, hlt⟩ := htakes
  rw [Net.tick, hd]
  refine h.goto (by rw [hd]; rfl) ⟨hidx, ?_, ?_⟩
  · rw [hidx]
    exact h.numbers r (some r) le_rfl (by simp [hlt])
  · have hframe : (n.desc idx).frame = n.stored[r] := by
      rw [hidx]
      exact h.frames r n.stored[r] le_rfl (List.getElem?_eq_getElem hlt)
    rw [hframe, List.take_of_length_le (h.small n.stored[r] (List.getElem_mem hlt))]
    exact List.getElem?_eq_getElem hlt

/-- The driver clears the status of the frame it has copied. -/
theorem Queue.clears (h : Queue n r) {idx : ℕ} {number : Option ℕ} {bytes : List UInt8}
    (hd : n.driver = .copied idx number bytes) : Queue (tick n) r := by
  have htakes := h.takes
  have hdd := h.dd
  rw [hd] at htakes hdd
  obtain ⟨hidx, hnum, hbytes⟩ := htakes
  have hlt : r < n.stored.length := (List.getElem?_eq_some_iff.mp hbytes).1
  have hcomp := Function.comp_update RxDesc.frame n.desc idx ⟨false, (n.desc idx).frame⟩
  have hsame := Function.update_eq_self idx (RxDesc.frame ∘ n.desc)
  rw [Net.tick, hd]
  refine ⟨h.head, h.tail, h.room, h.behind, h.small, ?_, ?_, h.numbers, h.free, ⟨hidx, hnum, hbytes⟩,
    h.bytes, h.order⟩
  · show Ring.Holds numRxDesc
      (RxDesc.frame ∘ Function.update n.desc idx ⟨false, (n.desc idx).frame⟩) n.stored r
    rw [hcomp]
    exact hsame.symm ▸ h.frames
  · intro j
    have hspan := h.room.trans (Nat.add_le_add_left (by decide : 7 ≤ numRxDesc) r)
    have hdd' : (n.desc j).dd = true ↔ Ring.Occupied numRxDesc r n.stored.length j := hdd j
    show (Function.update n.desc idx ⟨false, (n.desc idx).frame⟩ j).dd = true ↔
      Ring.Occupied numRxDesc (r + 1) n.stored.length j
    rw [Ring.occupied_take hspan, ← hdd', ← hidx]
    by_cases hj : j = idx
    · simp [hj, hlt]
    · simp [hj]

/-- The driver writes the tail and returns the frame, and the next one is the oldest. -/
theorem Queue.returns (h : Queue n r) {idx : ℕ} {number : Option ℕ} {bytes : List UInt8}
    (hd : n.driver = .cleared idx number bytes) : Queue (tick n) (r + 1) := by
  have htakes := h.takes
  have hdd := h.dd
  rw [hd] at htakes hdd
  obtain ⟨hidx, hnum, hbytes⟩ := htakes
  have hlt : r < n.stored.length := (List.getElem?_eq_some_iff.mp hbytes).1
  have hroom : n.stored.length ≤ r + 7 := h.room
  have hspan : n.stored.length ≤ r + numRxDesc := by
    unfold numRxDesc
    omega
  rw [Net.tick, hd]
  refine ⟨h.head, ?_, hroom.trans (by omega), hlt, h.small, h.frames.take, hdd, ?_, ?_, trivial, ?_, ?_⟩
  · show idx = (r + 1 + 7) % numRxDesc
    rw [hidx]
    unfold numRxDesc
    omega
  · intro i a hi ha
    have hi' : i < n.stored.length := by simpa using (List.getElem?_eq_some_iff.mp ha).1
    have hne : i % numRxDesc ≠ idx := by
      rw [hidx]
      intro he
      have heq := Ring.slot_inj (n := numRxDesc) (r := r) (by omega) le_rfl (by omega) (by omega) he
      omega
    show Function.update n.waiting idx none (i % numRxDesc) = a
    rw [Function.update_of_ne hne]
    exact h.numbers i a (by omega) ha
  · intro j hj
    show Function.update n.waiting idx none j = none
    by_cases hji : j = idx
    · rw [hji, Function.update_self]
    · rw [Function.update_of_ne hji]
      apply h.free
      intro hocc
      exact hj ((Ring.occupied_take hspan j).mpr ⟨hocc, fun _ => hidx ▸ hji⟩)
  · show (n.returned ++ [(number, bytes)]).map Prod.snd = n.stored.take (r + 1)
    rw [List.map_append, h.bytes, List.take_add_one, hbytes]
    rfl
  · show (n.returned ++ [(number, bytes)]).map Prod.fst = (List.range (r + 1)).map some
    rw [List.map_append, h.order, List.range_succ, List.map_append, hnum]
    rfl

/-- The driver's next access keeps the queue, or takes its first frame. -/
theorem Queue.tick (h : Queue n r) (hold : OldestFirst n .tick) :
    Queue (tick n) r ∨ Queue (tick n) (r + 1) := by
  cases hd : n.driver with
  | idle =>
    rw [Net.tick, hd]
    exact .inl h
  | scan rounds idx => exact .inl (h.reads hold hd)
  | found idx => exact .inl (h.copies hd)
  | copied idx number bytes => exact .inl (h.clears hd)
  | cleared idx number bytes => exact .inr (h.returns hd)

theorem Queue.step (h : Queue n r) {e : Event} (hold : OldestFirst n e) :
    ∃ r', Queue (step n e) r' := by
  cases e with
  | arrive f => exact ⟨r, h.arrive hold⟩
  | call timeoutIters =>
    refine ⟨r, ?_⟩
    unfold Net.step
    cases hd : n.driver with
    | idle => exact h.goto (by rw [hd]; exact startRound_cleared _) (startRound_takes _ _)
    | _ => exact h
  | tick =>
    rcases h.tick hold with h | h
    · exact ⟨r, h⟩
    · exact ⟨r + 1, h⟩

theorem Queue.run : ∀ (events : List Event) {n : Nic} {r : ℕ}, Queue n r → AllOldestFirst n events →
    ∃ r', Queue (run n events) r'
  | [], _, r, h, _ => ⟨r, h⟩
  | _ :: es, _, _, h, ho => by
    obtain ⟨r', h'⟩ := h.step ho.1
    exact h'.run es ho.2

/-- **Frames are delivered once and in order** in every run in which the scan
finds no slot set but that of the oldest frame. -/
theorem receive_in_order (events : List Event) (h : AllOldestFirst init events) :
    Delivered (run init events) := by
  obtain ⟨r, hq⟩ := init_queue.run events h
  exact hq.delivered

/-- A call of one round that takes the frame in slot `idx`. -/
def taking (idx : ℕ) : List Event := .call 1 :: List.replicate (idx + 4) .tick

theorem receive_two : Delivered (run init (.arrive [1] :: .arrive [2] :: (taking 0 ++ taking 1))) :=
  receive_in_order _ (by decide)

/-- Seven frames come and are taken, then two more, into slots 7 and 0: the next
call returns the later one. -/
theorem wrapped_backlog : ¬ Delivered (run init
    ((List.range 7).flatMap (fun i => .arrive [UInt8.ofNat i] :: taking i) ++
      (.arrive [7] :: .arrive [8] :: taking 0))) := by
  intro h
  have hprefix := List.isPrefixOf_iff_prefix.mpr h.prefixed
  revert hprefix
  decide +kernel

end Rustrapper.Net

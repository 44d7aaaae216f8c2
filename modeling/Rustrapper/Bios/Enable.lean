/-
# What enabling a device does to its BARs

A whole call of the BIOS `pci_enable_bars`. It takes a device for assigned by
firmware exactly if its first register is not zero. A device it takes for
assigned keeps all its registers, so all of its memory BARs have to hold an
address; on any other device it assigns every BAR anew, so none may hold one,
and the first has to be there for the next call to see what was done
(`enable_completes`).
-/
import Rustrapper.Bios.Pci

namespace Rustrapper.Bios.Pci

open Store.Bump

/-- A call of the BIOS `pci_enable_bars`: at most six turns, and the end of the loop. -/
def enableBars (s : Bus bios) (f : ℕ) : Bus bios := run s (.call f :: List.replicate 7 .turn)

/-- The device's BARs are preserved and complete: the call comes to its end, a
memory BAR with an address still has it, one without has been given one, and a
second call changes no register. -/
structure Completes (s : Bus bios) (f : ℕ) : Prop where
  done : (enableBars s f).at? = none
  kept : ∀ b bar w, BarAt (s.funcs f) b bar → (s.funcs f).decodes b bar = some w → w.base ≠ 0 →
    ((enableBars s f).funcs f).decodes b bar = some w
  given : ∀ b bar w, BarAt (s.funcs f) b bar → (s.funcs f).decodes b bar = some w → w.base = 0 →
    ∃ w', ((enableBars s f).funcs f).decodes b bar = some w' ∧ w'.base ≠ 0
  again : ((enableBars (enableBars s f) f).funcs f).value = ((enableBars s f).funcs f).value

/-- The order of the addresses that a BAR is sized to. -/
def Bar.order : Bar → Option ℕ
  | .unimplemented => none
  | .mem32 k _ => some k
  | .mem64 k _ => some k
  | .io k => some (max k 4)

/-- The BARs, one after the other, find room below 4 GiB. -/
def Roomy : ℕ → List Bar → Prop
  | _, [] => True
  | n, bar :: bars =>
    match bar.order with
    | none => Roomy n bars
    | some k => up n (2 ^ k) + 2 ^ k < 2 ^ 32 ∧ Roomy (up n (2 ^ k) + 2 ^ k) bars

/-- The BAR at register `b` is sized as what it is: it is not a 64-bit one of
4 GiB or more, nor an I/O BAR that reads like a 64-bit one. -/
def Bar.Sized (F : Func) (b : ℕ) : Bar → Prop
  | .mem64 k _ => k < 32
  | .io _ => is64 F b = false
  | _ => True

/-- No BAR has been assigned, and all can be. -/
structure Assignable (s : Bus bios) (f : ℕ) : Prop where
  vacant : ∀ b bar w, BarAt (s.funcs f) b bar → (s.funcs f).decodes b bar = some w → w.base = 0
  sized : ∀ b bar, BarAt (s.funcs f) b bar → bar.Sized (s.funcs f) b
  first : (∃ k p, BarAt (s.funcs f) 0 (.mem32 k p)) ∨ ∀ bar ∈ (s.funcs f).bars, bar = .unimplemented
  unwrapped : 0 < s.next.toNat
  room : Roomy s.next.toNat (s.funcs f).bars

/-- Firmware has assigned every memory BAR, the first register being that of an
assigned or an I/O BAR; or it has assigned none. -/
def Enables (s : Bus bios) (f : ℕ) : Prop :=
  if (s.funcs f).value 0 ≠ 0 then
    ∀ b bar w, BarAt (s.funcs f) b bar → (s.funcs f).decodes b bar = some w → w.base ≠ 0
  else Assignable s f

/-! ### The loop -/

variable {s : Bus bios} {f b : ℕ} {bar : Bar} {F : Func}

theorem regs_pos (bar : Bar) : 0 < bar.regs.length := by cases bar <;> exact Nat.succ_pos _

theorem Bar.Sized.congr {G : Func} (h : bar.Sized F b) (hv : G.value b = F.value b) : bar.Sized G b := by
  cases bar with
  | unimplemented => trivial
  | mem32 k p => trivial
  | mem64 k p => exact h
  | io k =>
    show is64 G b = false
    rw [is64, hv]
    exact h

/-- What the loop leaves from register `c` on. -/
structure Looped (s s' : Bus bios) (f c : ℕ) (after : List Bar) : Prop where
  at_end : s'.at? = some (f, 6)
  next : 0 < s'.next.toNat
  bars : (s'.funcs f).bars = (s.funcs f).bars
  value : ∀ i < c, (s'.funcs f).value i = (s.funcs f).value i
  given : ∀ b bar, c ≤ b → BarAt (s'.funcs f) b bar → bar.memory.isSome →
    ∃ w, (s'.funcs f).decodes b bar = some w ∧ 0 < w.base
  idle : (∀ bar ∈ after, bar = .unimplemented) → (s'.funcs f).value = (s.funcs f).value

theorem run_cons (s : Bus bios) (e : Event) (es : List Event) : run s (e :: es) = run (step s e) es := rfl

theorem run_append (s : Bus bios) (es es' : List Event) : run s (es ++ es') = run (run s es) es' := List.foldl_append

theorem step_turn (hat : s.at? = some (f, b)) (hb : b < 6) : step s .turn = turn s f b := by
  rw [step, hat]
  exact if_pos hb

theorem regsOf_concat (before : List Bar) (bar : Bar) :
    (regsOf (before ++ [bar])).length = (regsOf before).length + bar.regs.length := by simp [regsOf]

theorem BarAt.le_six (h : BarAt F b bar) : b + bar.regs.length ≤ 6 := by
  obtain ⟨before, after, hb, rfl⟩ := h
  have hsix := F.six
  rw [hb] at hsix
  simp only [regsOf, List.flatMap_append, List.flatMap_cons, List.length_append] at hsix ⊢
  omega

/-- What the rest of the loop leaves, behind a turn at the BAR at `c`. -/
theorem Looped.cons {s1 s' : Bus bios} {c : ℕ} {after : List Bar} (hbar : BarAt (s.funcs f) c bar)
    (hbars : (s1.funcs f).bars = (s.funcs f).bars) (hvalue : ∀ i < c, (s1.funcs f).value i = (s.funcs f).value i)
    (hgiven : bar.memory.isSome → ∃ w, (s1.funcs f).decodes c bar = some w ∧ 0 < w.base)
    (hidle : bar = .unimplemented → (s1.funcs f).value = (s.funcs f).value)
    (h : Looped s1 s' f (c + bar.regs.length) after) : Looped s s' f c (bar :: after) where
  at_end := h.at_end
  next := h.next
  bars := h.bars.trans hbars
  value i hi := (h.value i (by omega)).trans (hvalue i hi)
  given b' bar' hle hat hmem := by
    have hat' : BarAt (s.funcs f) b' bar' := hat.congr (h.bars.trans hbars).symm
    rcases hle.lt_or_eq with hlt | rfl
    · exact h.given b' bar' (hbar.apart hat' hlt) hat hmem
    · have heq := hat'.owner.symm.trans hbar.owner
      cases heq
      have hsame : (s'.funcs f).decodes c bar = (s1.funcs f).decodes c bar :=
        decodes_congr fun i _ hi => h.value i hi
      rw [hsame]
      exact hgiven hmem
  idle hall := (h.idle fun b hb => hall b (List.mem_cons_of_mem _ hb)).trans (hidle (hall bar List.mem_cons_self))

/-- A turn at a BAR that is sized as what it is and finds room. -/
theorem turn_sized {k : ℕ} (hbar : BarAt (s.funcs f) b bar) (hsized : bar.Sized (s.funcs f) b)
    (horder : bar.order = some k) (hroom : up s.next.toNat (2 ^ k) + 2 ^ k < 2 ^ 32) :
    ∃ G next, Placed s f b k bar G next ∧ (bar.memory.isSome → G.decodes b bar = some (nextWindow s k)) ∧
      (turn s f b).next = next ∧ (turn s f b).funcs = Function.update s.funcs f G ∧
      (turn s f b).at? = some (f, b + bar.regs.length) := by
  have hmemory : bar.memory = some k → k < 32 → ∃ G next, Placed s f b k bar G next ∧
      (bar.memory.isSome → G.decodes b bar = some (nextWindow s k)) ∧
      (turn s f b).next = next ∧ (turn s f b).funcs = Function.update s.funcs f G ∧
      (turn s f b).at? = some (f, b + bar.regs.length) := by
    intro hmem hk
    obtain ⟨G, next, hplaced, hdec, hturn⟩ := turn_memory_eq hbar hmem hk hroom hroom.le
    rw [hturn]
    exact ⟨G, next, hplaced, fun _ => hdec, rfl, rfl, rfl⟩
  cases bar with
  | unimplemented => cases horder
  | mem32 k' p =>
    cases horder
    exact hmemory rfl hbar.ok.2
  | mem64 k' p =>
    cases horder
    exact hmemory rfl hsized
  | io k' =>
    cases horder
    obtain ⟨G, next, hplaced, hturn⟩ := turn_io_eq hbar hsized hroom
    rw [hturn]
    exact ⟨G, next, hplaced, fun h => absurd h Bool.false_ne_true, rfl, rfl, rfl⟩

/-- **The loop** gives every memory BAR an address, one BAR a turn. -/
theorem loop (after : List Bar) : ∀ (before : List Bar) (s : Bus bios), (s.funcs f).bars = before ++ after →
    s.at? = some (f, (regsOf before).length) → 0 < s.next.toNat → Roomy s.next.toNat after →
    (∀ b bar, (regsOf before).length ≤ b → BarAt (s.funcs f) b bar → bar.Sized (s.funcs f) b) →
    Looped s (run s (List.replicate after.length .turn)) f (regsOf before).length after := by
  induction after with
  | nil =>
    intro before s hbars hat hnext _ _
    rw [List.append_nil] at hbars
    have hsix : (regsOf before).length = 6 := hbars ▸ (s.funcs f).six
    refine ⟨hsix ▸ hat, hnext, rfl, fun _ _ => rfl, fun b bar hle hbar _ => ?_, fun _ => rfl⟩
    have hpos := regs_pos bar
    have hend := hbar.le_six
    omega
  | cons bar after ih =>
    intro before s hbars hat hnext hroom hsized
    have hbar : BarAt (s.funcs f) (regsOf before).length bar := ⟨before, after, hbars, rfl⟩
    have hpos := regs_pos bar
    have hend := hbar.le_six
    have hsplit : before ++ bar :: after = before ++ [bar] ++ after := by rw [List.append_assoc]; rfl
    rw [List.length_cons, List.replicate_succ, run_cons, step_turn hat (by omega)]
    cases horder : bar.order with
    | none =>
      have hun : bar = .unimplemented := by cases bar <;> first | rfl | cases horder
      subst hun
      rw [Roomy, horder] at hroom
      have hrest := ih (before ++ [.unimplemented]) (turn s f (regsOf before).length)
      rw [turn_unimplemented_eq hbar, regsOf_concat] at hrest
      rw [turn_unimplemented_eq hbar]
      refine Looped.cons hbar ?_ ?_ (fun h => absurd h Bool.false_ne_true) ?_
        (hrest (hbars.trans hsplit) rfl hnext hroom fun b bar' hle hbar' => hsized b bar' (by omega) hbar')
      · rfl
      · exact fun _ _ => rfl
      · exact fun _ => rfl
    | some k =>
      rw [Roomy, horder] at hroom
      obtain ⟨G, next, hplaced, hdec, hnext', hfuncs, hat'⟩ :=
        turn_sized hbar (hsized _ bar le_rfl hbar) horder hroom.1
      have hG : (turn s f (regsOf before).length).funcs f = G := by rw [hfuncs, Function.update_self]
      have hbase : (nextWindow s k).base = up s.next.toNat (2 ^ k) := rfl
      have hle := @le_up s.next.toNat _ (Nat.two_pow_pos k)
      refine Looped.cons hbar (by rw [hG, hplaced.bars]) (fun i hi => by rw [hG, hplaced.value i (.inl hi)]) ?_ ?_ ?_
      · intro hmem
        rw [hG]
        exact ⟨_, hdec hmem, by omega⟩
      · rintro rfl
        cases horder
      · rw [← regsOf_concat]
        refine ih (before ++ [bar]) _ ?_ ?_ ?_ ?_ ?_
        · rw [hG, hplaced.bars, hbars, hsplit]
        · rw [hat', regsOf_concat]
        · rw [hnext', hplaced.next]
          exact Nat.add_pos_right _ (Nat.two_pow_pos k)
        · rw [hnext', hplaced.next]
          exact hroom.2
        · intro b bar' hle' hbar'
          rw [hG] at hbar' ⊢
          rw [regsOf_concat] at hle'
          exact (hsized b bar' (by omega) (hbar'.congr hplaced.bars.symm)).congr (hplaced.value b (.inr hle'))

/-! ### The whole call -/

/-- The first register never reads all ones. -/
theorem value_zero_ne_ones (F : Func) : F.value 0 ≠ 0xFFFFFFFF := by
  have hsix := F.six
  cases hbars : F.bars with
  | nil =>
    rw [hbars] at hsix
    cases hsix
  | cons bar bars =>
    have hbar : BarAt F 0 bar := ⟨[], bars, hbars, rfl⟩
    cases bar with
    | unimplemented =>
      rw [hbar.unimplemented_value]
      decide
    | io k => exact hbar.io_ne_ones
    | mem32 k p =>
      have hok : 4 ≤ k ∧ k < 32 := hbar.ok
      have hreg : FirstReg F 0 k 0 p := ⟨hbar.reg (i := 0) rfl, hok.1, by omega, .inl rfl⟩
      exact hreg.ne_ones
    | mem64 k p =>
      have hok : 4 ≤ k ∧ k < 64 := hbar.ok
      have hreg : FirstReg F 0 k 4 p := ⟨hbar.reg (i := 0) rfl, hok.1, hok.2, .inr rfl⟩
      exact hreg.ne_ones

/-- The command register is written, and nothing else. -/
structure SameBars (F G : Func) : Prop where
  bars : G.bars = F.bars
  value : G.value = F.value

theorem SameBars.decodes {G : Func} (h : SameBars F G) (b : ℕ) (bar : Bar) : G.decodes b bar = F.decodes b bar :=
  decodes_congr fun i _ _ => congrFun h.value i

theorem run_turns_idle (hat : s.at? = none) (n : ℕ) : run s (List.replicate n .turn) = s := by
  induction n with
  | zero => rfl
  | succ n ih =>
    have hstep : step s .turn = s := by rw [step, hat]
    rw [List.replicate_succ, run_cons, hstep, ih]

theorem step_call (hat : s.at? = none) : step s (.call f) = enter s f := by
  rw [step, hat]
  rfl

theorem enter_eq (s : Bus bios) (f : ℕ) : enter s f =
    { s with
      funcs := Function.update s.funcs f { s.funcs f with command := (s.funcs f).command ||| bios.entry }
      at? := if (s.funcs f).value 0 ≠ 0 then s.at? else some (f, 0) } := by
  have hskip : ∀ G : Func, G.value = (s.funcs f).value → (bios.skips G = true ↔ (s.funcs f).value 0 ≠ 0) := by
    intro G hG
    rw [← hG]
    exact decide_eq_true_iff.trans (and_iff_left (value_zero_ne_ones G))
  unfold enter
  dsimp only
  by_cases h0 : (s.funcs f).value 0 = 0
  · rw [if_neg (mt (hskip _ (by rw [Function.update_self])).mp (not_not_intro h0)), if_neg (not_not_intro h0)]
  · rw [if_pos ((hskip _ (by rw [Function.update_self])).mpr h0), if_pos h0]

theorem enter_same (s : Bus bios) (f : ℕ) : SameBars (s.funcs f) ((enter s f).funcs f) := by
  rw [enter_eq]
  dsimp only
  rw [Function.update_self]
  exact ⟨rfl, rfl⟩

/-- A device that is taken for assigned is left as it is. -/
theorem enableBars_skip (hat : s.at? = none) (h0 : (s.funcs f).value 0 ≠ 0) :
    (enableBars s f).at? = none ∧ SameBars (s.funcs f) ((enableBars s f).funcs f) := by
  have hnone : (enter s f).at? = none := by
    rw [enter_eq]
    exact (if_pos h0).trans hat
  rw [enableBars, run_cons, step_call hat, run_turns_idle hnone]
  exact ⟨hnone, enter_same s f⟩

theorem length_le_regs (bars : List Bar) : bars.length ≤ (regsOf bars).length := by
  induction bars with
  | nil => exact le_rfl
  | cons bar bars ih =>
    have hpos := regs_pos bar
    simp only [regsOf, List.flatMap_cons, List.length_append, List.length_cons] at ih ⊢
    omega

/-- On any other device the loop goes through all its BARs, and the call ends. -/
theorem enableBars_loop (hat : s.at? = none) (h0 : (s.funcs f).value 0 = 0)
    (hsized : ∀ b bar, BarAt (s.funcs f) b bar → bar.Sized (s.funcs f) b) (hnext : 0 < s.next.toNat)
    (hroom : Roomy s.next.toNat (s.funcs f).bars) : ∃ s', Looped (enter s f) s' f 0 (s.funcs f).bars ∧
      (enableBars s f).at? = none ∧ (enableBars s f).next = s'.next ∧
      SameBars (s'.funcs f) ((enableBars s f).funcs f) := by
  have hsame := enter_same s f
  have hstart : (enter s f).at? = some (f, 0) ∧ (enter s f).next = s.next := by
    rw [enter_eq]
    exact ⟨if_neg (not_not_intro h0), rfl⟩
  have hlooped := loop (f := f) (s.funcs f).bars [] (enter s f) hsame.bars hstart.1 (by rwa [hstart.2])
    (by rwa [hstart.2]) fun b bar _ hbar => (hsized b bar (hbar.congr hsame.bars.symm)).congr (congrFun hsame.value b)
  have hlen : (s.funcs f).bars.length ≤ 6 := (length_le_regs _).trans_eq (s.funcs f).six
  have hturns : List.replicate 7 Event.turn = List.replicate (s.funcs f).bars.length .turn ++
      (.turn :: List.replicate (6 - (s.funcs f).bars.length) .turn) := by
    rw [← List.replicate_succ, List.replicate_append_replicate]
    congr 1
    omega
  refine ⟨_, hlooped, ?_⟩
  have hend := hlooped.at_end
  have hcall : enableBars s f = run (leave (run (enter s f) (List.replicate (s.funcs f).bars.length .turn)) f)
      (List.replicate (6 - (s.funcs f).bars.length) .turn) := by
    have hleave : step (run (enter s f) (List.replicate (s.funcs f).bars.length .turn)) .turn =
        leave (run (enter s f) (List.replicate (s.funcs f).bars.length .turn)) f := by
      rw [step, hend]
      rfl
    rw [enableBars, run_cons, step_call hat, hturns]
    rw [run_append, run_cons, hleave]
  rw [hcall, run_turns_idle rfl]
  refine ⟨rfl, rfl, ?_⟩
  unfold leave
  dsimp only
  rw [Function.update_self]
  exact ⟨rfl, rfl⟩

/-- A memory BAR, and no other, has an address. -/
theorem decodes_isSome (F : Func) (b : ℕ) (bar : Bar) : (F.decodes b bar).isSome = bar.memory.isSome := by
  cases bar <;> rfl

theorem roomy_of_unimplemented {bars : List Bar} (n : ℕ) (h : ∀ bar ∈ bars, bar = .unimplemented) : Roomy n bars := by
  induction bars with
  | nil => trivial
  | cons bar bars ih =>
    rw [h bar List.mem_cons_self]
    exact ih fun b hb => h b (List.mem_cons_of_mem _ hb)

/-- A device none of whose BARs is assigned. -/
theorem Assignable.completes (hat : s.at? = none) (h0 : (s.funcs f).value 0 = 0) (h : Assignable s f) :
    Completes s f := by
  obtain ⟨s', hlooped, hdone, hnext, hsame⟩ := enableBars_loop hat h0 h.sized h.unwrapped h.room
  have henter := enter_same s f
  have hbars : ((enableBars s f).funcs f).bars = (s.funcs f).bars := hsame.bars.trans (hlooped.bars.trans henter.bars)
  have hgiven : ∀ b bar w, BarAt (s.funcs f) b bar → (s.funcs f).decodes b bar = some w →
      ∃ w', ((enableBars s f).funcs f).decodes b bar = some w' ∧ w'.base ≠ 0 := by
    intro b bar w hbar hdec
    have hmem : bar.memory.isSome := by
      rw [← decodes_isSome (s.funcs f) b bar, hdec]
      rfl
    obtain ⟨w', hdec', hbase⟩ :=
      hlooped.given b bar (Nat.zero_le b) (hbar.congr (hlooped.bars.trans henter.bars)) hmem
    exact ⟨w', (hsame.decodes b bar).trans hdec', hbase.ne'⟩
  refine ⟨hdone, fun b bar w hbar hdec hbase => absurd (h.vacant b bar w hbar hdec) hbase,
    fun b bar w hbar hdec _ => hgiven b bar w hbar hdec, ?_⟩
  rcases h.first with ⟨k, p, hfirst⟩ | hnone
  · -- the first BAR has an address now, so the next call leaves the device alone
    obtain ⟨w', hdec, hbase⟩ := hgiven 0 _ _ hfirst rfl
    have h0' : ((enableBars s f).funcs f).value 0 ≠ 0 := by
      intro hzero
      cases hdec
      rw [hzero] at hbase
      exact hbase rfl
    exact (enableBars_skip hdone h0').2.value
  · -- there is nothing to assign, in this call or the next one
    have hvalue : ((enableBars s f).funcs f).value = (s.funcs f).value :=
      hsame.value.trans ((hlooped.idle hnone).trans henter.value)
    have hun : ∀ b bar, BarAt ((enableBars s f).funcs f) b bar → bar = .unimplemented := by
      rintro b bar ⟨before, after, hb, -⟩
      exact hnone bar (by rw [← hbars, hb]; simp)
    have hsized : ∀ b bar, BarAt ((enableBars s f).funcs f) b bar → bar.Sized ((enableBars s f).funcs f) b := by
      intro b bar hbar
      rw [hun b bar hbar]
      trivial
    obtain ⟨s'', hlooped', -, -, hsame'⟩ := enableBars_loop hdone (by rw [hvalue]; exact h0) hsized
      (by rw [hnext]; exact hlooped.next) (by rw [hbars]; exact roomy_of_unimplemented _ hnone)
    exact hsame'.value.trans ((hlooped'.idle (by rwa [hbars])).trans (enter_same _ f).value)

/-- **Enabling a device** preserves and completes its BARs if firmware has
assigned all of its memory BARs, or none and all can be; if the first register
is not zero, only then. -/
theorem enable_completes (s : Bus bios) (f : ℕ) (hat : s.at? = none) :
    (Enables s f → Completes s f) ∧ ((s.funcs f).value 0 ≠ 0 → Completes s f → Enables s f) := by
  by_cases h0 : (s.funcs f).value 0 = 0
  · rw [Enables, if_neg (not_not_intro h0)]
    exact ⟨Assignable.completes hat h0, fun hne => absurd h0 hne⟩
  · obtain ⟨hdone, hsame⟩ := enableBars_skip hat h0
    have h0' : ((enableBars s f).funcs f).value 0 ≠ 0 := by rwa [hsame.value]
    rw [Enables, if_pos h0]
    refine ⟨fun hall => ⟨hdone, fun b bar w _ hdec _ => (hsame.decodes b bar).trans hdec,
      fun b bar w hbar hdec hbase => absurd hbase (hall b bar w hbar hdec), (enableBars_skip hdone h0').2.value⟩, ?_⟩
    intro _ hcompletes b bar w hbar hdec hbase
    obtain ⟨w', hdec', hbase'⟩ := hcompletes.given b bar w hbar hdec hbase
    rw [hsame.decodes, hdec] at hdec'
    cases hdec'
    exact hbase' hbase

theorem oneBar_value (i : ℕ) : oneBar.value i = 0 := by rcases i with - | - | - | - | - | - | i <;> rfl

/-- A device with one unassigned BAR of 4 KiB. -/
theorem one_bar_completes : Completes (start bios fun _ => oneBar) 0 := by
  refine (enable_completes (start bios fun _ => oneBar) 0 rfl).1 ((if_neg (not_not_intro (oneBar_value 0))).mpr ?_)
  have hbars : ∀ b bar, BarAt oneBar b bar → bar = .mem32 12 false ∨ bar = .unimplemented := by
    rintro b bar ⟨before, after, hb, -⟩
    have hmem : bar ∈ oneBar.bars := by rw [hb]; simp
    simpa [oneBar, Func.unassigned] using hmem
  refine ⟨fun b bar w hbar hdec => ?_, fun b bar hbar => ?_, .inl ⟨12, false, [], _, rfl, rfl⟩, by decide, ?_⟩
  · rcases hbars b bar hbar with rfl | rfl
    · cases hdec
      show (oneBar.value b &&& ~~~0xF).toNat = 0
      rw [oneBar_value]
      rfl
    · cases hdec
  · rcases hbars b bar hbar with rfl | rfl <;> trivial
  · exact ⟨by decide +kernel, trivial⟩

/-- A function with one 64-bit BAR of 1 MiB. -/
def wideBar : Func :=
  .unassigned [.mem64 20 false, .unimplemented, .unimplemented, .unimplemented, .unimplemented] (by decide) (by decide)

/-- The first register of an unassigned 64-bit BAR reads its type bits, and is taken for an address. -/
theorem wide_bar_skipped : ¬ ∀ (s : Bus bios) (f : ℕ), s.at? = none → Completes s f := by
  intro hall
  have hzero : wideBar.decodes 0 (.mem64 20 false) = some ⟨0, 2 ^ 20⟩ := by decide +kernel
  have hskipped : ((enableBars (start bios fun _ => wideBar) 0).funcs 0).decodes 0 (.mem64 20 false) =
      some ⟨0, 2 ^ 20⟩ := by decide +kernel
  obtain ⟨w, hdec, hbase⟩ := (hall (start bios fun _ => wideBar) 0 rfl).given 0 _ _ ⟨[], _, rfl, rfl⟩ hzero rfl
  rw [hskipped] at hdec
  cases hdec
  exact hbase rfl

end Rustrapper.Bios.Pci

/-
# Parsing with fewer captures

Which locals are captured, and which names a function has as upvalues, does not
decide what the functions around the parser's position accept. `Like L k s t`:
the states differ only in the captures of the oldest `L` locals and in the
upvalues of all functions but the `k` innermost, where `t` has fewer. Every
parser keeps the relation (`parserAt_like`): what it yields from `s` it yields
from `t`.
-/
import Rustrapper.Effect.Ensures
import Rustrapper.Effect.Paired
import Rustrapper.Lua.Parse

namespace Rustrapper
namespace Lua

open Effect

/-! ### Locals -/

/-- The same locals, up to the captures of the oldest `L`. -/
inductive SameLocals (L : ℕ) : List LocalRec → List LocalRec → Prop where
  | nil : SameLocals L [] []
  | cons {a b : LocalRec} {as bs : List LocalRec} (name : a.name = b.name) (func : a.func = b.func)
    (eq : L ≤ as.length → a = b) (rest : SameLocals L as bs) : SameLocals L (a :: as) (b :: bs)

/-- Mark the first local of the name as captured. -/
def markCaptured (name : StrRef) (ls : List LocalRec) : List LocalRec :=
  updateFirst (fun l => l.name = name) (fun l => { l with captured := true }) ls

theorem length_markCaptured (name : StrRef) (ls : List LocalRec) :
    (markCaptured name ls).length = ls.length := by
  induction ls with
  | nil => rfl
  | cons l ls ih =>
    unfold markCaptured at ih ⊢
    unfold updateFirst
    split_ifs
    · rfl
    · exact congrArg (· + 1) ih

theorem at?_cons (a : LocalRec) (as : List LocalRec) (i : ℕ) :
    at? (a :: as) i = if i = as.length then some a else at? as i := by
  unfold at?
  rw [List.length_cons]
  by_cases hi : i = as.length
  · rw [if_pos hi, if_pos (by omega), show as.length + 1 - 1 - i = 0 by omega]
    rfl
  · rw [if_neg hi]
    by_cases hlt : i < as.length
    · rw [if_pos (by omega), if_pos hlt, show as.length + 1 - 1 - i = as.length - 1 - i + 1 by omega]
      rfl
    · rw [if_neg (by omega), if_neg hlt]

section Locals
variable {L : ℕ} {as bs : List LocalRec}

theorem SameLocals.refl (L : ℕ) (as : List LocalRec) : SameLocals L as as := by
  induction as with
  | nil => exact .nil
  | cons a as ih => exact .cons rfl rfl (fun _ => rfl) ih

theorem SameLocals.length (h : SameLocals L as bs) : as.length = bs.length := by
  induction h with
  | nil => rfl
  | cons _ _ _ _ ih => exact congrArg (· + 1) ih

theorem SameLocals.mono (h : SameLocals L as bs) {L' : ℕ} (hL : L ≤ L') : SameLocals L' as bs := by
  induction h with
  | nil => exact .nil
  | cons hn hf heq _ ih => exact .cons hn hf (fun hl => heq (hL.trans hl)) ih

theorem SameLocals.drop (h : SameLocals L as bs) (n : ℕ) : SameLocals L (as.drop n) (bs.drop n) := by
  induction n generalizing as bs with
  | zero => exact h
  | succ n ih =>
    cases h with
    | nil => exact .nil
    | cons _ _ _ hrest => exact ih hrest

/-- A name is found at the same function. -/
theorem SameLocals.find (h : SameLocals L as bs) (name : StrRef) :
    (as.find? fun l => l.name = name).map LocalRec.func =
      (bs.find? fun l => l.name = name).map LocalRec.func := by
  induction h with
  | nil => rfl
  | @cons a b as bs hn hf _ _ ih =>
    by_cases ha : a.name = name
    · simp [ha, ← hn, hf]
    · simpa [ha, ← hn] using ih

theorem SameLocals.capture (h : SameLocals L as bs) (name : StrRef) :
    SameLocals L (markCaptured name as) (markCaptured name bs) := by
  induction h with
  | nil => exact .nil
  | @cons a b as bs hn hf heq hrest ih =>
    unfold markCaptured updateFirst
    by_cases ha : a.name = name
    · rw [if_pos (by simpa using ha), if_pos (by simpa [← hn] using ha)]
      exact .cons hn hf (fun hl => congrArg (fun l => { l with captured := true }) (heq hl)) hrest
    · rw [if_neg (by simpa using ha), if_neg (by simpa [← hn] using ha)]
      refine .cons hn hf (fun hl => heq ?_) ih
      rwa [← length_markCaptured name as]

/-- A capture on one side, among the oldest. -/
theorem SameLocals.capture_left (h : SameLocals L as bs) (hL : as.length ≤ L) (name : StrRef) :
    SameLocals L (markCaptured name as) bs := by
  induction h with
  | nil => exact .nil
  | @cons a b as bs hn hf heq hrest ih =>
    have hlt : as.length < L := hL
    unfold markCaptured updateFirst
    split_ifs
    · exact .cons hn hf (fun hl => absurd hl (Nat.not_le.mpr hlt)) hrest
    · refine .cons hn hf (fun hl => absurd hl (Nat.not_le.mpr ?_)) (ih hlt.le)
      exact (length_markCaptured name as).trans_lt hlt

/-- The locals above the oldest `L` are the same. -/
theorem SameLocals.at? (h : SameLocals L as bs) {i : ℕ} (hi : L ≤ i) : at? as i = Lua.at? bs i := by
  induction h with
  | nil => rfl
  | @cons a b as bs hn hf heq hrest ih =>
    rw [at?_cons, at?_cons, ← hrest.length, ih]
    by_cases hlen : i = as.length
    · rw [if_pos hlen, if_pos hlen, heq (hlen ▸ hi)]
    · rw [if_neg hlen, if_neg hlen]

end Locals

/-! ### Upvalues -/

/-- The upvalues `g` are fewer than `f`: names that are missing leave room. -/
def FewerUps (f g : List StrRef) : Prop :=
  f = g ∨ f.length ≤ MAX_UPVALS ∧ g ⊆ f ∧ g.length + (f.toFinset \ g.toFinset).card ≤ f.length

theorem addUp_some {name : StrRef} {f f' : List StrRef} (h : addUp name f = some f') :
    name ∈ f ∧ f' = f ∨ name ∉ f ∧ f.length < MAX_UPVALS ∧ f' = f ++ [name] := by
  unfold addUp at h
  split_ifs at h with hmem hroom
  · cases h
    exact .inl ⟨hmem, rfl⟩
  · cases h
    exact .inr ⟨hmem, not_le.mp hroom, rfl⟩

/-- What is missing after a name was added to the larger side. -/
theorem missing_append (f g : List StrRef) (name : StrRef) :
    ((f ++ [name]).toFinset \ g.toFinset).card ≤ (f.toFinset \ g.toFinset).card + 1 := by
  have hsub : (f ++ [name]).toFinset \ g.toFinset ⊆ insert name (f.toFinset \ g.toFinset) := by
    intro x hx
    simp only [List.toFinset_append, Finset.mem_sdiff, Finset.mem_union, List.mem_toFinset,
      List.mem_singleton, Finset.mem_insert] at hx ⊢
    tauto
  exact (Finset.card_le_card hsub).trans (Finset.card_insert_le _ _)

theorem missing_append_both (f g : List StrRef) (name : StrRef) :
    ((f ++ [name]).toFinset \ (g ++ [name]).toFinset).card ≤ (f.toFinset \ g.toFinset).card := by
  apply Finset.card_le_card
  intro x hx
  simp only [List.toFinset_append, Finset.mem_sdiff, Finset.mem_union, List.mem_toFinset,
    List.mem_singleton] at hx ⊢
  tauto

/-- What is missing after a name that was there was added to the smaller side. -/
theorem missing_append_right {f g : List StrRef} {name : StrRef} (hf : name ∈ f) (hg : name ∉ g) :
    (f.toFinset \ (g ++ [name]).toFinset).card < (f.toFinset \ g.toFinset).card := by
  apply Finset.card_lt_card
  rw [Finset.ssubset_iff_of_subset]
  · refine ⟨name, by simp [hf, hg], by simp⟩
  · intro x hx
    simp only [List.toFinset_append, Finset.mem_sdiff, Finset.mem_union, List.mem_toFinset,
      List.mem_singleton] at hx ⊢
    tauto

/-- What one side has room for the other has room for. -/
theorem FewerUps.add {f g f' : List StrRef} {name : StrRef} (h : FewerUps f g)
    (hf : addUp name f = some f') : ∃ g', addUp name g = some g' ∧ FewerUps f' g' := by
  rcases h with rfl | ⟨hroom, hsub, hcount⟩
  · exact ⟨f', hf, .inl rfl⟩
  by_cases hg : name ∈ g
  · rcases addUp_some hf with ⟨-, rfl⟩ | ⟨hnf, -⟩
    · exact ⟨g, if_pos hg, .inr ⟨hroom, hsub, hcount⟩⟩
    · exact absurd (hsub hg) hnf
  · rcases addUp_some hf with ⟨hmem, rfl⟩ | ⟨hnf, hlt, rfl⟩
    · have hless := missing_append_right hmem hg
      have hfit : ¬g.length ≥ MAX_UPVALS := by omega
      refine ⟨g ++ [name], ?_, .inr ⟨hroom, ?_, ?_⟩⟩
      · rw [addUp, if_neg hg, if_neg hfit]
      · exact List.append_subset.mpr ⟨hsub, by simpa using hmem⟩
      · rw [List.length_append, List.length_singleton]
        omega
    · have hboth := missing_append_both f g name
      have hfit : ¬g.length ≥ MAX_UPVALS := by omega
      refine ⟨g ++ [name], ?_, .inr ⟨?_, ?_, ?_⟩⟩
      · rw [addUp, if_neg hg, if_neg hfit]
      · rw [List.length_append, List.length_singleton]
        exact hlt
      · exact List.append_subset.mpr ⟨List.Subset.trans hsub (List.subset_append_left _ _),
          List.subset_append_right _ _⟩
      · rw [List.length_append, List.length_append, List.length_singleton]
        omega

/-- A name more on the larger side. -/
theorem FewerUps.add_left {f g f' : List StrRef} {name : StrRef} (h : FewerUps f g)
    (hf : addUp name f = some f') : FewerUps f' g := by
  rcases addUp_some hf with ⟨-, rfl⟩ | ⟨-, hlt, rfl⟩
  · exact h
  have hmore := missing_append f g name
  have hlen : (f ++ [name]).length = f.length + 1 := by simp
  refine .inr ⟨?_, ?_, ?_⟩
  · rw [hlen]
    exact hlt
  · rcases h with rfl | ⟨-, hsub, -⟩
    · exact List.subset_append_left _ _
    · exact List.Subset.trans hsub (List.subset_append_left _ _)
  · rcases h with rfl | ⟨-, -, hcount⟩
    · rw [Finset.sdiff_self, Finset.card_empty] at hmore
      omega
    · omega

/-- The same functions, the `k` innermost with the same upvalues and the others
with fewer. -/
inductive SameFuncs : ℕ → List (List StrRef) → List (List StrRef) → Prop where
  | nil (k : ℕ) : SameFuncs k [] []
  | inner {k : ℕ} (f : List StrRef) {fs gs : List (List StrRef)} (rest : SameFuncs k fs gs) :
    SameFuncs (k + 1) (f :: fs) (f :: gs)
  | outer {f g : List StrRef} {fs gs : List (List StrRef)} (fewer : FewerUps f g)
    (rest : SameFuncs 0 fs gs) : SameFuncs 0 (f :: fs) (g :: gs)

section Funcs
variable {k : ℕ} {fs gs : List (List StrRef)}

theorem SameFuncs.refl (fs : List (List StrRef)) : SameFuncs 0 fs fs := by
  induction fs with
  | nil => exact .nil 0
  | cons f fs ih => exact .outer (.inl rfl) ih

theorem SameFuncs.length (h : SameFuncs k fs gs) : fs.length = gs.length := by
  induction h with
  | nil => rfl
  | inner _ _ ih => exact congrArg (· + 1) ih
  | outer _ _ ih => exact congrArg (· + 1) ih

/-- Leave a function. -/
theorem SameFuncs.tail (h : SameFuncs (k + 1) fs gs) :
    fs.headD [] = gs.headD [] ∧ SameFuncs k fs.tail gs.tail := by
  cases h with
  | nil => exact ⟨rfl, .nil k⟩
  | inner f hrest => exact ⟨rfl, hrest⟩

theorem addUps_cons {name : StrRef} {j : ℕ} {f : List StrRef} {fs fs' : List (List StrRef)}
    (h : addUps name (j + 1) (f :: fs) = some fs') :
    ∃ f₁ fs₁, addUp name f = some f₁ ∧ addUps name j fs = some fs₁ ∧ fs' = f₁ :: fs₁ := by
  rw [addUps] at h
  simp only [Option.bind_eq_bind, Option.bind_eq_some_iff] at h
  obtain ⟨fs₁, hfs, f₁, hf, heq⟩ := h
  exact ⟨f₁, fs₁, hf, hfs, (Option.some.inj heq).symm⟩

theorem addUps_eq {name : StrRef} {j : ℕ} {f f₁ : List StrRef} {fs fs₁ : List (List StrRef)}
    (hf : addUp name f = some f₁) (hfs : addUps name j fs = some fs₁) :
    addUps name (j + 1) (f :: fs) = some (f₁ :: fs₁) := by
  rw [addUps, hfs, hf]
  rfl

theorem SameFuncs.addUps (h : SameFuncs k fs gs) {name : StrRef} {j : ℕ} {fs' : List (List StrRef)}
    (hfs : addUps name j fs = some fs') : ∃ gs', addUps name j gs = some gs' ∧ SameFuncs k fs' gs' := by
  induction h generalizing j fs' with
  | nil k =>
    cases j with
    | zero =>
      cases hfs
      exact ⟨[], rfl, .nil k⟩
    | succ j =>
      cases hfs
      exact ⟨[], rfl, .nil k⟩
  | @inner k f fs gs hrest ih =>
    cases j with
    | zero =>
      cases hfs
      exact ⟨_, rfl, .inner f hrest⟩
    | succ j =>
      obtain ⟨f₁, fs₁, hf, hfs₁, rfl⟩ := addUps_cons hfs
      obtain ⟨gs₁, hgs, hsame⟩ := ih hfs₁
      exact ⟨f₁ :: gs₁, addUps_eq hf hgs, .inner f₁ hsame⟩
  | @outer f g fs gs hfg hrest ih =>
    cases j with
    | zero =>
      cases hfs
      exact ⟨_, rfl, .outer hfg hrest⟩
    | succ j =>
      obtain ⟨f₁, fs₁, hf, hfs₁, rfl⟩ := addUps_cons hfs
      obtain ⟨g₁, hg, hfewer⟩ := hfg.add hf
      obtain ⟨gs₁, hgs, hsame⟩ := ih hfs₁
      exact ⟨g₁ :: gs₁, addUps_eq hg hgs, .outer hfewer hsame⟩

theorem SameFuncs.addUps_left (h : SameFuncs 0 fs gs) {name : StrRef} {j : ℕ} {fs' : List (List StrRef)}
    (hfs : Lua.addUps name j fs = some fs') : SameFuncs 0 fs' gs := by
  induction j generalizing fs gs fs' with
  | zero =>
    cases hfs
    exact h
  | succ j ih =>
    cases h with
    | nil =>
      cases hfs
      exact .nil 0
    | outer hfg hrest =>
      obtain ⟨f₁, fs₁, hf, hfs₁, rfl⟩ := addUps_cons hfs
      exact .outer (hfg.add_left hf) (ih hrest hfs₁)

end Funcs

/-! ### States -/

/-- `t` is `s` with other captures of the oldest `L` locals, and with fewer
upvalues of the functions outside the `k` innermost. -/
structure Like (L k : ℕ) (s t : PState) : Prop where
  same : t = { s with locals := t.locals, funcs := t.funcs }
  locals : SameLocals L s.locals t.locals
  room : L ≤ s.locals.length
  funcs : SameFuncs k s.funcs t.funcs

section Like
variable {L k : ℕ} {s t : PState}

theorem Like.refl (s : PState) : Like s.locals.length 0 s s :=
  ⟨rfl, .refl _ _, le_rfl, .refl _⟩

/-- All locals there are may have other captures from here on. -/
theorem Like.rebase (h : Like L k s t) : Like s.locals.length k s t :=
  ⟨h.same, h.locals.mono h.room, le_rfl, h.funcs⟩

theorem Like.cur (h : Like L k s t) : t.cur = s.cur := by rw [h.same]

theorem Like.rest (h : Like L k s t) : t.rest = s.rest := by rw [h.same]

theorem Like.funcLevel (h : Like L k s t) : t.funcLevel = s.funcLevel := by
  unfold PState.funcLevel
  rw [h.funcs.length]

/-- A change of anything but the locals and the functions. -/
theorem Like.write (h : Like L k s t) (u : PState) (hl : u.locals = s.locals) (hf : u.funcs = s.funcs) :
    Like L k u { u with locals := t.locals, funcs := t.funcs } :=
  ⟨rfl, hl ▸ h.locals, hl ▸ h.room, hf ▸ h.funcs⟩

/-- Computations that neither read nor write captures. -/
theorem Keeps.of_blind {α : Type} {x : ParseM α}
    (h : ∀ s a s', x s = .ok a s' → s'.locals = s.locals ∧ s'.funcs = s.funcs ∧
      ∀ l f, x { s with locals := l, funcs := f } = .ok a { s' with locals := l, funcs := f }) :
    Keeps (Like L k) x := by
  intro s t a s' hs hx
  obtain ⟨hl, hf, hany⟩ := h s a s' hx
  refine ⟨{ s' with locals := t.locals, funcs := t.funcs }, ?_, hs.write s' hl hf⟩
  rw [hs.same]
  exact hany _ _

theorem like_cur : Keeps (Like L k) cur := by
  refine Keeps.of_blind fun s a s' hx => ?_
  cases hx
  exact ⟨rfl, rfl, fun _ _ => rfl⟩

theorem like_advance : Keeps (Like L k) advance := by
  refine Keeps.of_blind fun s a s' hx => ?_
  unfold advance at hx ⊢
  have hx := (run_get _).symm.trans hx
  rcases hn : nextToken s.rest with ⟨r, rest⟩
  rw [hn] at hx
  cases r with
  | error m => cases hx
  | ok t =>
    cases hx
    refine ⟨rfl, rfl, fun l f => (run_get _).trans ?_⟩
    rw [hn]
    rfl

theorem like_optSemi : Keeps (Like L k) optSemi := by
  refine Keeps.of_blind fun s a s' hx => ?_
  unfold optSemi at hx ⊢
  have hx := (run_get _).symm.trans hx
  by_cases hc : s.cur = .semi
  · rw [if_pos hc] at hx
    rcases hn : nextToken s.rest with ⟨r, rest⟩
    rw [hn] at hx
    cases r with
    | error m =>
      cases hx
      refine ⟨rfl, rfl, fun l f => (run_get _).trans ?_⟩
      rw [if_pos hc, hn]
      rfl
    | ok t =>
      cases hx
      refine ⟨rfl, rfl, fun l f => (run_get _).trans ?_⟩
      rw [if_pos hc, hn]
      rfl
  · rw [if_neg hc] at hx
    cases hx
    refine ⟨rfl, rfl, fun l f => (run_get _).trans ?_⟩
    rw [if_neg hc]
    rfl

theorem like_internP (b : List UInt8) : Keeps (Like L k) (internP b) := by
  refine Keeps.of_blind fun s a s' hx => ?_
  unfold internP at hx ⊢
  have hx := (run_get _).symm.trans hx
  cases hi : s.heap.intern b with
  | error m =>
    rw [hi] at hx
    cases hx
  | ok r =>
    rw [hi] at hx
    cases hx
    refine ⟨rfl, rfl, fun l f => (run_get _).trans ?_⟩
    rw [hi]
    rfl

theorem Like.exists (h : Like L k s t) : ∃ l f, t = { s with locals := l, funcs := f } :=
  ⟨_, _, h.same⟩

/-- Write two states that are alike, and go on. -/
theorem Like.set {α : Type} {u v : PState} (h : Like L k u v) {f : PUnit → ParseM α}
    (hf : Keeps (Like L k) (f ⟨⟩)) :
    Paired (fun s' t' => s' = s ∧ t' = t) (set u >>= f) (set v >>= f) fun _ => Like L k :=
  Paired.bind (Q := fun _ => Like L k) (Paired.set fun _ _ _ => h) fun _ => hf

theorem like_alloc : Keeps (Like L k) alloc := by
  refine Paired.get fun s t h => ?_
  obtain ⟨l, f, rfl⟩ := h.exists
  refine Paired.ite Paired.throw ?_
  exact Like.set (h.write _ (by rfl) (by rfl)) (.pure _)

theorem like_allocFunc (params : List StrRef) (body : Block) (ups : List StrRef) :
    Keeps (Like L k) (allocFunc params body ups) := by
  refine Paired.get fun s t h => ?_
  obtain ⟨l, f, rfl⟩ := h.exists
  refine Paired.ite Paired.throw (Paired.ite Paired.throw ?_)
  exact Like.set (h.write _ (by rfl) (by rfl)) (.pure _)

theorem like_recordLabel (name : StrRef) (node : ℕ) : Keeps (Like L k) (recordLabel name node) := by
  refine Paired.get fun s t h => ?_
  obtain ⟨l, f, rfl⟩ := h.exists
  refine Paired.ite Paired.throw ?_
  exact Paired.set fun _ _ _ => h.write _ rfl rfl

theorem like_addGoto (i node : ℕ) (name : StrRef) : Keeps (Like L k) (addGoto i node name) := by
  refine Paired.get fun s t h => ?_
  obtain ⟨l, f, rfl⟩ := h.exists
  refine Paired.ite Paired.throw ?_
  exact Paired.set fun _ _ _ => h.write _ rfl rfl

/-- Change anything but the locals and the functions. -/
theorem like_modify (g : PState → PState)
    (hg : ∀ s l f, g { s with locals := l, funcs := f } = { g s with locals := l, funcs := f }) :
    Keeps (Like L k) (modify g : ParseM PUnit) := by
  refine Paired.modify fun s t h => ?_
  have hgs : g s = { g s with locals := s.locals, funcs := s.funcs } := hg s s.locals s.funcs
  have hgt : g t = { g s with locals := t.locals, funcs := t.funcs } := (congrArg g h.same).trans (hg s _ _)
  rw [hgt]
  exact h.write (g s) (congrArg PState.locals hgs :) (congrArg PState.funcs hgs :)

theorem like_recordGoto (node : ℕ) (name : StrRef) : Keeps (Like L k) (recordGoto node name) := by
  refine Paired.get fun s t h => ?_
  have hn : t.nScopes = s.nScopes := by rw [h.same]
  rw [hn]
  exact Paired.from (like_addGoto _ _ _) h

theorem like_patchGoto (node target : ℕ) : Keeps (Like L k) (patchGoto node target) :=
  like_modify _ fun _ _ _ => rfl

theorem like_resolveGotos (i : ℕ) (gs : List (ℕ × StrRef)) : Keeps (Like L k) (resolveGotos i gs) := by
  induction gs with
  | nil => exact .pure _
  | cons g gs ih =>
    obtain ⟨node, name⟩ := g
    unfold resolveGotos
    refine Paired.get fun s t h => ?_
    have hs : t.scopes = s.scopes := by rw [h.same]
    rw [hs]
    cases findLabel s.scopes name i with
    | some target => exact Paired.from (Paired.bind (like_patchGoto node target) fun _ => ih) h
    | none =>
      dsimp only
      split_ifs
      · exact Paired.throw_bind
      · exact Paired.from (Paired.bind (like_addGoto _ _ _) fun _ => ih) h

theorem like_resolveScope : Keeps (Like L k) resolveScope := by
  refine Paired.get fun s t h => ?_
  have hs : t.scopes = s.scopes := by rw [h.same]
  have hn : t.nScopes = s.nScopes := by rw [h.same]
  rw [hs, hn]
  exact Paired.from (Paired.bind (like_resolveGotos _ _) fun _ => like_modify _ fun _ _ _ => rfl) h

/-! ### What resolves names -/

theorem like_resolveName (name : StrRef) : Keeps (Like L k) (resolveName name) := by
  refine Paired.get fun s t h => ?_
  have hfind := h.locals.find name
  cases hs : s.locals.find? fun l => l.name = name with
  | none =>
    rw [hs] at hfind
    rw [Option.map_eq_none_iff.mp hfind.symm]
    exact Paired.ret fun _ _ hst => hst.1 ▸ hst.2 ▸ h
  | some a =>
    rw [hs] at hfind
    obtain ⟨b, hb, hfunc⟩ := Option.map_eq_some_iff.mp hfind.symm
    rw [hb]
    dsimp only
    rw [hfunc, h.funcLevel, ← h.funcs.length]
    refine Paired.ite (Paired.ret fun _ _ hst => hst.1 ▸ hst.2 ▸ h) ?_
    cases hu : addUps name (s.funcs.length - (a.func + 1)) s.funcs with
    | none => exact Paired.throw
    | some fs =>
      obtain ⟨gs, hgs, hsame⟩ := h.funcs.addUps hu
      rw [hgs]
      refine Paired.set fun _ _ _ => ?_
      refine ⟨?_, h.locals.capture name, ?_, hsame⟩
      · rw [h.same]
      · exact h.room.trans_eq (length_markCaptured name s.locals).symm

/-- A name that only one side resolves, where all captures may differ. -/
theorem Like.resolve_left (h : Like L 0 s t) (hL : s.locals.length ≤ L) {name : StrRef} {s' : PState}
    (hx : resolveName name s = .ok () s') : Like L 0 s' t := by
  have hx := (run_get _).symm.trans hx
  cases hs : s.locals.find? fun l => l.name = name with
  | none =>
    rw [hs] at hx
    cases hx
    exact h
  | some a =>
    rw [hs] at hx
    dsimp only at hx
    split_ifs at hx with hlevel
    · cases hx
      exact h
    · cases hu : addUps name (s.funcs.length - (a.func + 1)) s.funcs with
      | none =>
        rw [hu] at hx
        cases hx
      | some fs =>
        rw [hu] at hx
        cases hx
        refine ⟨h.same, h.locals.capture_left hL name, ?_, h.funcs.addUps_left hu⟩
        exact h.room.trans_eq (length_markCaptured name s.locals).symm

theorem like_declareLocalRec (name : StrRef) : Keeps (Like L k) (declareLocalRec name) := by
  refine Paired.get fun s t h => ?_
  rw [h.funcLevel, ← h.locals.length]
  refine Paired.ite Paired.throw (Paired.set fun _ _ _ => ?_)
  refine ⟨?_, .cons rfl rfl (fun _ => rfl) h.locals, ?_, h.funcs⟩
  · rw [h.same]
  · exact h.room.trans (Nat.le_succ _)

theorem like_declareAll (ns : List StrRef) : Keeps (Like L k) (declareAll ns) := by
  induction ns with
  | nil => exact .pure _
  | cons n ns ih => exact Paired.bind (like_declareLocalRec n) fun _ => ih

theorem like_dropLocals {mark : ℕ} (hm : L ≤ mark) : Keeps (Like L k) (dropLocals mark) := by
  refine Paired.modify fun s t h => ?_
  have hlen := h.locals.length
  refine ⟨?_, ?_, ?_, h.funcs⟩
  · rw [h.same]
  · show SameLocals L (s.locals.drop (s.locals.length - mark)) (t.locals.drop (t.locals.length - mark))
    rw [← hlen]
    exact h.locals.drop _
  · show L ≤ (s.locals.drop (s.locals.length - mark)).length
    have hroom := h.room
    rw [List.length_drop]
    omega

theorem Like.capturedAt (h : Like L k s t) {i : ℕ} (hi : L ≤ i) : t.capturedAt i = s.capturedAt i := by
  unfold PState.capturedAt
  rw [h.locals.at? hi]

/-! ### Tokens -/

theorem like_expect (tok : Tok) (m : String) : Keeps (Like L k) (expect tok m) :=
  Paired.bind like_cur fun _ => Paired.ite like_advance Paired.throw

theorem like_nameOr (m : String) : Keeps (Like L k) (nameOr m) := by
  refine Paired.bind like_cur fun tok => ?_
  split
  · exact Paired.bind (like_internP _) fun _ => Paired.bind like_advance fun _ => .pure _
  · exact Paired.throw

theorem like_expectName : Keeps (Like L k) expectName := like_nameOr _

theorem like_allocE (e : Expr) : Keeps (Like L k) (allocE e) := Paired.bind like_alloc fun _ => .pure _

theorem like_allocS (st : Stmt) : Keeps (Like L k) (allocS st) := Paired.bind like_alloc fun _ => .pure _

end Like

/-! ### Expressions -/

/-- The parsers that may be called again keep the relation. -/
structure PRec.Alike (R : PRec) (L : ℕ) : Prop where
  expr : ∀ k, Keeps (Like L k) R.expr
  concat : ∀ k, Keeps (Like L k) R.concat
  unary : ∀ k, Keeps (Like L k) R.unary
  block : ∀ k, Keeps (Like L k) R.block
  ifTail : ∀ k, Keeps (Like L k) R.ifTail

section Expressions
variable {L k : ℕ} {R : PRec}

theorem like_leftAssoc (opOf : Tok → Option Op) {sub : ParseM Expr} (hsub : Keeps (Like L k) sub) (n : ℕ)
    (l : Expr) : Keeps (Like L k) (leftAssoc opOf sub n l) := by
  induction n generalizing l with
  | zero => exact Paired.throw
  | succ n ih =>
    refine Paired.bind like_cur fun tok => ?_
    split
    · exact .pure _
    · refine Paired.bind like_advance fun _ => Paired.bind hsub fun r => ?_
      exact Paired.bind (like_allocE _) fun e => ih e

theorem like_muldiv (h : R.Alike L) : Keeps (Like L k) (parseMuldiv R) :=
  Paired.bind (h.unary k) fun l => like_leftAssoc muldivOp (h.unary k) _ l

theorem like_addsub (h : R.Alike L) : Keeps (Like L k) (parseAddsub R) :=
  Paired.bind (like_muldiv h) fun l => like_leftAssoc addsubOp (like_muldiv h) _ l

theorem like_concat (h : R.Alike L) : Keeps (Like L k) (parseConcat R) := by
  refine Paired.bind (like_addsub h) fun l => Paired.bind like_cur fun tok => Paired.ite ?_ (.pure _)
  exact Paired.bind like_advance fun _ => Paired.bind (h.concat k) fun r => like_allocE _

theorem like_cmp (h : R.Alike L) : Keeps (Like L k) (parseCmp R) :=
  Paired.bind (like_concat h) fun l => like_leftAssoc cmpOp (like_concat h) _ l

theorem like_and (h : R.Alike L) : Keeps (Like L k) (parseAnd R) :=
  Paired.bind (like_cmp h) fun l => like_leftAssoc andOp (like_cmp h) _ l

theorem like_or (h : R.Alike L) : Keeps (Like L k) (parseOr R) :=
  Paired.bind (like_and h) fun l => like_leftAssoc orOp (like_and h) _ l

theorem like_argLoop (h : R.Alike L) (n : ℕ) : Keeps (Like L k) (argLoop R n) := by
  induction n with
  | zero => exact Paired.throw
  | succ n ih =>
    refine Paired.bind (h.expr k) fun a => Paired.bind like_alloc fun _ => Paired.bind like_cur fun tok => ?_
    refine Paired.ite ?_ (.pure _)
    exact Paired.bind like_advance fun _ => Paired.bind ih fun _ => .pure _

theorem like_argList (h : R.Alike L) : Keeps (Like L k) (parseArgList R) := by
  refine Paired.bind like_cur fun tok => Paired.ite ?_ ?_
  · exact Paired.bind like_advance fun _ => .pure _
  · exact Paired.bind (like_argLoop h _) fun _ => Paired.bind (like_expect _ _) fun _ => .pure _

theorem like_fieldLoop (h : R.Alike L) (n ord : ℕ) : Keeps (Like L k) (fieldLoop R n ord) := by
  induction n generalizing ord with
  | zero => exact Paired.throw
  | succ n ih =>
    have hrest : ∀ field ord, Keeps (Like L k) (do
        let _ ← alloc
        if (← cur) = .comma then do
          advance
          pure (field :: (← fieldLoop R n ord))
        else pure [field]) := by
      intro field ord
      refine Paired.bind like_alloc fun _ => Paired.bind like_cur fun tok => Paired.ite ?_ (.pure _)
      exact Paired.bind like_advance fun _ => Paired.bind (ih ord) fun _ => .pure _
    refine Paired.bind like_cur fun tok => ?_
    split
    · refine Paired.bind like_advance fun _ => Paired.bind (h.expr k) fun key => ?_
      refine Paired.bind (like_expect _ _) fun _ => Paired.bind (like_expect _ _) fun _ => ?_
      exact Paired.bind (h.expr k) fun v => hrest _ _
    · refine Paired.bind (like_internP _) fun r => Paired.bind like_advance fun _ => ?_
      refine Paired.bind like_cur fun tok => Paired.ite ?_ ?_
      · refine Paired.bind like_advance fun _ => Paired.bind (like_allocE _) fun key => ?_
        exact Paired.bind (h.expr k) fun v => hrest _ _
      · exact Paired.bind (like_allocE _) fun key => Paired.bind (like_allocE _) fun v => hrest _ _
    · exact Paired.bind (like_allocE _) fun key => Paired.bind (h.expr k) fun v => hrest _ _

theorem like_tableLit (h : R.Alike L) : Keeps (Like L k) (parseTableLit R) := by
  have hrest : ∀ fields, Keeps (Like L k) (do
      expect .rBrace "expected '\x7d' in table literal"
      allocE (.tableLit fields)) :=
    fun _ => Paired.bind (like_expect _ _) fun _ => like_allocE _
  refine Paired.bind like_advance fun _ => Paired.bind like_cur fun tok => Paired.ite ?_ ?_
  · exact hrest []
  · exact Paired.bind (like_fieldLoop h _ _) hrest

theorem like_paramLoop (n : ℕ) : Keeps (Like L k) (paramLoop n) := by
  induction n with
  | zero => exact Paired.throw
  | succ n ih =>
    refine Paired.bind like_expectName fun _ => Paired.bind like_alloc fun _ => ?_
    refine Paired.bind like_cur fun tok => Paired.ite ?_ (.pure _)
    exact Paired.bind like_advance fun _ => Paired.bind ih fun _ => .pure _

theorem like_params (R : PRec) : Keeps (Like L k) (parseParams R) := by
  refine Paired.bind like_cur fun tok => Paired.ite ?_ ?_
  · exact Paired.bind like_advance fun _ => .pure _
  · exact Paired.bind (like_paramLoop _) fun _ => Paired.bind (like_expect _ _) fun _ => .pure _

/-- A function body is parsed with one more function of its own. -/
theorem like_funcBody (h : R.Alike L) : Keeps (Like L k) (parseFuncBody R) := by
  refine Paired.bind (like_expect _ _) fun _ => Paired.get fun s t hst => ?_
  rw [← hst.funcs.length, ← hst.locals.length]
  refine Paired.ite Paired.throw_bind ?_
  have hin : Like L (k + 1) { s with funcs := [] :: s.funcs } { t with funcs := [] :: t.funcs } := by
    refine ⟨?_, hst.locals, hst.room, .inner [] hst.funcs⟩
    rw [hst.same]
  refine Paired.bind (Q := fun _ => Like L (k + 1)) (Paired.set fun _ _ _ => hin) fun _ => ?_
  refine Paired.bind (like_params R) fun params => Paired.bind (like_declareAll params) fun _ => ?_
  refine Paired.get fun s1 t1 h1 => ?_
  obtain ⟨l, f, rfl⟩ := h1.exists
  refine Paired.bind (Q := fun _ => Like L (k + 1))
    (Paired.set fun _ _ _ => h1.write _ (by rfl) (by rfl)) fun _ => ?_
  refine Paired.bind (h.block (k + 1)) fun body => ?_
  refine Paired.bind (like_modify _ fun _ _ _ => rfl) fun _ => ?_
  refine Paired.bind (like_expect _ _) fun _ => Paired.get fun s2 t2 h2 => ?_
  obtain ⟨hups, htail⟩ := h2.funcs.tail
  have hout : Like L k { s2 with funcs := s2.funcs.tail } { t2 with funcs := t2.funcs.tail } := by
    refine ⟨?_, h2.locals, h2.room, htail⟩
    rw [h2.same]
  rw [← hups]
  refine Paired.bind (Q := fun _ => Like L k) (Paired.set fun _ _ _ => hout) fun _ => ?_
  exact Paired.bind (like_dropLocals hst.room) fun _ => like_allocFunc _ _ _

theorem like_suffixLoop (h : R.Alike L) (n : ℕ) (e : Expr) : Keeps (Like L k) (suffixLoop R n e) := by
  induction n generalizing e with
  | zero => exact Paired.throw
  | succ n ih =>
    refine Paired.bind like_cur fun tok => ?_
    split
    · refine Paired.bind like_advance fun _ => Paired.bind (like_nameOr _) fun name => ?_
      refine Paired.bind (like_allocE _) fun key => Paired.bind (like_allocE _) fun e' => ?_
      exact ih e'
    · refine Paired.bind like_advance fun _ => Paired.bind (like_nameOr _) fun name => ?_
      refine Paired.bind (like_allocE _) fun key => Paired.bind (like_allocE _) fun method => ?_
      refine Paired.bind (like_expect _ _) fun _ => Paired.bind (like_argList h) fun args => ?_
      refine Paired.bind like_alloc fun _ => Paired.bind (like_allocE _) fun e' => ?_
      exact ih e'
    · refine Paired.bind like_advance fun _ => Paired.bind (h.expr k) fun key => ?_
      refine Paired.bind (like_expect _ _) fun _ => Paired.bind (like_allocE _) fun e' => ?_
      exact ih e'
    · refine Paired.bind like_advance fun _ => Paired.bind (like_argList h) fun args => ?_
      exact Paired.bind (like_allocE _) fun e' => ih e'
    · exact .pure _

theorem like_atom (h : R.Alike L) : Keeps (Like L k) (parseAtom R) := by
  have hlit : ∀ e, Keeps (Like L k) (do advance; allocE e) :=
    fun e => Paired.bind like_advance fun _ => like_allocE e
  refine Paired.bind like_cur fun tok => ?_
  cases tok with
  | num v => exact hlit _
  | float v => exact hlit _
  | str b => exact Paired.bind (like_internP _) fun _ => hlit _
  | true_ => exact hlit _
  | false_ => exact hlit _
  | nil => exact hlit _
  | name b =>
    refine Paired.bind (like_internP _) fun _ => Paired.bind like_advance fun _ => ?_
    exact Paired.bind (like_resolveName _) fun _ => like_allocE _
  | lParen =>
    refine Paired.bind like_advance fun _ => Paired.bind (h.expr k) fun e => ?_
    exact Paired.bind (like_expect _ _) fun _ => .pure _
  | lBrace => exact like_tableLit h
  | function =>
    exact Paired.bind like_advance fun _ => Paired.bind (like_funcBody h) fun _ => like_allocE _
  | _ => exact Paired.throw

theorem like_primary (h : R.Alike L) : Keeps (Like L k) (parsePrimary R) :=
  Paired.bind (like_atom h) fun e => like_suffixLoop h _ e

theorem like_unary (h : R.Alike L) : Keeps (Like L k) (parseUnary R) := by
  refine Paired.bind like_cur fun tok => ?_
  split
  · exact Paired.bind like_advance fun _ => Paired.bind (h.unary k) fun _ => like_allocE _
  · exact Paired.bind like_advance fun _ => Paired.bind (h.unary k) fun _ => like_allocE _
  · exact like_primary h

end Expressions

/-! ### Statements -/

section Statements
variable {L k : ℕ} {R : PRec}

/-- The end of a statement. -/
theorem like_end (st : Stmt) : Keeps (Like L k) (do optSemi; allocS st) :=
  Paired.bind like_optSemi fun _ => like_allocS st

theorem like_targetLoop (h : R.Alike L) (n : ℕ) : Keeps (Like L k) (targetLoop R n) := by
  induction n with
  | zero => exact Paired.throw
  | succ n ih =>
    refine Paired.bind like_cur fun tok => Paired.ite ?_ (.pure _)
    refine Paired.bind like_advance fun _ => Paired.bind (h.expr k) fun e => Paired.ite ?_ Paired.throw
    exact Paired.bind ih fun _ => .pure _

theorem like_assignmentFrom (h : R.Alike L) (first : Expr) :
    Keeps (Like L k) (parseAssignmentFrom R first) := by
  refine Paired.ite Paired.throw_bind ?_
  refine Paired.bind (like_targetLoop h _) fun ts => Paired.bind (like_expect _ _) fun _ => ?_
  exact Paired.bind (h.expr k) fun v => like_end _

theorem like_exprStat (h : R.Alike L) : Keeps (Like L k) (parseExprStat R) := by
  refine Paired.bind (h.expr k) fun e => Paired.bind like_cur fun tok => Paired.ite ?_ (like_end _)
  exact like_assignmentFrom h e

theorem like_nameLoop (n count : ℕ) : Keeps (Like L k) (nameLoop n count) := by
  induction n generalizing count with
  | zero => exact Paired.throw
  | succ n ih =>
    refine Paired.bind like_cur fun tok => Paired.ite ?_ (.pure _)
    refine Paired.bind like_advance fun _ => Paired.bind like_expectName fun name => ?_
    refine Paired.bind like_alloc fun _ => Paired.ite Paired.throw_bind ?_
    exact Paired.bind (ih _) fun _ => .pure _

theorem like_local (h : R.Alike L) : Keeps (Like L k) (parseLocal R) := by
  refine Paired.bind like_cur fun tok => Paired.ite ?_ ?_
  · refine Paired.bind like_advance fun _ => Paired.bind like_expectName fun name => ?_
    refine Paired.bind (like_declareLocalRec name) fun _ => Paired.bind (like_funcBody h) fun fi => ?_
    exact Paired.bind like_alloc fun _ => like_allocS _
  · refine Paired.bind like_expectName fun name => Paired.bind like_alloc fun _ => ?_
    refine Paired.bind (like_nameLoop _ _) fun names => Paired.bind (like_expect _ _) fun _ => ?_
    refine Paired.bind (h.expr k) fun v => Paired.bind like_optSemi fun _ => ?_
    refine Paired.bind (like_allocS _) fun node => ?_
    exact Paired.bind (like_declareAll _) fun _ => .pure _

theorem like_global (h : R.Alike L) : Keeps (Like L k) (parseGlobal R) := by
  have hrest : ∀ name v, Keeps (Like L k) (do
      optSemi
      let _ ← alloc
      allocS (.globalDecl name v)) :=
    fun _ _ => Paired.bind like_optSemi fun _ => Paired.bind like_alloc fun _ => like_allocS _
  refine Paired.bind like_expectName fun name => Paired.bind like_cur fun tok => ?_
  refine Paired.ite ?_ (hrest _ _)
  exact Paired.bind like_advance fun _ => Paired.bind (h.expr k) fun v => hrest _ _

theorem like_loopBody (h : R.Alike L) : Keeps (Like L k) (parseLoopBody R) := by
  refine Paired.bind (like_modify _ fun _ _ _ => rfl) fun _ => Paired.bind (h.block k) fun body => ?_
  exact Paired.bind (like_modify _ fun _ _ _ => rfl) fun _ => .pure _

theorem like_ifTail (h : R.Alike L) : Keeps (Like L k) (parseIfTail R) := by
  refine Paired.bind like_cur fun tok => ?_
  split
  · exact Paired.bind like_advance fun _ => .pure _
  · refine Paired.bind like_advance fun _ => Paired.bind (h.block k) fun b => ?_
    exact Paired.bind (like_expect _ _) fun _ => .pure _
  · refine Paired.bind like_advance fun _ => Paired.bind (h.expr k) fun c => ?_
    refine Paired.bind (like_expect _ _) fun _ => Paired.bind (h.block k) fun b => ?_
    refine Paired.bind (h.ifTail k) fun tail => ?_
    exact Paired.bind (like_allocS _) fun _ => .pure _
  · exact Paired.throw

theorem like_for (h : R.Alike L) : Keeps (Like L k) (parseFor R) := by
  refine Paired.bind like_expectName fun name => Paired.bind like_alloc fun _ => ?_
  refine Paired.bind like_cur fun tok => Paired.ite ?_ ?_
  · have hrest : ∀ start limit step, Keeps (Like L k) (do
        expect .do_ "expected 'do'"
        let mark := (← get).locals.length
        declareLocalRec name
        let body ← parseLoopBody R
        expect .end_ "expected 'end' to close for"
        let node ← allocS (.forStmt ((← get).capturedAt mark) name start limit step body)
        dropLocals mark
        pure node) := by
      intro start limit step
      refine Paired.bind (like_expect _ _) fun _ => Paired.get fun s t hst => ?_
      rw [← hst.locals.length]
      refine Paired.from (Paired.bind (like_declareLocalRec name) fun _ => ?_) hst
      refine Paired.bind (like_loopBody h) fun body => Paired.bind (like_expect _ _) fun _ => ?_
      refine Paired.get fun s' t' hst' => ?_
      rw [hst'.capturedAt hst.room]
      refine Paired.from (Paired.bind (like_allocS _) fun node => ?_) hst'
      exact Paired.bind (like_dropLocals hst.room) fun _ => .pure _
    refine Paired.bind like_advance fun _ => Paired.bind (h.expr k) fun start => ?_
    refine Paired.bind (like_expect _ _) fun _ => Paired.bind (h.expr k) fun limit => ?_
    refine Paired.bind like_cur fun tok => Paired.ite ?_ (hrest _ _ _)
    exact Paired.bind like_advance fun _ => Paired.bind (h.expr k) fun step => hrest _ _ _
  · have hrest : ∀ (vvar : Option StrRef) (declare : ParseM Unit), Keeps (Like L k) declare →
        Keeps (Like L k) (do
          expect .in_ "expected 'in' in for statement"
          let table ← R.expr
          expect .do_ "expected 'do'"
          let mark := (← get).locals.length
          declareLocalRec name
          declare
          let body ← parseLoopBody R
          expect .end_ "expected 'end' to close for"
          let s ← get
          let captured := s.capturedAt mark || (vvar.isSome && s.capturedAt (mark + 1))
          let node ← allocS (.forInStmt captured name vvar table body)
          dropLocals mark
          pure node) := by
      intro vvar declare hdecl
      refine Paired.bind (like_expect _ _) fun _ => Paired.bind (h.expr k) fun table => ?_
      refine Paired.bind (like_expect _ _) fun _ => Paired.get fun s t hst => ?_
      rw [← hst.locals.length]
      refine Paired.from (Paired.bind (like_declareLocalRec name) fun _ => ?_) hst
      refine Paired.bind hdecl fun _ => Paired.bind (like_loopBody h) fun body => ?_
      refine Paired.bind (like_expect _ _) fun _ => Paired.get fun s' t' hst' => ?_
      dsimp only
      rw [hst'.capturedAt hst.room, hst'.capturedAt (hst.room.trans (Nat.le_succ _))]
      refine Paired.from (Paired.bind (like_allocS _) fun node => ?_) hst'
      exact Paired.bind (like_dropLocals hst.room) fun _ => .pure _
    refine Paired.bind like_cur fun tok => Paired.ite ?_ (hrest none (pure ()) (.pure _))
    refine Paired.bind like_advance fun _ => Paired.bind like_expectName fun vname => ?_
    refine Paired.bind like_alloc fun _ => ?_
    exact hrest (some vname) (declareLocalRec vname) (like_declareLocalRec vname)

theorem like_stat (h : R.Alike L) : Keeps (Like L k) (parseStat R) := by
  refine Paired.bind like_cur fun tok => ?_
  cases tok with
  | local_ => exact Paired.bind like_advance fun _ => like_local h
  | global => exact Paired.bind like_advance fun _ => like_global h
  | function =>
    refine Paired.bind like_advance fun _ => Paired.bind like_expectName fun name => ?_
    refine Paired.bind (like_funcBody h) fun fi => Paired.bind like_alloc fun _ => ?_
    exact Paired.bind (like_allocE _) fun _ => like_allocS _
  | if_ =>
    refine Paired.bind like_advance fun _ => Paired.bind (h.expr k) fun cond => ?_
    refine Paired.bind (like_expect _ _) fun _ => Paired.bind (h.block k) fun b => ?_
    exact Paired.bind (h.ifTail k) fun els => like_allocS _
  | while_ =>
    refine Paired.bind like_advance fun _ => Paired.bind (h.expr k) fun cond => ?_
    refine Paired.bind (like_expect _ _) fun _ => Paired.bind (like_loopBody h) fun body => ?_
    exact Paired.bind (like_expect _ _) fun _ => like_allocS _
  | for_ => exact Paired.bind like_advance fun _ => like_for h
  | repeat_ =>
    refine Paired.bind like_advance fun _ => Paired.bind (like_loopBody h) fun body => ?_
    refine Paired.bind (like_expect _ _) fun _ => Paired.bind (h.expr k) fun cond => ?_
    exact like_allocS _
  | colonColon =>
    refine Paired.bind like_advance fun _ => Paired.bind like_expectName fun name => ?_
    refine Paired.bind (like_expect _ _) fun _ => Paired.bind like_alloc fun node => ?_
    exact Paired.bind (like_recordLabel _ _) fun _ => .pure _
  | goto =>
    refine Paired.bind like_advance fun _ => Paired.bind like_expectName fun name => ?_
    refine Paired.bind like_alloc fun node => ?_
    exact Paired.bind (like_recordGoto _ _) fun _ => .pure _
  | break_ =>
    refine Paired.bind like_advance fun _ => Paired.get fun s t hst => ?_
    have hd : t.loopDepth = s.loopDepth := by rw [hst.same]
    rw [hd]
    exact Paired.ite Paired.throw_bind (Paired.from (like_end _) hst)
  | return_ =>
    refine Paired.bind like_advance fun _ => Paired.bind like_cur fun tok => Paired.ite (like_end _) ?_
    exact Paired.bind (h.expr k) fun v => like_end _
  | _ => exact like_exprStat h

theorem like_statLoop (h : R.Alike L) (n : ℕ) : Keeps (Like L k) (statLoop R n) := by
  induction n with
  | zero => exact Paired.throw
  | succ n ih =>
    refine Paired.bind like_cur fun tok => Paired.ite (.pure _) ?_
    exact Paired.bind (like_stat h) fun st => Paired.bind ih fun _ => .pure _

theorem like_block (h : R.Alike L) : Keeps (Like L k) (parseBlock R) := by
  refine Paired.get fun s t hst => ?_
  have hroom := hst.room
  have hlen := hst.locals.length
  obtain ⟨l, f, rfl⟩ := hst.exists
  dsimp only at hlen ⊢
  rw [← hlen]
  refine Paired.ite Paired.throw_bind ?_
  refine Paired.bind (Q := fun _ => Like L k)
    (Paired.set fun _ _ _ => hst.write _ (by rfl) (by rfl)) fun _ => ?_
  refine Paired.bind (like_statLoop h _) fun b => Paired.bind (like_dropLocals hroom) fun _ => ?_
  exact Paired.bind like_resolveScope fun _ => .pure _

end Statements

/-- **Every parser keeps the relation.** -/
theorem parserAt_alike (L n : ℕ) : (parserAt n).Alike L := by
  induction n with
  | zero => exact ⟨fun _ => Paired.throw, fun _ => Paired.throw, fun _ => Paired.throw,
      fun _ => Paired.throw, fun _ => Paired.throw⟩
  | succ n ih =>
    exact ⟨fun _ => like_or ih, fun _ => like_concat ih, fun _ => like_unary ih, fun _ => like_block ih,
      fun _ => like_ifTail ih⟩

end Lua
end Rustrapper

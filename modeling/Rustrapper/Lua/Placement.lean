/-
# Where the code of a script stands

`ExprAt`, `StmtAt`, `BlockAt`: what the instructions between two addresses have
to be for them to be the code of an expression, a statement, a block. The
instructions of a `break` lead behind the loop, whose end is not known when
they are emitted: the compiler fills in the target at the end of the loop, so a
piece of code has its final form only behind the loops it is in (`Emits`).

There is one rule for each shape the compiler builds: sequences, jumps over a
part, blocks, and the three kinds of loop.
-/
import Rustrapper.Lua.Method

namespace Rustrapper
namespace Lua

open Effect

/-! ### Code -/

/-- The code there is in the end, and the functions that were compiled to it. -/
structure Image where
  code : List Instr
  linked : List ℕ

/-- An image, and what a place in it tells: the depth of the block, the
innermost loop (the depth outside of it, the address behind it) and how many
variables each function captures. -/
structure Site extends Image where
  depth : ℕ
  loop : Option (ℕ × ℕ)
  ups : List ℕ

/-- One block further in. -/
def Site.deeper (S : Site) : Site := { S with depth := S.depth + 1 }

/-- In the body of a loop that ends at `target`. -/
def Site.inLoop (S : Site) (target : ℕ) : Site := { S with loop := some (S.depth, target) }

def Site.has (S : Site) (p : ℕ) (i : Instr) : Prop := S.code[p]? = some i

/-- `n` times the same instruction. -/
def Repeated (S : Site) (i : Instr) (n p q : ℕ) : Prop := q = p + n ∧ ∀ j < n, S.has (p + j) i

/-- The code of `padWant`. -/
def Padded (S : Site) (want p q : ℕ) : Prop :=
  if want = 0 then S.has p .pop ∧ q = p + 1
  else if want ≠ 1 ∧ want ≠ WANT_ALL then Repeated S .pushNil (want - 1) p q
  else q = p

/-- One instruction, then the padding. -/
def Single (S : Site) (i : Instr) (want p q : ℕ) : Prop := S.has p i ∧ Padded S want (p + 1) q

/-- The value of a function of the script: what captures nothing is no closure. -/
def FuncAt (S : Site) (fi p : ℕ) : Prop := fi ∈ S.linked ∧ (S.ups[fi]? = some 0 → S.has p (.loadFunc fi))

mutual

/-- The instructions from `p` up to `q` are the code of the expression. -/
def ExprAt (S : Site) : Expr → (want p q : ℕ) → Prop
  | .call f args, want, p, q => ∃ p1 p2 p3,
    (if isDynamic args then S.has p .mark ∧ p1 = p + 1 else p1 = p) ∧
    ExprAt S f 1 p1 p2 ∧ ArgsAt S args p2 p3 ∧ args.length ≤ 32 ∧
    S.has p3 (.call (if isDynamic args then WANT_ALL else args.length) want) ∧ q = p3 + 1
  | .nil, want, p, q => Single S (.pushConst .nil) want p q
  | .true, want, p, q => Single S (.pushConst (.bool true)) want p q
  | .false, want, p, q => Single S (.pushConst (.bool false)) want p q
  | .num n, want, p, q => Single S (.pushConst (.num n)) want p q
  | .float f, want, p, q => Single S (.pushConst (.float f)) want p q
  | .str r, want, p, q => Single S (.pushConst (.str r)) want p q
  | .var name, want, p, q => Single S (.getVar name) want p q
  | .bin op l r, want, p, q => ∃ m m', ExprAt S l 1 p m ∧
    (if op = .and then S.has m (.jumpIfFalseKeep m') ∧ ExprAt S r 1 (m + 1) m'
    else if op = .or then S.has m (.jumpIfTrueKeep m') ∧ ExprAt S r 1 (m + 1) m'
    else ∃ m₁, ExprAt S r 1 m m₁ ∧ S.has m₁ (.binOp op) ∧ m' = m₁ + 1) ∧
    Padded S want m' q
  | .un op x, want, p, q => ∃ m, ExprAt S x 1 p m ∧ Single S (.unOp op) want m q
  | .index base key, want, p, q => ∃ m m', ExprAt S base 1 p m ∧ ExprAt S key 1 m m' ∧
    Single S .getIndex want m' q
  | .funcLit fi, want, p, q => FuncAt S fi p ∧ Padded S want (p + 1) q
  | .tableLit fields, want, p, q => ∃ m, S.has p .newTable ∧ FieldsAt S fields (p + 1) m ∧
    Padded S want m q

def ArgsAt (S : Site) : List Expr → (p q : ℕ) → Prop
  | [], p, q => q = p
  | a :: rest, p, q => ∃ m, ExprAt S a (if rest.isEmpty then WANT_ALL else 1) p m ∧ ArgsAt S rest m q

def FieldsAt (S : Site) : List (Expr × Expr) → (p q : ℕ) → Prop
  | [], p, q => q = p
  | (k, v) :: rest, p, q => ∃ m m', S.has p .dup ∧ ExprAt S k 1 (p + 1) m ∧ ExprAt S v 1 m m' ∧
    S.has m' .setIndex ∧ FieldsAt S rest (m' + 1) q

end

def TargetsAt (S : Site) : List Expr → (p q : ℕ) → Prop
  | [], p, q => q = p
  | .index base key :: ts, p, q => ∃ m m', ExprAt S base 1 p m ∧ ExprAt S key 1 m m' ∧ TargetsAt S ts m' q
  | _ :: ts, p, q => TargetsAt S ts p q

/-- Leave every block of the function, then return. -/
def ReturnAt (S : Site) (n p q : ℕ) : Prop :=
  ∃ m, Repeated S .popScope S.depth p m ∧ S.has m (.ret n) ∧ q = m + 1

mutual

/-- The instructions from `p` up to `q` are the code of the statement. Of a
`goto` nothing is said. -/
def StmtAt : Site → Stmt → (p q : ℕ) → Prop
  | S, .localDecl names val, p, q => ∃ m, ExprAt S val names.length p m ∧
    S.has m (.declareLocal names names.length) ∧ q = m + 1
  | S, .localFunc name fi, p, q => S.has p .pushNil ∧ S.has (p + 1) (.declareLocal [name] 1) ∧
    FuncAt S fi (p + 2) ∧ S.has (p + 3) (.setVar name) ∧ q = p + 4
  | S, .globalDecl name (some e), p, q => ∃ m, ExprAt S e 1 p m ∧ S.has m (.setGlobal name) ∧ q = m + 1
  | S, .globalDecl name none, p, q => S.has p .pushNil ∧ S.has (p + 1) (.setGlobal name) ∧ q = p + 2
  | S, .assignStmt targets val, p, q => ∃ m m', TargetsAt S targets p m ∧
    ExprAt S val targets.length m m' ∧
    S.has m' (.assignMulti (targets.map targetOf) targets.length) ∧ q = m' + 1
  | S, .callStmt e, p, q => ∃ m, ExprAt S e 1 p m ∧ S.has m .stmtCheck ∧ q = m + 1
  | S, .exprStmt e, p, q => ∃ m, ExprAt S e 1 p m ∧ S.has m .print ∧ q = m + 1
  | S, .ifStmt cond thenB els, p, q => ∃ m m', ExprAt S cond 1 p m ∧
    S.has m (.jumpIfFalse (m' + 2)) ∧ S.has (m + 1) .pushScope ∧
    BlockAt S.deeper thenB (m + 2) m' ∧ S.has m' .popScope ∧ S.has (m' + 1) (.jump q) ∧
    (if els.isEmpty then q = m' + 2
    else ∃ m₂, S.has (m' + 2) .pushScope ∧ BlockAt S.deeper els (m' + 3) m₂ ∧
      S.has m₂ .popScope ∧ q = m₂ + 1)
  | S, .whileStmt cond body, p, q => ∃ m m', ExprAt S cond 1 p m ∧ S.has m (.jumpIfFalse q) ∧
    S.has (m + 1) .pushScope ∧ BlockAt (S.inLoop q).deeper body (m + 2) m' ∧ S.has m' .popScope ∧
    S.has (m' + 1) (.jump p) ∧ q = m' + 2
  | S, .repeatStmt body cond, p, q => ∃ m m', S.has p .pushScope ∧
    BlockAt (S.inLoop q).deeper body (p + 1) m ∧ ExprAt (S.inLoop q).deeper cond 1 m m' ∧
    S.has m' .popScope ∧ S.has (m' + 1) (.jumpIfFalse p) ∧ q = m' + 2
  | S, .forStmt captured var start limit step body, p, q => ∃ m₁ m₂ m₃ m₄, S.has p .pushScope ∧
    ExprAt S.deeper start 1 (p + 1) m₁ ∧ ExprAt S.deeper limit 1 m₁ m₂ ∧
    (match step with
      | some e => ExprAt S.deeper e 1 m₂ m₃
      | none => S.has m₂ (.pushInt 1) ∧ m₃ = m₂ + 1) ∧
    S.has m₃ (.forPrep captured (m₄ + 2) var) ∧ S.has (m₃ + 1) .pushScope ∧
    BlockAt (S.inLoop q).deeper.deeper body (m₃ + 2) m₄ ∧ S.has m₄ .popScope ∧
    S.has (m₄ + 1) (.forLoop captured (m₃ + 1) var) ∧ S.has (m₄ + 2) .popScope ∧ q = m₄ + 3
  | S, .breakStmt, p, q => ∃ depth target, S.loop = some (depth, target) ∧
    S.has p (.jumpScopes target (S.depth - depth)) ∧ q = p + 1
  | _, .label _ _, p, q => q = p
  | S, .returnStmt none, p, q => ReturnAt S 0 p q
  | S, .returnStmt (some v), p, q => ∃ m, ExprAt S v (if v.isCall then WANT_ALL else 1) p m ∧
    ReturnAt S (if v.isCall then WANT_ALL else 1) m q
  | S, .forInStmt captured kvar vvar table body, p, q => ∃ m m', S.has p .pushScope ∧
    ExprAt S.deeper table 2 (p + 1) m ∧ S.has m .forInPrep ∧ S.has (m + 1) (.forInNext (m' + 2)) ∧
    S.has (m + 2) (match vvar with
      | some v => if captured then .setLocalTopCell v else .setLocalTop v
      | none => .pop) ∧
    S.has (m + 3) (if captured then .setLocalTopCell kvar else .setLocalTop kvar) ∧
    S.has (m + 4) .pushScope ∧ BlockAt (S.inLoop q).deeper.deeper body (m + 5) m' ∧ S.has m' .popScope ∧
    S.has (m' + 1) (.forInAdvance (m + 1)) ∧ S.has (m' + 2) .popScope ∧ q = m' + 3
  | _, .goto _, _, _ => True

def BlockAt : Site → Block → (p q : ℕ) → Prop
  | _, [], p, q => q = p
  | S, st :: rest, p, q => ∃ m, StmtAt S st p m ∧ BlockAt S rest m q

end

/-! ### What the compiler emits -/

/-- Note `break`s in the innermost loop. -/
def noteBreaks (new : List ℕ) : List LoopCtx → List LoopCtx
  | [] => []
  | l :: ls => { l with ends := l.ends ++ new } :: ls

/-- `c'` is `c` with more code, the `break`s at `new` in it. -/
structure Grown (c c' : Compiler) (new : List ℕ) : Prop where
  code : c.chunks.code <+: c'.chunks.code
  room : c.chunks.code.length ≤ MAX_CODE → c'.chunks.code.length ≤ MAX_CODE
  fixups : c'.fixups = c.fixups
  funcs : c'.chunks.funcs = c.chunks.funcs
  loops : c'.loops = noteBreaks new c.loops
  inner : new ≠ [] → c.loops ≠ []
  breaks : ∀ i ∈ new, c.chunks.code.length ≤ i ∧ i < c'.chunks.code.length
  compiled : c.compiled ⊆ c'.compiled
  pending : c.pending ⊆ c'.pending
  queued : ∀ fi ∈ c'.compiled, fi ∈ c.compiled ∨ fi ∈ c'.pending

/-- The image has the code of `c'` from `lo` on, with the targets of the `break`s
at `new` filled in. -/
structure Finished (im : Image) (c' : Compiler) (lo : ℕ) (new : List ℕ) (target : ℕ) : Prop where
  code : ∀ i, lo ≤ i → i < c'.chunks.code.length →
    im.code[i]? = (c'.chunks.code[i]?).map fun ins => if i ∈ new then ins.setA target else ins
  linked : c'.compiled ⊆ im.linked

/-- The place where the compiler is. -/
def Compiler.site (c : Compiler) (im : Image) (target : ℕ) : Site where
  toImage := im
  depth := c.scope
  loop := c.loops.head?.map fun l => (l.scope, target)
  ups := c.chunks.funcs.map (·.upNames.length)

/-- What `x` emits is, in its final form, as `P` says. -/
def Emits {α : Type} (x : CompM α) (P : α → Site → (p q : ℕ) → Prop) : Prop :=
  ∀ c a c', x c = .ok a c' → ∃ new, c'.scope = c.scope ∧ Grown c c' new ∧
    ∀ im target, Finished im c' c.chunks.code.length new target →
      P a (c.site im target) c.chunks.code.length c'.chunks.code.length

section Emits
variable {α β : Type} {x y : CompM α} {f : α → CompM β} {c c' c₁ c₂ : Compiler} {new new₁ new₂ : List ℕ}
  {P P' : α → Site → ℕ → ℕ → Prop}

@[simp] theorem noteBreaks_nil : ∀ ls : List LoopCtx, noteBreaks [] ls = ls
  | [] => rfl
  | _ :: _ => by simp [noteBreaks]

theorem noteBreaks_append : ∀ ls : List LoopCtx,
    noteBreaks new₂ (noteBreaks new₁ ls) = noteBreaks (new₁ ++ new₂) ls
  | [] => rfl
  | _ :: _ => by simp [noteBreaks]

theorem Grown.trans (h : Grown c c₁ new₁) (h' : Grown c₁ c₂ new₂) : Grown c c₂ (new₁ ++ new₂) where
  code := h.code.trans h'.code
  room hc := h'.room (h.room hc)
  fixups := h'.fixups.trans h.fixups
  funcs := h'.funcs.trans h.funcs
  loops := by rw [h'.loops, h.loops, noteBreaks_append]
  inner hne := by
    intro hc
    have h1 : new₁ = [] := by
      by_contra h1
      exact h.inner h1 hc
    have h2 : c₁.loops = [] := by rw [h.loops, hc]; rfl
    have h3 : new₂ = [] := by
      by_contra h3
      exact h'.inner h3 h2
    simp [h1, h3] at hne
  breaks i hi := by
    have h1 := h.code.length_le
    have h2 := h'.code.length_le
    rcases List.mem_append.mp hi with hi | hi
    · have := h.breaks i hi
      omega
    · have := h'.breaks i hi
      omega
  compiled := List.Subset.trans h.compiled h'.compiled
  pending := List.Subset.trans h.pending h'.pending
  queued fi hfi := by
    rcases h'.queued fi hfi with hc | hp
    · exact (h.queued fi hc).imp_right fun hp => h'.pending hp
    · exact .inr hp

theorem Grown.site_eq (h : Grown c c₁ new) (hs : c₁.scope = c.scope) (im : Image) (target : ℕ) :
    c₁.site im target = c.site im target := by
  unfold Compiler.site
  rw [hs, h.funcs, h.loops]
  cases c.loops <;> rfl

theorem Grown.lookup_eq (h : Grown c c₁ new) {i : ℕ} (hi : i < c.chunks.code.length) :
    c₁.chunks.code[i]? = c.chunks.code[i]? := by
  obtain ⟨more, hmore⟩ := h.code
  rw [← hmore, List.getElem?_append_left hi]

/-- The code of a first part is in its final form with that of the whole. -/
theorem Finished.first {im : Image} {lo target : ℕ} (h : Finished im c₂ lo (new₁ ++ new₂) target)
    (h' : Grown c₁ c₂ new₂) : Finished im c₁ lo new₁ target := by
  refine ⟨fun i hlo hi => ?_, List.Subset.trans h'.compiled h.linked⟩
  have hlen := h'.code.length_le
  have hnot : i ∉ new₂ := fun hm => by
    have := (h'.breaks i hm).1
    omega
  rw [h.code i hlo (by omega), h'.lookup_eq hi]
  simp [hnot]

theorem Finished.second {im : Image} {lo target : ℕ} (h : Finished im c₂ lo (new₁ ++ new₂) target)
    (h' : Grown c c₁ new₁) (hlo : lo ≤ c₁.chunks.code.length) :
    Finished im c₂ c₁.chunks.code.length new₂ target := by
  refine ⟨fun i hi hlt => ?_, h.linked⟩
  have hnot : i ∉ new₁ := fun hm => by
    have := (h'.breaks i hm).2
    omega
  rw [h.code i (by omega) hlt]
  simp [hnot]

theorem Emits.bind {Q : α → β → Site → ℕ → ℕ → Prop} (hx : Emits x P) (hf : ∀ a, Emits (f a) (Q a)) :
    Emits (x >>= f) fun b S p q => ∃ a m, P a S p m ∧ Q a b S m q := by
  intro c b c₂ h
  obtain ⟨a, c₁, h1, h2⟩ := run_bind_ok.mp h
  obtain ⟨new₁, s1, g1, hp⟩ := hx c a c₁ h1
  obtain ⟨new₂, s2, g2, hq⟩ := hf a c₁ b c₂ h2
  refine ⟨new₁ ++ new₂, s2.trans s1, g1.trans g2, fun im target hfin => ⟨a, c₁.chunks.code.length, ?_, ?_⟩⟩
  · exact hp im target (hfin.first g2)
  · rw [← g1.site_eq s1 im target]
    exact hq im target (hfin.second g1 g1.code.length_le)

theorem Emits.mono (hx : Emits x P) (h : ∀ a S p q, P a S p q → P' a S p q) : Emits x P' := by
  intro c a c' hr
  obtain ⟨new, hs, g, hp⟩ := hx c a c' hr
  exact ⟨new, hs, g, fun im target hfin => h _ _ _ _ (hp im target hfin)⟩

theorem Grown.refl (c : Compiler) : Grown c c [] where
  code := List.prefix_rfl
  room := id
  fixups := rfl
  funcs := rfl
  loops := (noteBreaks_nil _).symm
  inner h := absurd rfl h
  breaks i hi := absurd hi (by simp)
  compiled := List.Subset.refl _
  pending := List.Subset.refl _
  queued _ := .inl

theorem emits_pure (a : α) : Emits (pure a) fun b _ p q => b = a ∧ q = p := by
  intro c b c' h
  cases h
  exact ⟨[], rfl, .refl c, fun _ _ _ => ⟨rfl, rfl⟩⟩

theorem emits_throw (e : Exc) : Emits (throw e : CompM α) P := by
  intro c b c' h
  cases h

theorem Emits.cond {p : Prop} [Decidable p] (hx : p → Emits x P) (hy : ¬p → Emits y P) :
    Emits (if p then x else y) P := by
  split_ifs with h
  · exact hx h
  · exact hy h

/-- A check in front: what follows has the condition. -/
theorem Emits.check {p : Compiler → Prop} [∀ c, Decidable (p c)] {m : String} (hx : Emits x P) :
    Emits (do if p (← get) then cerr m
              x) P := by
  intro c a c' h
  rw [run_get] at h
  dsimp only at h
  split_ifs at h
  · cases h
  · exact hx c a c' h

end Emits

/-- The compiler with one more instruction. -/
def Compiler.push (c : Compiler) (i : Instr) : Compiler :=
  { c with chunks := { c.chunks with code := c.chunks.code ++ [i] } }

theorem emit_eq {i : Instr} {j : ℕ} {c c' : Compiler} (h : emit i c = .ok j c') :
    c.chunks.code.length < MAX_CODE ∧ j = c.chunks.code.length ∧ c' = c.push i := by
  unfold emit at h
  rw [run_get] at h
  split_ifs at h with hfull
  · cases h
  · cases h
    exact ⟨by omega, rfl, rfl⟩

theorem Compiler.push_length (c : Compiler) (i : Instr) :
    (c.push i).chunks.code.length = c.chunks.code.length + 1 := by simp [Compiler.push]

theorem grown_push {c : Compiler} (i : Instr) (h : c.chunks.code.length < MAX_CODE) :
    Grown c (c.push i) [] where
  code := List.prefix_append _ _
  room _ := by rw [c.push_length]; omega
  fixups := rfl
  funcs := rfl
  loops := (noteBreaks_nil _).symm
  inner h := absurd rfl h
  breaks i hi := absurd hi (by simp)
  compiled := List.Subset.refl _
  pending := List.Subset.refl _
  queued _ := .inl

theorem final_push {c : Compiler} {i : Instr} {im : Image} {target : ℕ}
    (h : Finished im (c.push i) c.chunks.code.length [] target) : im.code[c.chunks.code.length]? = some i := by
  rw [h.code _ le_rfl (by rw [c.push_length]; omega)]
  simp [Compiler.push]

theorem emits_emit (i : Instr) : Emits (emit i) fun j S p q => j = p ∧ S.has p i ∧ q = p + 1 := by
  intro c j c' h
  obtain ⟨hroom, rfl, rfl⟩ := emit_eq h
  exact ⟨[], rfl, grown_push i hroom, fun im target hfin => ⟨rfl, final_push hfin, c.push_length i⟩⟩

theorem emits_emit_ (i : Instr) : Emits (emit_ i) fun _ S p q => S.has p i ∧ q = p + 1 := by
  refine Emits.mono ((emits_emit i).bind fun _ => emits_pure _) ?_
  rintro _ S p q ⟨_, m, ⟨-, hi, rfl⟩, -, rfl⟩
  exact ⟨hi, rfl⟩

theorem emits_emitN (i : Instr) : ∀ n, Emits (emitN i n) fun _ S p q => Repeated S i n p q
  | 0 => (emits_pure _).mono fun _ S p q h => ⟨h.2, fun j hj => absurd hj (Nat.not_lt_zero j)⟩
  | n + 1 => by
    refine Emits.mono ((emits_emit_ i).bind fun _ => emits_emitN i n) ?_
    rintro _ S p q ⟨_, m, ⟨hi, rfl⟩, rfl, hrest⟩
    refine ⟨by omega, fun j hj => ?_⟩
    cases j with
    | zero => exact hi
    | succ j =>
      have := hrest j (by omega)
      rwa [show p + (j + 1) = p + 1 + j by omega]

theorem emits_padWant (want : ℕ) : Emits (padWant want) fun _ S p q => Padded S want p q := by
  unfold padWant Padded
  refine Emits.cond (fun h => ?_) fun h => ?_
  · simpa only [if_pos h] using emits_emit_ .pop
  · simp only [if_neg h]
    refine Emits.cond (fun h' => ?_) fun h' => ?_
    · simpa only [if_pos h'] using emits_emitN .pushNil (want - 1)
    · simp only [if_neg h']
      exact (emits_pure _).mono fun _ _ _ _ h => h.2

theorem emits_single (i : Instr) (want : ℕ) : Emits (do
    emit_ i
    padWant want) fun _ S p q => Single S i want p q := by
  refine Emits.mono ((emits_emit_ i).bind fun _ => emits_padWant want) ?_
  rintro _ S p q ⟨_, m, ⟨hi, rfl⟩, hpad⟩
  exact ⟨hi, hpad⟩

theorem emits_here : Emits here fun j _ p q => j = p ∧ q = p := by
  intro c j c' h
  cases h
  exact ⟨[], rfl, .refl _, fun _ _ _ => ⟨rfl, rfl⟩⟩

/-! ### Jumps -/

/-- The compiler with the target of the instruction at `j` filled in. -/
def Compiler.patch (c : Compiler) (j target : ℕ) : Compiler :=
  { c with chunks := { c.chunks with code := c.chunks.code.modify j (·.setA target) } }

/-- Code with the targets of the instructions at `ips` filled in. -/
def fillAt (ips : List ℕ) (target : ℕ) (code : List Instr) : List Instr :=
  code.mapIdx fun i ins => if i ∈ ips then ins.setA target else ins

/-- The compiler inside of a loop. -/
def Compiler.enter (c : Compiler) (scope : ℕ) : Compiler := { c with loops := ⟨scope, []⟩ :: c.loops }

/-- The compiler behind a loop, whose `break`s lead to `target`. -/
def Compiler.close (c : Compiler) (target : ℕ) : Compiler :=
  { c with
    loops := c.loops.tail
    chunks := { c.chunks with code := fillAt (c.loops.headD ⟨0, []⟩).ends target c.chunks.code } }

@[simp] theorem Compiler.patch_length (c : Compiler) (j target : ℕ) :
    (c.patch j target).chunks.code.length = c.chunks.code.length := by simp [Compiler.patch]

@[simp] theorem Compiler.close_length (c : Compiler) (target : ℕ) :
    (c.close target).chunks.code.length = c.chunks.code.length := by simp [Compiler.close, fillAt]

theorem getElem?_fillAt (ips : List ℕ) (target : ℕ) (code : List Instr) (i : ℕ) :
    (fillAt ips target code)[i]? = code[i]?.map fun ins => if i ∈ ips then ins.setA target else ins := by
  rw [fillAt, List.getElem?_mapIdx]

theorem setA_setA (i : Instr) (t : ℕ) : (i.setA t).setA t = i.setA t := by cases i <;> rfl

theorem fillAt_modify (ips : List ℕ) (target ip : ℕ) (code : List Instr) :
    fillAt ips target (code.modify ip (·.setA target)) = fillAt (ip :: ips) target code := by
  refine List.ext_getElem? fun i => ?_
  rw [getElem?_fillAt, getElem?_fillAt, List.getElem?_modify]
  cases code[i]? with
  | none => rfl
  | some ins =>
    by_cases h : ip = i
    · subst h
      by_cases h' : ip ∈ ips <;> simp [h', setA_setA]
    · have h2 : ¬ i = ip := fun he => h he.symm
      simp [h, h2]

@[simp] theorem fillAt_nil (target : ℕ) (code : List Instr) : fillAt [] target code = code := by
  refine List.ext_getElem? fun i => ?_
  rw [getElem?_fillAt]
  cases code[i]? <;> rfl

theorem patchAll_eq (target : ℕ) : ∀ (ips : List ℕ) (c : Compiler), patchAll target ips c =
    .ok () { c with chunks := { c.chunks with code := fillAt ips target c.chunks.code } }
  | [], c => by
    rw [fillAt_nil]
    rfl
  | ip :: ips, c => by
    have h := patchAll_eq target ips (c.patch ip target)
    rw [Compiler.patch, fillAt_modify] at h
    exact h

theorem endLoop_eq {target : ℕ} {u : Unit} {c c' : Compiler} (h : endLoop target c = .ok u c') :
    c' = c.close target := by
  unfold endLoop at h
  rw [run_get] at h
  cases hl : c.loops with
  | nil =>
    rw [hl] at h
    cases h
  | cons l ls =>
    rw [hl] at h
    obtain ⟨_, c₁, h1, h2⟩ := run_bind_ok.mp h
    cases h1
    rw [patchAll_eq] at h2
    cases h2
    rw [Compiler.close, hl]
    rfl

theorem beginLoop_eq {k : ℕ} {u : Unit} {c c' : Compiler} (h : beginLoop k c = .ok u c') :
    c' = c.enter k := by
  unfold beginLoop at h
  rw [run_get] at h
  split_ifs at h
  · cases h
  · cases h
    rfl

section Patch
variable {c c₁ c₂ : Compiler} {i : Instr} {new : List ℕ} {t k : ℕ}

/-- Filling in a jump in front leaves the code before it alone. -/
theorem grown_patch (hroom : c.chunks.code.length < MAX_CODE) (g : Grown (c.push i) c₂ new) (t : ℕ) :
    Grown c (c₂.patch c.chunks.code.length t) new := by
  have hlen := g.code.length_le
  rw [c.push_length] at hlen
  refine { g with
    code := prefix_modify ((List.prefix_append _ _).trans g.code) le_rfl _
    room := fun _ => ?_
    breaks := fun j hj => ?_ }
  · rw [Compiler.patch_length]
    exact g.room (by rw [c.push_length]; omega)
  · have h := g.breaks j hj
    rw [c.push_length] at h
    rw [Compiler.patch_length]
    omega

theorem final_patch (g : Grown (c.push i) c₂ new) {im : Image} {target : ℕ}
    (h : Finished im (c₂.patch c.chunks.code.length t) c.chunks.code.length new target) :
    im.code[c.chunks.code.length]? = some (i.setA t) ∧ Finished im c₂ (c.push i).chunks.code.length new target := by
  have hlen := g.code.length_le
  rw [c.push_length] at hlen
  have hnot : c.chunks.code.length ∉ new := fun hm => by
    have := (g.breaks _ hm).1
    rw [c.push_length] at this
    omega
  have hcode : ∀ j, (c₂.patch c.chunks.code.length t).chunks.code[j]? =
      (fun ins => if c.chunks.code.length = j then Instr.setA ins t else ins) <$> c₂.chunks.code[j]? :=
    fun j => List.getElem?_modify _ _ _ _
  constructor
  · rw [h.code _ le_rfl (by rw [Compiler.patch_length]; omega), hcode, g.lookup_eq (by rw [c.push_length]; omega)]
    simp [Compiler.push, hnot]
  · refine ⟨fun j hlo hj => ?_, h.linked⟩
    rw [c.push_length] at hlo
    rw [h.code j (by omega) (by rw [Compiler.patch_length]; exact hj), hcode]
    have hne : ¬ c.chunks.code.length = j := by omega
    simp [hne]

/-- Behind a loop the `break`s in it have their target. -/
theorem grown_close (g : Grown (c.enter k) c₂ new) (t : ℕ) : Grown c (c₂.close t) [] := by
  have hl : c₂.loops = ⟨k, new⟩ :: c.loops := g.loops
  have hends : (c₂.loops.headD ⟨0, []⟩).ends = new := by rw [hl]; rfl
  refine { g with
    code := ?_
    room := fun hc => ?_
    loops := by rw [noteBreaks_nil, Compiler.close, hl]; rfl
    inner := fun h => absurd rfl h
    breaks := fun j hj => absurd hj (by simp) }
  · rw [List.prefix_iff_getElem?]
    intro j hj
    have hnot : j ∉ new := fun hm => by
      have h : c.chunks.code.length ≤ j := (g.breaks _ hm).1
      omega
    rw [Compiler.close, hends, getElem?_fillAt, g.lookup_eq hj]
    simp [Compiler.enter, hnot, hj]
  · rw [Compiler.close_length]
    exact g.room hc

theorem final_close (g : Grown (c.enter k) c₂ new) {im : Image} {target lo : ℕ}
    (h : Finished im (c₂.close t) lo [] target) : Finished im c₂ lo new t := by
  have hends : (c₂.loops.headD ⟨0, []⟩).ends = new := by
    rw [show c₂.loops = ⟨k, new⟩ :: c.loops from g.loops]
    rfl
  refine ⟨fun j hlo hj => ?_, h.linked⟩
  rw [h.code j hlo (by rw [Compiler.close_length]; exact hj), Compiler.close, hends, getElem?_fillAt]
  cases c₂.chunks.code[j]? <;> rfl

/-- A jump from before the loop and the `break`s in it are filled in apart. -/
theorem close_patch (g : Grown (c₁.enter k) c₂ new) {j : ℕ} (hj : j < c₁.chunks.code.length) (t' : ℕ) :
    (c₂.patch j t').close t = (c₂.close t).patch j t' := by
  have hends : (c₂.loops.headD ⟨0, []⟩).ends = new := by
    rw [show c₂.loops = ⟨k, new⟩ :: c₁.loops from g.loops]
    rfl
  have hnot : j ∉ new := fun hm => by
    have h : c₁.chunks.code.length ≤ j := (g.breaks _ hm).1
    omega
  have hcode : fillAt new t (c₂.chunks.code.modify j (·.setA t')) = (fillAt new t c₂.chunks.code).modify j (·.setA t') := by
    refine List.ext_getElem? fun i => ?_
    rw [getElem?_fillAt, List.getElem?_modify, List.getElem?_modify, getElem?_fillAt]
    cases c₂.chunks.code[i]? with
    | none => rfl
    | some ins =>
      by_cases h : j = i
      · subst h
        simp [hnot]
      · simp [h]
  unfold Compiler.close Compiler.patch
  simp only [hends, hcode]

end Patch

section Rules
variable {x y : CompM Unit} {P Q : Unit → Site → ℕ → ℕ → Prop}

theorem patchA_eq {j target : ℕ} {u : Unit} {c c' : Compiler} (h : patchA j target c = .ok u c') :
    c' = c.patch j target := by
  cases h
  rfl

/-- A jump over `x`. -/
theorem emits_jump (i : Instr) (hx : Emits x P) :
    Emits (do
      let j ← emit i
      x
      patchA j (← here)) fun _ S p q => S.has p (i.setA q) ∧ P () S (p + 1) q := by
  intro c a c' h
  obtain ⟨j, c1, h1, h⟩ := run_bind_ok.mp h
  obtain ⟨_, c2, h2, h⟩ := run_bind_ok.mp h
  obtain ⟨_, c3, h3, h⟩ := run_bind_ok.mp h
  obtain ⟨hroom, rfl, rfl⟩ := emit_eq h1
  cases h3
  obtain rfl := patchA_eq h
  obtain ⟨new, hs, g, hp⟩ := hx _ _ _ h2
  refine ⟨new, hs, grown_patch hroom g _, fun im target hfin => ?_⟩
  obtain ⟨hi, hfin⟩ := final_patch g hfin
  rw [Compiler.patch_length, ← c.push_length i]
  exact ⟨hi, hp im target hfin⟩

/-- A jump over `x`, and what comes behind it. -/
theorem emits_jump_then {y : CompM Unit} (i : Instr) (hx : Emits x P) (hy : Emits y Q) :
    Emits (do
      let j ← emit i
      x
      patchA j (← here)
      y) fun _ S p q => ∃ m, (S.has p (i.setA m) ∧ P () S (p + 1) m) ∧ Q () S m q := by
  have h := (emits_jump i hx).bind fun _ => hy
  simp only [bind_assoc] at h
  refine h.mono ?_
  rintro _ S p q ⟨_, m, hj, hq⟩
  exact ⟨m, hj, hq⟩

/-- `x` or `y`: a jump over `x` when it is not entered, and one over `y` behind it. -/
theorem emits_either (i i' : Instr) (hx : Emits x P) (hy : Emits y Q) :
    Emits (do
      let j ← emit i
      x
      let j' ← emit i'
      patchA j (← here)
      y
      patchA j' (← here)) fun _ S p q => ∃ m, S.has p (i.setA (m + 1)) ∧ P () S (p + 1) m ∧
        S.has m (i'.setA q) ∧ Q () S (m + 1) q := by
  intro c a c' h
  obtain ⟨j, c1, h1, h⟩ := run_bind_ok.mp h
  obtain ⟨_, c2, h2, h⟩ := run_bind_ok.mp h
  obtain ⟨j', c3, h3, h⟩ := run_bind_ok.mp h
  obtain ⟨_, c4, h4, h⟩ := run_bind_ok.mp h
  obtain ⟨_, c5, h5, h⟩ := run_bind_ok.mp h
  obtain ⟨_, c6, h6, h⟩ := run_bind_ok.mp h
  obtain ⟨_, c7, h7, h⟩ := run_bind_ok.mp h
  obtain ⟨hroom, rfl, rfl⟩ := emit_eq h1
  obtain ⟨hroom', rfl, rfl⟩ := emit_eq h3
  cases h4
  obtain rfl := patchA_eq h5
  cases h7
  obtain rfl := patchA_eq h
  obtain ⟨new₁, s1, g1, hp⟩ := hx _ _ _ h2
  obtain ⟨new₂, s2, g2, hq⟩ := hy _ _ _ h6
  have hlen := g1.code.length_le
  rw [c.push_length] at hlen
  -- the first jump may as well be filled in before the second is emitted
  have hswap : (c2.push i').patch c.chunks.code.length (c2.push i').chunks.code.length =
      (c2.patch c.chunks.code.length (c2.push i').chunks.code.length).push i' := by
    unfold Compiler.patch Compiler.push
    simp only [Compiler.mk.injEq, Chunks.mk.injEq, and_true, true_and]
    refine List.ext_getElem? fun k => ?_
    rw [List.getElem?_modify]
    by_cases hk : k < c2.chunks.code.length
    · rw [List.getElem?_append_left hk, List.getElem?_append_left (by rwa [List.length_modify]),
        List.getElem?_modify]
    · rw [List.getElem?_append_right (by omega), List.getElem?_append_right (by rw [List.length_modify]; omega),
        List.length_modify]
      have hne : ¬ c.chunks.code.length = k := by omega
      simp [hne]
  rw [hswap] at g2 hq s2
  have g1' := grown_patch hroom g1 (c2.push i').chunks.code.length
  have g2' := grown_patch (by rwa [Compiler.patch_length]) g2 c6.chunks.code.length
  rw [Compiler.patch_length] at g2'
  refine ⟨new₁ ++ new₂, s2.trans s1, g1'.trans g2', fun im target hfin => ?_⟩
  obtain ⟨hi, hfin1⟩ := final_patch g1 (hfin.first g2')
  have hfin2 := hfin.second g1' g1'.code.length_le
  rw [Compiler.patch_length] at hfin2
  obtain ⟨hi', hfin2⟩ := final_patch g2 (by rw [Compiler.patch_length]; exact hfin2)
  rw [Compiler.patch_length] at hi'
  refine ⟨c2.chunks.code.length, by rwa [c2.push_length] at hi, ?_, ?_, ?_⟩
  · rw [← c.push_length i]
    exact hp im target hfin1
  · rwa [Compiler.patch_length]
  · have hsite : (c2.patch c.chunks.code.length (c2.push i').chunks.code.length |>.push i').site im target =
        c.site im target := g1'.site_eq s1 im target
    have := hq im target hfin2
    rw [hsite, Compiler.push_length, Compiler.patch_length] at this
    rwa [Compiler.patch_length]

end Rules

/-! ### Blocks and loops -/

/-- The compiler at another depth. -/
def Compiler.atDepth (c : Compiler) (scope : ℕ) : Compiler := { c with scope := scope }

theorem grown_atDepth {c c' : Compiler} {new : List ℕ} (g : Grown c c' new) (k : ℕ) :
    Grown c (c'.atDepth k) new := { g with }

theorem final_atDepth {c : Compiler} {im : Image} {lo target k : ℕ} {new : List ℕ}
    (h : Finished im (c.atDepth k) lo new target) : Finished im c lo new target := ⟨h.code, h.linked⟩

theorem emitted_eq {i : Instr} {u : Unit} {c c' : Compiler} (h : emit_ i c = .ok u c') :
    c.chunks.code.length < MAX_CODE ∧ c' = c.push i := by
  obtain ⟨j, t, h1, h2⟩ := run_bind_ok.mp h
  cases h2
  exact ⟨(emit_eq h1).1, (emit_eq h1).2.2⟩

theorem pushScope_eq {u : Unit} {c c' : Compiler} (h : pushScope c = .ok u c') :
    c.chunks.code.length < MAX_CODE ∧ c' = (c.push .pushScope).atDepth (c.scope + 1) := by
  unfold pushScope at h
  rw [run_get] at h
  split_ifs at h
  · cases h
  · obtain ⟨_, c1, h1, h2⟩ := run_bind_ok.mp h
    obtain ⟨hroom, rfl⟩ := emitted_eq h1
    cases h2
    exact ⟨hroom, rfl⟩

theorem popScope_eq {u : Unit} {c c' : Compiler} (h : popScope c = .ok u c') :
    c.chunks.code.length < MAX_CODE ∧ c' = (c.push .popScope).atDepth (c.scope - 1) := by
  obtain ⟨_, c1, h1, h2⟩ := run_bind_ok.mp h
  obtain ⟨hroom, rfl⟩ := emitted_eq h1
  cases h2
  exact ⟨hroom, rfl⟩

section Loops
variable {x : CompM Unit} {P : Unit → Site → ℕ → ℕ → Prop}

/-- A block of its own. -/
theorem emits_scoped (hx : Emits x P) :
    Emits (do
      pushScope
      x
      popScope) fun _ S p q => ∃ m, S.has p .pushScope ∧ P () S.deeper (p + 1) m ∧
        S.has m .popScope ∧ q = m + 1 := by
  intro c a c' h
  obtain ⟨_, c1, h1, h⟩ := run_bind_ok.mp h
  obtain ⟨_, c2, h2, h3⟩ := run_bind_ok.mp h
  obtain ⟨hroom, rfl⟩ := pushScope_eq h1
  obtain ⟨hroom', rfl⟩ := popScope_eq h3
  obtain ⟨new, hs, g, hp⟩ := hx _ _ _ h2
  have g1 : Grown c ((c.push .pushScope).atDepth (c.scope + 1)) [] := grown_atDepth (grown_push _ hroom) _
  have g3 : Grown c2 ((c2.push .popScope).atDepth (c2.scope - 1)) [] := grown_atDepth (grown_push _ hroom') _
  have g12 := g1.trans g
  refine ⟨[] ++ new ++ [], ?_, g12.trans g3, fun im target hfin => ⟨c2.chunks.code.length, ?_, ?_, ?_, ?_⟩⟩
  · change c2.scope - 1 = c.scope
    rw [hs]
    exact Nat.add_sub_cancel _ _
  · have hf := (hfin.first g3).first g
    exact final_push (final_atDepth hf)
  · have := hp im target ((hfin.first g3).second g1 g1.code.length_le)
    change P () ((c.site im target).deeper) (c.push .pushScope).chunks.code.length c2.chunks.code.length at this
    rwa [c.push_length] at this
  · exact final_push (final_atDepth (hfin.second g12 g12.code.length_le))
  · exact c2.push_length _

/-- A loop whose body is its own. -/
theorem emits_loop (hx : Emits x P) :
    Emits (do
      beginLoop (← get).scope
      x
      let target ← here
      endLoop target) fun _ S p q => P () (S.inLoop q) p q := by
  intro c a c' h
  rw [run_get] at h
  obtain ⟨_, c1, h1, h⟩ := run_bind_ok.mp h
  obtain ⟨_, c2, h2, h⟩ := run_bind_ok.mp h
  obtain ⟨_, c3, h3, h⟩ := run_bind_ok.mp h
  obtain rfl := beginLoop_eq h1
  cases h3
  obtain rfl := endLoop_eq h
  obtain ⟨new, hs, g, hp⟩ := hx _ _ _ h2
  refine ⟨[], hs, grown_close g _, fun im target hfin => ?_⟩
  rw [Compiler.close_length]
  exact hp im _ (final_close g hfin)

/-- A loop with a jump behind it from its start. -/
theorem emits_while (i : Instr) (hx : Emits x P) :
    Emits (do
      let j ← emit i
      beginLoop (← get).scope
      x
      let target ← here
      patchA j target
      endLoop target) fun _ S p q => S.has p (i.setA q) ∧ P () (S.inLoop q) (p + 1) q := by
  intro c a c' h
  obtain ⟨j, c1, h1, h⟩ := run_bind_ok.mp h
  rw [run_get] at h
  obtain ⟨_, c2, h2, h⟩ := run_bind_ok.mp h
  obtain ⟨_, c3, h3, h⟩ := run_bind_ok.mp h
  obtain ⟨_, c4, h4, h⟩ := run_bind_ok.mp h
  obtain ⟨_, c5, h5, h⟩ := run_bind_ok.mp h
  obtain ⟨hroom, rfl, rfl⟩ := emit_eq h1
  obtain rfl := beginLoop_eq h2
  cases h4
  obtain rfl := patchA_eq h5
  obtain rfl := endLoop_eq h
  obtain ⟨new, hs, g, hp⟩ := hx _ _ _ h3
  have hj : c.chunks.code.length < (c.push i).chunks.code.length := by rw [c.push_length]; omega
  rw [close_patch g hj]
  have g' := grown_close g c3.chunks.code.length
  refine ⟨[], hs, grown_patch hroom g' _, fun im target hfin => ?_⟩
  obtain ⟨hi, hfin⟩ := final_patch g' hfin
  have := hp im _ (final_close g hfin)
  rw [Compiler.patch_length, Compiler.close_length]
  refine ⟨hi, ?_⟩
  rw [← c.push_length i]
  exact this

/-- Nobody asks for the address. -/
theorem here_unused {α : Type} (k : CompM α) : (do
    let _ ← here
    k) = k := (rfl)

/-- A loop with a block of its own, a jump out of it (`i`) at its start. -/
theorem emits_counted {y z : CompM Unit} {body : ℕ → ℕ → CompM Unit} {Y Z : Unit → Site → ℕ → ℕ → Prop}
    {B : ℕ → ℕ → Unit → Site → ℕ → ℕ → Prop} (i : Instr) (hy : Emits y Y) (hz : Emits z Z)
    (hb : ∀ a b, Emits (body a b) (B a b)) :
    Emits (do
      pushScope
      y
      let start ← here
      let j ← emit i
      let inner ← here
      z
      beginLoop ((← get).scope - 1)
      body start inner
      let forEnd ← here
      popScope
      patchA j forEnd
      let target ← here
      endLoop target) fun _ S p q => ∃ m m₁ m', S.has p .pushScope ∧ Y () S.deeper (p + 1) m ∧
        S.has m (i.setA m') ∧ Z () S.deeper (m + 1) m₁ ∧ B m (m + 1) () (S.inLoop q).deeper m₁ m' ∧
        S.has m' .popScope ∧ q = m' + 1 := by
  intro c a c' h
  obtain ⟨_, c1, h1, h⟩ := run_bind_ok.mp h
  obtain ⟨_, c2, h2, h⟩ := run_bind_ok.mp h
  obtain ⟨_, _, h3, h⟩ := run_bind_ok.mp h
  cases h3
  obtain ⟨j, c3, h3, h⟩ := run_bind_ok.mp h
  obtain ⟨_, _, h4, h⟩ := run_bind_ok.mp h
  cases h4
  obtain ⟨_, c4, h4, h⟩ := run_bind_ok.mp h
  rw [run_get] at h
  obtain ⟨_, c5, h5, h⟩ := run_bind_ok.mp h
  obtain ⟨_, c6, h6, h⟩ := run_bind_ok.mp h
  obtain ⟨_, _, h7, h⟩ := run_bind_ok.mp h
  cases h7
  obtain ⟨_, c7, h7, h⟩ := run_bind_ok.mp h
  obtain ⟨_, c8, h8, h⟩ := run_bind_ok.mp h
  obtain ⟨_, _, h9, h⟩ := run_bind_ok.mp h
  cases h9
  obtain ⟨hroom, rfl⟩ := pushScope_eq h1
  obtain ⟨hroom', rfl, rfl⟩ := emit_eq h3
  obtain rfl := beginLoop_eq h5
  obtain ⟨hroom₂, rfl⟩ := popScope_eq h7
  obtain rfl := patchA_eq h8
  obtain rfl := endLoop_eq h
  rw [Compiler.patch_length]
  obtain ⟨new₁, s1, g1, hY⟩ := hy _ _ _ h2
  obtain ⟨new₂, s2, g2, hZ⟩ := hz _ _ _ h4
  obtain ⟨new₃, s3, g3, hB⟩ := hb _ _ _ _ _ h6
  have hd : c4.scope = c.scope + 1 := s2.trans s1
  set last := (c6.push .popScope).atDepth (c6.scope - 1) with hlast
  have g0 : Grown c ((c.push .pushScope).atDepth (c.scope + 1)) [] := grown_atDepth (grown_push _ hroom) _
  have gp : Grown c6 last [] := grown_atDepth (grown_push _ hroom₂) _
  have gl : Grown (c4.enter (c4.scope - 1)) last (new₃ ++ []) := g3.trans gp
  have hlen4 := g2.code.length_le
  have hlen : (c2.push i).chunks.code.length = c2.chunks.code.length + 1 := c2.push_length i
  -- the loop is closed, then the jump at its start is filled in
  rw [close_patch gl (show c2.chunks.code.length < c4.chunks.code.length by omega)]
  have gc := grown_close gl last.chunks.code.length
  have gz := g2.trans gc
  have gt := grown_patch hroom' gz c6.chunks.code.length
  have g01 := g0.trans g1
  refine ⟨[] ++ new₁ ++ (new₂ ++ []), ?_, g01.trans gt, fun im target hfin => ?_⟩
  · change c6.scope - 1 = c.scope
    rw [s3]
    change c4.scope - 1 = c.scope
    omega
  have hfin01 := hfin.first gt
  obtain ⟨hi, hfin2⟩ := final_patch gz (hfin.second g01 g01.code.length_le)
  have hfinz := hfin2.first gc
  have hfinl := final_close gl (hfin2.second g2 g2.code.length_le)
  have hlastlen : last.chunks.code.length = c6.chunks.code.length + 1 := c6.push_length _
  rw [Compiler.patch_length, Compiler.close_length, hlastlen]
  have hsite2 : (c2.push i).site im target = (c.site im target).deeper :=
    (g1.site_eq s1 im target).trans rfl
  refine ⟨c2.chunks.code.length, c4.chunks.code.length, c6.chunks.code.length, ?_, ?_, hi, ?_, ?_, ?_, rfl⟩
  · have hf := hfin01.first g1
    exact final_push (final_atDepth hf)
  · have := hY im target (hfin01.second g0 g0.code.length_le)
    change Y () ((c.site im target).deeper) (c.push .pushScope).chunks.code.length _ at this
    rwa [c.push_length] at this
  · have := hZ im target hfinz
    rwa [hsite2, hlen] at this
  · have hB' := hB im last.chunks.code.length (hfinl.first gp)
    have hsite : (c4.enter (c4.scope - 1)).site im last.chunks.code.length =
        ((c.site im target).inLoop last.chunks.code.length).deeper := by
      unfold Compiler.enter Compiler.site Site.inLoop Site.deeper
      simp only [hd, List.head?_cons, Option.map_some, Nat.add_sub_cancel, Site.mk.injEq, true_and]
      rw [g2.funcs]
      exact congrArg _ (g1.funcs.trans rfl)
    rw [hsite, hlastlen] at hB'
    have hh : (c2.push i).chunks.code.length = c2.chunks.code.length + 1 := c2.push_length i
    rw [hh] at hB'
    exact hB'
  · exact final_push (final_atDepth (hfinl.second g3 g3.code.length_le))

end Loops

end Lua
end Rustrapper

/-
# Blocks and frames

The machine keeps the variables of a block in a frame, the oldest first, and
finds the first of a name; the meaning of a script keeps them in a scope, the
newest first. `lay` puts scopes into frames. While no block has two variables
of one name, the machine finds and changes the variables it should.
-/
import Rustrapper.Lua.Meaning
import Rustrapper.Lua.Steps

namespace Rustrapper
namespace Lua

/-- A variable as a frame holds it. -/
def toLocal (b : StrRef × Value) : Local := ⟨b.1, b.2, NO_CELL⟩

/-- The variables of a block as a frame holds them. -/
def localsOf (bs : Bindings) : List Local := bs.reverse.map toLocal

/-- Scopes in the frames of a function. -/
def lay (sk : List Frame) (env : Env) : List Frame :=
  List.zipWith (fun f bs => { f with locals := localsOf bs }) sk env

/-- The frames of a running function that captures nothing: those of its
blocks, then its own. -/
def IsBody : List Frame → Prop
  | [] => False
  | [f] => f.retIp ≠ 0 ∧ f.closure = NO_CLOSURE
  | f :: g :: fs => f.retIp = 0 ∧ IsBody (g :: fs)

/-- The names of the variables, block by block. -/
def scopeNames (env : Env) : List (List StrRef) := env.map (·.map Prod.fst)

@[simp] theorem scopeNames_nil : scopeNames [] = [] := rfl

@[simp] theorem scopeNames_cons (bs : Bindings) (env : Env) :
    scopeNames (bs :: env) = bs.map Prod.fst :: scopeNames env := rfl

@[simp] theorem scopeNames_tail (env : Env) : scopeNames env.tail = (scopeNames env).tail := by
  cases env <;> rfl

theorem length_scopeNames (env : Env) : (scopeNames env).length = env.length := List.length_map _

theorem scopeNames_length {env env' : Env} (h : scopeNames env' = scopeNames env) : env'.length = env.length := by
  rw [← length_scopeNames, h, length_scopeNames]

/-- No two variables of a block have one name. -/
def Distinct (env : Env) : Prop := ∀ bs ∈ env, (bs.map Prod.fst).Nodup

/-! ### One block -/

section Block
variable {bs : Bindings} {name : StrRef} {v : Value}

theorem lookup_eq_some_iff : ∀ {bs : Bindings}, (bs.map Prod.fst).Nodup →
    (bs.lookup name = some v ↔ (name, v) ∈ bs)
  | [], _ => by simp
  | (k, w) :: bs, hd => by
    rw [List.map_cons, List.nodup_cons] at hd
    by_cases h : name = k
    · subst h
      have hnot : (name, v) ∉ bs := fun hx => hd.1 (List.mem_map.mpr ⟨_, hx, rfl⟩)
      simp [hnot, eq_comm]
    · have hb : (name == k) = false := by simpa using h
      simp [List.lookup_cons, hb, lookup_eq_some_iff hd.2, h]

theorem lookup_reverse (hd : (bs.map Prod.fst).Nodup) : bs.reverse.lookup name = bs.lookup name := by
  refine Option.ext fun v => ?_
  rw [lookup_eq_some_iff hd, lookup_eq_some_iff (by rwa [List.map_reverse, List.nodup_reverse]),
    List.mem_reverse]

theorem find?_toLocal (name : StrRef) : ∀ bs : Bindings,
    (bs.map toLocal).find? (fun l => l.name = name) = (bs.lookup name).map fun v => ⟨name, v, NO_CELL⟩
  | [] => rfl
  | (k, w) :: bs => by
    by_cases h : k = name
    · subst h
      simp [toLocal]
    · have hb : (name == k) = false := by simpa using Ne.symm h
      have ih := find?_toLocal name bs
      simp [toLocal, List.lookup_cons, hb, h] at ih ⊢
      exact ih

/-- The variable a frame finds is the newest of that name. -/
theorem find_localsOf (f : Frame) (hd : (bs.map Prod.fst).Nodup) (name : StrRef) :
    Frame.find { f with locals := localsOf bs } name =
      (bs.lookup name).map fun v => ⟨name, v, NO_CELL⟩ := by
  rw [Frame.find, localsOf, find?_toLocal, lookup_reverse hd]

/-- Where one entry at most satisfies `p`, changing the first is changing all. -/
theorem updateFirst_eq_map {α : Type} {p : α → Bool} {g : α → α} : ∀ {l : List α},
    l.Pairwise (fun a b => p a → ¬ p b) → updateFirst p g l = l.map fun a => if p a then g a else a
  | [], _ => rfl
  | a :: l, hl => by
    rw [List.pairwise_cons] at hl
    rw [updateFirst, List.map_cons]
    by_cases h : p a
    · have hrest : l.map (fun a => if p a then g a else a) = l := by
        conv_rhs => rw [← List.map_id l]
        exact List.map_congr_left fun b hb => if_neg (hl.1 b hb h)
      rw [if_pos h, if_pos h, hrest]
    · rw [if_neg h, if_neg h, updateFirst_eq_map hl.2]

theorem pairwise_of_nodup {α : Type} {f : α → StrRef} {l : List α} (hd : (l.map f).Nodup) (name : StrRef) :
    l.Pairwise fun a b => decide (f a = name) → ¬ decide (f b = name) := by
  rw [List.Nodup, List.pairwise_map] at hd
  refine hd.imp fun hne ha hb => hne ?_
  rw [decide_eq_true_eq] at ha hb
  rw [ha, hb]

theorem names_localsOf (bs : Bindings) : (localsOf bs).map Local.name = (bs.map Prod.fst).reverse := by
  rw [localsOf, List.map_map, List.map_reverse]
  rfl

/-- Changing the variable a frame finds is changing the newest of that name. -/
theorem update_localsOf (f : Frame) (hd : (bs.map Prod.fst).Nodup) (name : StrRef) (v : Value) :
    Frame.update { f with locals := localsOf bs } name (fun l => { l with value := v }) =
      { f with locals := localsOf (updateFirst (fun p => p.1 = name) (fun p => (p.1, v)) bs) } := by
  have hl : ((localsOf bs).map Local.name).Nodup := by rwa [names_localsOf, List.nodup_reverse]
  unfold Frame.update
  simp only
  congr 1
  rw [updateFirst_eq_map (pairwise_of_nodup hl name), updateFirst_eq_map (pairwise_of_nodup hd name)]
  simp only [localsOf, ← List.map_reverse, List.map_map]
  refine List.map_congr_left fun b _ => ?_
  by_cases h : b.1 = name <;> simp [toLocal, h]

theorem names_updateFirst (name : StrRef) (v : Value) : ∀ bs : Bindings,
    (updateFirst (fun p => p.1 = name) (fun p => (p.1, v)) bs).map Prod.fst = bs.map Prod.fst
  | [] => rfl
  | p :: bs => by
    rw [updateFirst]
    split_ifs
    · rfl
    · rw [List.map_cons, List.map_cons, names_updateFirst name v bs]

theorem lookup_isSome (name : StrRef) : ∀ bs : Bindings, (bs.lookup name).isSome = bs.any (·.1 = name)
  | [] => rfl
  | (k, w) :: bs => by
    by_cases h : k = name
    · subst h
      simp
    · have hb : (name == k) = false := by simpa using Ne.symm h
      simp [List.lookup_cons, hb, h, lookup_isSome name bs]

end Block

/-! ### The blocks of a function -/

section Function
variable {s : Machine} {rest : List Frame} {name : StrRef} {v : Value}

theorem lay_cons (f : Frame) (sk : List Frame) (bs : Bindings) (env : Env) :
    lay (f :: sk) (bs :: env) = { f with locals := localsOf bs } :: lay sk env := rfl

theorem Distinct.head {bs : Bindings} {env : Env} (h : Distinct (bs :: env)) : (bs.map Prod.fst).Nodup :=
  h bs (List.mem_cons_self ..)

theorem Distinct.tail {bs : Bindings} {env : Env} (h : Distinct (bs :: env)) : Distinct env :=
  fun b hb => h b (List.mem_cons_of_mem _ hb)

/-- The variable of that name: the number of its block, and what the frame of the block has. -/
def placeIn (name : StrRef) : Env → ℕ → Option Place
  | [], _ => none
  | bs :: env, d =>
    match bs.lookup name with
    | some v => some (.local d ⟨name, v, NO_CELL⟩)
    | none => placeIn name env (d + 1)

/-- The machine finds the variable. -/
theorem findPlace_lay : ∀ {sk : List Frame} {env : Env} (d : ℕ), IsBody sk → sk.length = env.length →
    Distinct env → s.findPlace name (lay sk env ++ rest) d = placeIn name env d
  | [], _, _, hb, _, _ => hb.elim
  | f :: sk, [], _, _, hl, _ => by simp at hl
  | f :: sk, bs :: env, d, hb, hl, hd => by
    rw [lay_cons, List.cons_append, Machine.findPlace, find_localsOf f hd.head, placeIn]
    cases bs.lookup name with
    | some v => rfl
    | none =>
      cases sk with
      | nil =>
        have henv : env = [] := by
          rw [List.length_cons, List.length_cons, List.length_nil] at hl
          exact List.length_eq_zero_iff.mp (by omega)
        subst henv
        obtain ⟨hret, hclos⟩ := hb
        simp [hret, Machine.closureOf, hclos, placeIn]
      | cons g sk =>
        have hret : f.retIp = 0 := hb.1
        simp only [Option.map_none, hret, ne_eq, not_true_eq_false, if_false]
        exact findPlace_lay (d + 1) hb.2 (by simpa using hl) hd.tail

theorem findVar_eq : ∀ (env : Env) (d : ℕ), (placeIn name env d = none ∧ findVar name env = none) ∨
    ∃ d' v, placeIn name env d = some (.local d' ⟨name, v, NO_CELL⟩) ∧ findVar name env = some v
  | [], _ => .inl ⟨rfl, rfl⟩
  | bs :: env, d => by
    rw [placeIn, findVar]
    cases bs.lookup name with
    | some v => exact .inr ⟨d, v, rfl, rfl⟩
    | none => exact findVar_eq env (d + 1)

/-- **Reading a variable**: the machine's lookup is that of the scopes, then of the globals. -/
theorem lookup_lay {sk : List Frame} {env : Env} (hs : s.frames = lay sk env ++ rest) (hb : IsBody sk)
    (hl : sk.length = env.length) (hd : Distinct env) :
    s.lookup name = (findVar name env).or (s.globalValue name) := by
  unfold Machine.lookup
  rw [hs, findPlace_lay 0 hb hl hd]
  rcases findVar_eq env 0 with ⟨h1, h2⟩ | ⟨d, v, h1, h2⟩
  · rw [h1, h2]
    rfl
  · rw [h1, h2]
    rfl

/-- Assigning keeps the names of the variables. -/
theorem assignVarIn_names : ∀ {env env' : Env}, assignVarIn name v env = some env' →
    scopeNames env' = scopeNames env
  | [], _, h => by cases h
  | bs :: env, env', h => by
    rw [assignVarIn] at h
    split_ifs at h
    · cases h
      rw [scopeNames_cons, scopeNames_cons, names_updateFirst]
    · obtain ⟨env₁, h1, rfl⟩ := Option.map_eq_some_iff.mp h
      rw [scopeNames_cons, scopeNames_cons, assignVarIn_names h1]

/-- Writing a variable: the frame of its block changes. -/
theorem assign_lay : ∀ {sk : List Frame} {env : Env} (d : ℕ), sk.length = env.length → Distinct env →
    (placeIn name env d = none ∧ assignVarIn name v env = none) ∨
      ∃ k w env', placeIn name env d = some (.local (d + k) ⟨name, w, NO_CELL⟩) ∧
        assignVarIn name v env = some env' ∧
        (lay sk env ++ rest).modify k (·.update name fun l => { l with value := v }) = lay sk env' ++ rest
  | _, [], _, _, _ => .inl ⟨rfl, rfl⟩
  | [], _ :: _, _, hl, _ => by simp at hl
  | f :: sk, bs :: env, d, hl, hd => by
    have hany := lookup_isSome name bs
    rw [placeIn, assignVarIn]
    cases hlook : bs.lookup name with
    | some w =>
      rw [hlook, Option.isSome_some] at hany
      refine .inr ⟨0, w, _, rfl, if_pos hany.symm, ?_⟩
      rw [lay_cons, lay_cons, List.cons_append, List.modify_zero_cons, update_localsOf f hd.head]
      rfl
    | none =>
      rw [hlook, Option.isSome_none] at hany
      rw [if_neg (by rw [← hany]; exact Bool.false_ne_true)]
      rcases assign_lay (d + 1) (by simpa using hl) hd.tail with
        ⟨h1, h2⟩ | ⟨k, w, env', h1, h2, h3⟩
      · exact .inl ⟨h1, by rw [h2]; rfl⟩
      · refine .inr ⟨k + 1, w, bs :: env', by rw [h1, show d + 1 + k = d + (k + 1) by omega], by rw [h2]; rfl, ?_⟩
        rw [lay_cons, lay_cons, List.cons_append, List.modify_succ_cons, h3]
        rfl

theorem Distinct.of_names {env env' : Env} (h : Distinct env)
    (hn : scopeNames env' = scopeNames env) : Distinct env' := by
  intro bs hbs
  have hm : bs.map Prod.fst ∈ scopeNames env' := List.mem_map_of_mem hbs
  rw [hn] at hm
  obtain ⟨b, hb, he⟩ := List.mem_map.mp hm
  rw [← he]
  exact h b hb

/-! ### Declarations -/

theorem bindLocals_eq : ∀ (names : List StrRef) (vs : List Value),
    bindLocals names vs = (bindNames names vs).map toLocal
  | [], _ => rfl
  | _ :: names, vs => by
    rw [bindLocals, bindNames, List.map_cons, bindLocals_eq names]
    rfl

theorem names_bindNames : ∀ (names : List StrRef) (vs : List Value),
    (bindNames names vs).map Prod.fst = names
  | [], _ => rfl
  | _ :: names, vs => by rw [bindNames, List.map_cons, names_bindNames names]

/-- New variables go behind the old ones of the frame. -/
theorem localsOf_declare (names : List StrRef) (vs : List Value) (bs : Bindings) :
    localsOf ((bindNames names vs).reverse ++ bs) = localsOf bs ++ bindLocals names vs := by
  rw [localsOf, List.reverse_append, List.reverse_reverse, List.map_append, bindLocals_eq]
  rfl

/-- The values beyond those there are do not matter. -/
theorem bindNames_padTo : ∀ (names : List StrRef) (vs : List Value),
    bindNames names (vs.take names.length ++ List.replicate (names.length - vs.length) .nil) = bindNames names vs
  | [], _ => rfl
  | _ :: names, [] => by
    have ih := bindNames_padTo names []
    simp only [List.take_nil, List.nil_append, List.length_nil, Nat.sub_zero] at ih
    rw [bindNames, bindNames, List.length_cons]
    simp [List.replicate_succ, ih]
  | _ :: names, v :: vs => by
    have ih := bindNames_padTo names vs
    rw [bindNames, bindNames, List.length_cons, List.length_cons, Nat.add_sub_add_right]
    simp [ih]

end Function

end Lua
end Rustrapper

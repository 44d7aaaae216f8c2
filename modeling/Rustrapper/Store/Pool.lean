/-
# Intern pools

An intern pool keeps words in one append-only log and registers each as a
`Span` of it. A word that is registered already is not stored again, so the
spans are canonical names: two of them are equal exactly when their words are
(`Pool.read_inj`). A pool only ever grows (`Pool.le`), and what a registered
span reads stays the same in every larger pool (`Pool.read_of_le`).
-/
import Mathlib

namespace Store

universe u
variable {α : Type u}

/-! ### Spans -/

/-- A stretch of a log. -/
structure Span where
  off : ℕ
  len : ℕ
deriving DecidableEq, Inhabited

/-- The entries a span covers. -/
def Span.read (s : Span) (log : List α) : List α := (log.drop s.off).take s.len

/-- The span lies inside the first `n` entries. -/
def Span.Within (s : Span) (n : ℕ) : Prop := s.off + s.len ≤ n

theorem Span.length_read {s : Span} {log : List α} (h : s.Within log.length) :
    (s.read log).length = s.len := by
  unfold Span.Within at h
  simp only [Span.read, List.length_take, List.length_drop]
  omega

/-- A span inside a log does not see what is appended to it. -/
theorem Span.read_append {s : Span} {log : List α} (h : s.Within log.length) (w : List α) :
    s.read (log ++ w) = s.read log := by
  unfold Span.Within at h
  unfold Span.read
  rw [List.drop_append_of_le_length (by omega), List.take_append_of_le_length]
  rw [List.length_drop]
  omega

/-- The span of an appended word reads that word. -/
theorem Span.read_last (log w : List α) : (Span.mk log.length w.length).read (log ++ w) = w := by
  simp [Span.read]

theorem Span.Within.mono {s : Span} {m n : ℕ} (h : s.Within m) (hmn : m ≤ n) : s.Within n :=
  Nat.le_trans h hmn

/-! ### Pools -/

/-- A log and the spans registered in it: all inside the log, no two of them
with the same word. -/
structure Pool (α : Type u) where
  log : List α
  spans : List Span
  within : ∀ s ∈ spans, s.Within log.length
  distinct : spans.Pairwise fun s t => s.read log ≠ t.read log

/-- The pool with nothing in it. -/
def Pool.empty : Pool α := ⟨[], [], by simp, .nil⟩

/-- **Registered spans are canonical: they are equal when their words are.** -/
theorem Pool.read_inj (p : Pool α) {s t : Span} (hs : s ∈ p.spans) (ht : t ∈ p.spans) :
    s.read p.log = t.read p.log ↔ s = t := by
  refine ⟨fun h => ?_, fun h => by rw [h]⟩
  have hsymm : Std.Symm fun s t : Span => s.read p.log ≠ t.read p.log := ⟨fun _ _ h => h.symm⟩
  by_contra hne
  exact p.distinct.forall hs ht hne h

/-- Register a word that is not registered yet. -/
def Pool.add (p : Pool α) (w : List α) (h : ∀ s ∈ p.spans, s.read p.log ≠ w) : Pool α where
  log := p.log ++ w
  spans := p.spans ++ [⟨p.log.length, w.length⟩]
  within := by
    intro s hs
    rcases List.mem_append.mp hs with hs | hs
    · exact (p.within s hs).mono (by simp)
    · rw [List.mem_singleton.mp hs]
      simp [Span.Within]
  distinct := by
    rw [List.pairwise_append]
    refine ⟨?_, List.pairwise_singleton _ _, ?_⟩
    · refine p.distinct.imp_of_mem fun {s t} hs ht hne => ?_
      rwa [Span.read_append (p.within s hs), Span.read_append (p.within t ht)]
    · intro s hs t ht
      rw [List.mem_singleton.mp ht, Span.read_last, Span.read_append (p.within s hs)]
      exact h s hs

section Intern
variable [DecidableEq α]

/-- The first span with the given word. -/
def Pool.find (p : Pool α) (w : List α) : Option Span := p.spans.find? fun s => s.read p.log = w

theorem Pool.find_some {p : Pool α} {w : List α} {s : Span} (h : p.find w = some s) :
    s ∈ p.spans ∧ s.read p.log = w :=
  ⟨List.mem_of_find?_eq_some h, by simpa using List.find?_some h⟩

theorem Pool.find_none {p : Pool α} {w : List α} (h : p.find w = none) :
    ∀ s ∈ p.spans, s.read p.log ≠ w := by
  simpa [Pool.find] using h

end Intern

/-! ### Growth -/

/-- `q` has everything `p` has, and perhaps more behind it. -/
def Pool.le (p q : Pool α) : Prop := p.log <+: q.log ∧ p.spans <+: q.spans

theorem Pool.le_refl (p : Pool α) : p.le p := ⟨List.prefix_refl _, List.prefix_refl _⟩

theorem Pool.le_trans {p q r : Pool α} (h : p.le q) (h' : q.le r) : p.le r :=
  ⟨h.1.trans h'.1, h.2.trans h'.2⟩

theorem Pool.le_add (p : Pool α) (w : List α) (h : ∀ s ∈ p.spans, s.read p.log ≠ w) :
    p.le (p.add w h) := ⟨List.prefix_append _ _, List.prefix_append _ _⟩

theorem Pool.mem_of_le {p q : Pool α} (h : p.le q) {s : Span} (hs : s ∈ p.spans) : s ∈ q.spans :=
  h.2.subset hs

/-- **A registered span reads the same in every larger pool.** -/
theorem Pool.read_of_le {p q : Pool α} (h : p.le q) {s : Span} (hs : s ∈ p.spans) :
    s.read q.log = s.read p.log := by
  obtain ⟨w, hw⟩ := h.1
  rw [← hw, Span.read_append (p.within s hs)]

/-- The names of two words, the second registered later, agree exactly when
the words do. -/
theorem Pool.name_eq_iff {p q : Pool α} (h : p.le q) {s t : Span} {v w : List α}
    (hs : s ∈ p.spans) (hv : s.read p.log = v) (ht : t ∈ q.spans) (hw : t.read q.log = w) :
    s = t ↔ v = w := by
  rw [← q.read_inj (Pool.mem_of_le h hs) ht, Pool.read_of_le h hs, hv, hw]

end Store

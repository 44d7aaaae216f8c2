/-
# Tokens, written out

A text is written from pieces: a token, one of its texts, and what divides it
from the next token. `next_token` gives a name as an offset in 32 bits and a
length in 16, so the tokens come back exactly when every identifier fits
(`lexer_round_trip`).
-/
import Rustrapper.Lua.Spelling

namespace Rustrapper
namespace Lua

/-! ### The source -/

/-- The identifier of `Tok::Name(start as u32, len as u16)`: `src[off..][..len]`. -/
def nameText (src : List UInt8) (start len : ℕ) : List UInt8 :=
  (src.drop (start % 2 ^ 32)).take (len % 2 ^ 16)

/-- `next_token` in `src`, of which `cs` is still to be read. -/
def nextTokenIn (src cs : List UInt8) : LexResult :=
  match nextToken cs with
  | (.ok (.name _), rest) =>
    let start := src.length - (skipBlank false cs).length
    (.ok (.name (nameText src start (src.length - rest.length - start))), rest)
  | r => r

/-- The calls of `next_token` return `ts`, one after the other. -/
def GivesBack (src : List UInt8) : List UInt8 → List Tok → Prop
  | _, [] => True
  | cs, t :: ts => ∃ rest, nextTokenIn src cs = (.ok t, rest) ∧ GivesBack src rest ts

/-! ### Writing tokens -/

/-- The texts of a token. -/
inductive Spells : Tok → List UInt8 → Prop where
  | listed {t : Tok} {w : List UInt8} (h : (w, t) ∈ keywords ++ symbols) : Spells t w
  | name {b : List UInt8} (hfirst : (b.head?.map isAlpha) = some true) (hbytes : b.all isNameByte = true)
    (hfree : keywords.lookup b = none) : Spells (.name b) b
  | num {n : Int64} {ds : List UInt8} (hd : ds.all isDigit = true) (hne : ds ≠ [])
    (hn : (decValue ds : ℤ) = n.toInt) : Spells (.num n) ds
  | str {q : UInt8} {b w : List UInt8} (hq : q = 34 ∨ q = 39) (h : Escaped q b w) (hlen : b.length ≤ 256) :
    Spells (.str b) (q :: (w ++ [q]))

/-- Blanks and comment lines. -/
inductive Gap : List UInt8 → Prop where
  | nil : Gap []
  | blank {c : UInt8} {g : List UInt8} (hc : isBlank c = true) (h : Gap g) : Gap (c :: g)
  | comment {b g : List UInt8} (hb : 10 ∉ b) (h : Gap g) : Gap (45 :: 45 :: (b ++ 10 :: g))

/-- A token, its text and what stands behind it. -/
structure Piece where
  tok : Tok
  text : List UInt8
  after : List UInt8

def Piece.bytes (p : Piece) : List UInt8 := p.text ++ p.after

/-- A piece is well written; a comment behind a minus sign stands behind a blank. -/
structure Piece.Ok (p : Piece) : Prop where
  spells : Spells p.tok p.text
  gap : Gap p.after
  dash : p.tok = .minus → p.after.head? ≠ some 45

/-- A text written from tokens: between two of them is a blank or a comment line at least. -/
structure Writing where
  lead : List UInt8
  pieces : List Piece
  leadGap : Gap lead
  ok : ∀ p ∈ pieces, p.Ok
  apart : ∀ p ∈ pieces.dropLast, p.after ≠ []

def Writing.toks (w : Writing) : List Tok := w.pieces.map Piece.tok

def Writing.bytes (w : Writing) : List UInt8 := w.lead ++ w.pieces.flatMap Piece.bytes

/-- The tokens that have a text. -/
def Tok.Textual : Tok → Prop
  | .eof => False
  | .float _ => False
  | .num n => 0 ≤ n.toInt
  | .str b => b.length ≤ 256
  | .name b => (b.head?.map isAlpha) = some true ∧ b.all isNameByte = true ∧ keywords.lookup b = none
  | _ => True

theorem exists_spells {t : Tok} (h : t.Textual) : ∃ w, Spells t w := by
  cases t with
  | eof => exact h.elim
  | float f => exact h.elim
  | num n =>
    refine ⟨decimal n.toInt.toNat, .num (decimal_digits _) (decimal_ne_nil _) ?_⟩
    rw [decValue_decimal]
    exact Int.toNat_of_nonneg h
  | str b => exact ⟨_, .str (.inl rfl) (escaped_escape b) h⟩
  | name b => exact ⟨b, .name h.1 h.2.1 h.2.2⟩
  | _ => exact ⟨_, .listed (word_mem (by decide +kernel))⟩

/-- **Every sequence of tokens with a text can be written.** -/
theorem exists_writing : ∀ ts : List Tok, (∀ t ∈ ts, t.Textual) → ∃ w : Writing, w.toks = ts
  | [], _ => ⟨⟨[], [], .nil, by simp, by simp⟩, rfl⟩
  | t :: ts, h => by
    obtain ⟨w, hw⟩ := exists_writing ts fun t' ht' => h t' (List.mem_cons_of_mem t ht')
    obtain ⟨text, htext⟩ := exists_spells (h t List.mem_cons_self)
    have hok : ({ tok := t, text := text, after := [32] } : Piece).Ok := ⟨htext, .blank rfl .nil, by simp⟩
    refine ⟨⟨[], ⟨t, text, [32]⟩ :: w.pieces, .nil, ?_, ?_⟩, by simp [Writing.toks, ← hw]⟩
    · exact List.forall_mem_cons.mpr ⟨hok, w.ok⟩
    · intro p hp
      cases hps : w.pieces with
      | nil => simp [hps] at hp
      | cons q qs =>
        rw [hps, List.dropLast_cons_cons] at hp
        rcases List.mem_cons.mp hp with rfl | hp
        · simp
        · exact w.apart p (hps ▸ hp)

/-! ### Between the tokens -/

theorem skipBlank_comment (g : List UInt8) : ∀ {b : List UInt8}, 10 ∉ b →
    skipBlank true (b ++ 10 :: g) = skipBlank false g
  | [], _ => rfl
  | c :: b, h => by
    have hc : c ≠ 10 := fun hc => h (hc ▸ List.mem_cons_self)
    rw [List.cons_append, skipBlank, if_neg hc]
    exact skipBlank_comment g fun hb => h (List.mem_cons_of_mem c hb)

theorem skipBlank_gap {g cs : List UInt8} (h : Gap g) : skipBlank false (g ++ cs) = skipBlank false cs := by
  induction h with
  | nil => rfl
  | blank hc h ih =>
    rw [List.cons_append, skipBlank.eq_def]
    simp only [hc, if_true]
    exact ih
  | @comment b g hb h ih =>
    have hskip : skipBlank false (45 :: 45 :: (b ++ 10 :: g) ++ cs) = skipBlank true (b ++ 10 :: (g ++ cs)) := by
      rw [List.cons_append, List.cons_append, List.append_assoc]
      rfl
    rw [hskip, skipBlank_comment _ hb, ih]

section Lexing
variable {src cs rest g : List UInt8} {t : Tok} {ts : List Tok}

/-- What stands in front of a token is skipped. -/
theorem nextTokenIn_gap (h : Gap g) : nextTokenIn src (g ++ cs) = nextTokenIn src cs := by
  unfold nextTokenIn nextToken
  rw [skipBlank_gap h]

theorem givesBack_gap (h : Gap g) : GivesBack src (g ++ cs) ts ↔ GivesBack src cs ts := by
  cases ts with
  | nil => exact Iff.rfl
  | cons t ts =>
    unfold GivesBack
    rw [nextTokenIn_gap h]

/-- A gap, or the end of the text, stops a token. -/
theorem stops_gap (h : Gap g) (hne : g = [] → cs = []) : Stops (g ++ cs) := by
  intro c hc
  cases h with
  | nil =>
    rw [hne rfl] at hc
    cases hc
  | blank hb h => exact .inl (Option.some.inj hc ▸ hb)
  | comment hb h => exact .inr (Option.some.inj hc).symm

/-! ### One token -/

/-- A token as it comes back from offset `o` of the source. -/
def Tok.seen (src : List UInt8) (o : ℕ) : Tok → Tok
  | .name b => .name (nameText src o b.length)
  | t => t

theorem nextTokenIn_of_ne (h : nextToken cs = (.ok t, rest)) (hne : ∀ b, t ≠ .name b) :
    nextTokenIn src cs = (.ok t, rest) := by
  unfold nextTokenIn
  rw [h]
  split
  · rename_i b rest' heq
    cases heq
    exact absurd rfl (hne b)
  · rfl

theorem ne_name_of_listed {w : List UInt8} (h : (w, t) ∈ keywords ++ symbols) (b : List UInt8) : t ≠ .name b := by
  rintro rfl
  simp [keywords, symbols] at h

theorem nextTokenIn_name {pre b : List UInt8} (hfirst : (b.head?.map isAlpha) = some true)
    (hbytes : b.all isNameByte = true) (hfree : keywords.lookup b = none) (hstop : Stops rest)
    (hsrc : src = pre ++ (b ++ rest)) :
    nextTokenIn src (b ++ rest) = (.ok (.name (nameText src pre.length b.length)), rest) := by
  have hskip : skipBlank false (b ++ rest) = b ++ rest := by
    cases b with
    | nil => cases hfirst
    | cons c b =>
      obtain ⟨hb, hm, -⟩ := isAlpha_plain (Option.some.inj hfirst)
      exact skipBlank_self hb hm
  have hstart : src.length - (b ++ rest).length = pre.length := by
    rw [hsrc, List.length_append]
    omega
  have hlen : src.length - rest.length - pre.length = b.length := by
    rw [hsrc, List.length_append, List.length_append]
    omega
  unfold nextTokenIn
  rw [nextToken_word hfirst hbytes hstop, hfree, Option.getD_none]
  dsimp only
  rw [hskip, hstart, hlen]

/-- **The token at an offset**, whatever its text. -/
theorem nextTokenIn_spells {pre w : List UInt8} (h : Spells t w) (hstop : Stops rest)
    (hdash : t = .minus → rest.head? ≠ some 45) (hsrc : src = pre ++ (w ++ rest)) :
    nextTokenIn src (w ++ rest) = (.ok (t.seen src pre.length), rest) := by
  cases h with
  | listed h =>
    have hseen : t.seen src pre.length = t := by
      cases t with
      | name b => exact absurd rfl (ne_name_of_listed h b)
      | _ => rfl
    rw [hseen]
    exact nextTokenIn_of_ne (nextToken_listed h hstop hdash) (ne_name_of_listed h)
  | name hfirst hbytes hfree => exact nextTokenIn_name hfirst hbytes hfree hstop hsrc
  | @num n ds hd hne hn =>
    have hmax := n.toInt_lt
    have heq : Int64.ofNat (decValue w) = n := by
      rw [← Int64.ofInt_eq_ofNat, hn, Int64.ofInt_toInt]
    have hlex := nextToken_num hd hne (by omega) hstop
    rw [heq] at hlex
    exact nextTokenIn_of_ne hlex fun b => by simp [Tok.seen]
  | str hq he hlen => exact nextTokenIn_of_ne (nextToken_quoted hq he hlen) fun b => by simp [Tok.seen]

end Lexing

/-! ### Whole texts -/

/-- An identifier at offset `o` fits in its token: its length does, and so does its offset, or the text has
the same bytes at what is kept of the offset. -/
def Fits (src : List UInt8) (o : ℕ) (b : List UInt8) : Prop :=
  b.length < 2 ^ 16 ∧ (o < 2 ^ 32 ∨ b <+: src.drop (o % 2 ^ 32))

/-- Every identifier of the pieces, the first of which is at offset `o`, fits. -/
def NamesFit (src : List UInt8) : ℕ → List Piece → Prop
  | _, [] => True
  | o, p :: ps => (∀ b, p.tok = .name b → Fits src o b) ∧ NamesFit src (o + p.bytes.length) ps

section Texts
variable {src pre : List UInt8}

theorem nameText_iff {b rest : List UInt8} (hsrc : src = pre ++ (b ++ rest)) :
    nameText src pre.length b.length = b ↔ Fits src pre.length b := by
  unfold nameText Fits
  constructor
  · intro h
    have hlen : b.length < 2 ^ 16 := by
      have hle := congrArg List.length h
      rw [List.length_take] at hle
      omega
    rw [Nat.mod_eq_of_lt hlen] at h
    exact ⟨hlen, .inr (List.prefix_iff_eq_take.mpr h.symm)⟩
  · rintro ⟨hlen, ho | hpre⟩
    · rw [Nat.mod_eq_of_lt hlen, Nat.mod_eq_of_lt ho, hsrc, List.drop_left, List.take_left]
    · rw [Nat.mod_eq_of_lt hlen]
      exact (List.prefix_iff_eq_take.mp hpre).symm

theorem seen_iff {t : Tok} {w rest : List UInt8} (h : Spells t w) (hsrc : src = pre ++ (w ++ rest)) :
    t.seen src pre.length = t ↔ ∀ b, t = .name b → Fits src pre.length b := by
  cases t with
  | name b =>
    have hw : w = b := by
      cases h with
      | listed h => exact absurd rfl (ne_name_of_listed h b)
      | name => rfl
    rw [hw] at hsrc
    have hfit := nameText_iff hsrc
    simp only [Tok.seen, Tok.name.injEq]
    exact ⟨fun h b' hb => hb ▸ hfit.mp h, fun h => hfit.mpr (h b rfl)⟩
  | _ => simp [Tok.seen]

theorem mem_dropLast_cons {p q : Piece} {ps : List Piece} (hq : q ∈ ps.dropLast) : q ∈ (p :: ps).dropLast := by
  have hne : ps ≠ [] := by
    rintro rfl
    cases hq
  rw [List.dropLast_cons_of_ne_nil hne]
  exact List.mem_cons_of_mem p hq

/-- **The pieces come back exactly when the identifiers fit.** -/
theorem givesBack_pieces : ∀ {ps : List Piece} {pre : List UInt8}, src = pre ++ ps.flatMap Piece.bytes →
    (∀ p ∈ ps, p.Ok) → (∀ p ∈ ps.dropLast, p.after ≠ []) →
    (GivesBack src (ps.flatMap Piece.bytes) (ps.map Piece.tok ++ [.eof]) ↔ NamesFit src pre.length ps)
  | [], _, _, _, _ => iff_of_true ⟨[], rfl, trivial⟩ trivial
  | p :: ps, pre, hsrc, hok, hapart => by
    have hp := hok p List.mem_cons_self
    have hend : p.after = [] → ps.flatMap Piece.bytes = [] := by
      intro he
      cases ps with
      | nil => rfl
      | cons q qs =>
        refine absurd he (hapart p ?_)
        rw [List.dropLast_cons_cons]
        exact List.mem_cons_self
    have hbytes : (p :: ps).flatMap Piece.bytes = p.text ++ (p.after ++ ps.flatMap Piece.bytes) := by
      rw [List.flatMap_cons, Piece.bytes, List.append_assoc]
    have hdash : p.tok = .minus → (p.after ++ ps.flatMap Piece.bytes).head? ≠ some 45 := by
      intro ht
      cases ha : p.after with
      | nil => simp [hend ha]
      | cons c g => simpa [ha] using hp.dash ht
    have hsrc' := hsrc
    rw [hbytes] at hsrc'
    have hnext := nextTokenIn_spells hp.spells (stops_gap hp.gap hend) hdash hsrc'
    have hrest := @givesBack_pieces ps (pre ++ p.bytes) (by rw [hsrc, List.flatMap_cons, List.append_assoc])
      (fun q hq => hok q (List.mem_cons_of_mem p hq)) fun q hq => hapart q (mem_dropLast_cons hq)
    rw [List.length_append] at hrest
    rw [hbytes, List.map_cons, List.cons_append]
    unfold GivesBack NamesFit
    rw [hnext, ← hrest, ← seen_iff hp.spells hsrc', ← givesBack_gap hp.gap]
    constructor
    · rintro ⟨rest, heq, h⟩
      obtain ⟨ht, rfl⟩ := Prod.mk.inj heq
      exact ⟨Except.ok.inj ht, h⟩
    · rintro ⟨ht, h⟩
      exact ⟨_, by rw [ht], h⟩

end Texts

/-- **The lexer gives written tokens back, and then `Eof`, exactly when every identifier fits in its token.** -/
theorem lexer_round_trip (w : Writing) :
    GivesBack w.bytes w.bytes (w.toks ++ [.eof]) ↔ NamesFit w.bytes w.lead.length w.pieces :=
  (givesBack_gap w.leadGap).trans (givesBack_pieces rfl w.ok w.apart)

/-- A name of `n` letters. -/
def letters (n : ℕ) : List UInt8 := List.replicate n 97

theorem spells_letters {n : ℕ} (hn : 65536 ≤ n) : Spells (.name (letters n)) (letters n) := by
  obtain ⟨m, rfl⟩ : ∃ m, n = m + 1 := ⟨n - 1, by omega⟩
  have hall : (letters (m + 1)).all isNameByte = true := by
    unfold letters
    rw [List.all_replicate, if_neg (Nat.succ_ne_zero m)]
    rfl
  refine .name rfl hall (List.lookup_eq_none_iff.mpr fun kw hkw => ?_)
  have hshort : ∀ kw ∈ keywords, kw.1.length < 65536 := by decide +kernel
  rw [bne_iff_ne]
  intro h
  have hlen : (letters (m + 1)).length < 65536 := h ▸ hshort kw hkw
  rw [letters, List.length_replicate] at hlen
  omega

/-- The text that is this name. -/
def longText (n : ℕ) (hn : 65536 ≤ n) : Writing where
  lead := []
  pieces := [⟨.name (letters n), letters n, []⟩]
  leadGap := .nil
  ok := List.forall_mem_singleton.mpr ⟨spells_letters hn, .nil, fun h => by cases h⟩
  apart := fun p hp => by cases hp

/-- What comes back of a long name is its length in 16 bits. -/
theorem nextTokenIn_letters {n : ℕ} (hn : 65536 ≤ n) :
    nextTokenIn (letters n) (letters n) = (.ok (.name (letters (n % 65536))), []) := by
  have hstop : Stops [] := fun c hc => by cases hc
  have hnext := @nextTokenIn_spells (letters n) [] _ [] _ (spells_letters hn) hstop (fun h => by cases h)
    (List.append_nil _).symm
  rw [List.append_nil] at hnext
  rw [hnext]
  unfold Tok.seen nameText letters
  simp only [List.length_replicate, List.length_nil]
  rw [Nat.zero_mod, List.drop_zero, List.take_replicate]
  rw [min_eq_left (Nat.mod_le n _)]
  rfl

/-- A name of 65536 letters comes back as the empty name. -/
theorem long_name_lost :
    nextTokenIn (letters 65536) (letters 65536) = (.ok (.name []), []) ∧
    ¬ GivesBack (longText 65536 le_rfl).bytes (longText 65536 le_rfl).bytes ((longText 65536 le_rfl).toks ++ [.eof]) := by
  constructor
  · exact nextTokenIn_letters le_rfl
  · have hpieces := @givesBack_pieces (longText 65536 le_rfl).bytes (longText 65536 le_rfl).pieces [] rfl
      (longText 65536 le_rfl).ok (longText 65536 le_rfl).apart
    refine mt hpieces.mp fun h => ?_
    have hlen := (h.1 (letters 65536) rfl).1
    rw [letters, List.length_replicate] at hlen
    omega

end Lua
end Rustrapper

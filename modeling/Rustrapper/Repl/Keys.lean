/-
# Keys out of bytes

`EscSeq::feed` puts the keys of the REPL together from the bytes of a terminal.
An abandoned sequence is given up at a byte that cannot go on with it, and an
`ESC` is such a byte like any other: the key it begins is lost, and what is
left of it is typed. So a key is decoded exactly behind the streams that leave
no sequence open (`key_decoded_iff`).
-/
import Mathlib.Data.FinEnum
import Mathlib.Tactic.Common

namespace Rustrapper.Repl

/-! ### The decoder -/

def ESC : UInt8 := 0x1b

def KEY_UP : UInt8 := 0x80
def KEY_DOWN : UInt8 := 0x81
def KEY_RIGHT : UInt8 := 0x82
def KEY_LEFT : UInt8 := 0x83
def KEY_HOME : UInt8 := 0x84
def KEY_END : UInt8 := 0x85
def KEY_DELETE : UInt8 := 0x86

/-- `map_escape` behind `ESC O`. -/
def mapLetter : UInt8 → Option UInt8
  | 65 => some KEY_UP
  | 66 => some KEY_DOWN
  | 67 => some KEY_RIGHT
  | 68 => some KEY_LEFT
  | _ => none

/-- `map_escape` behind `ESC [`, one byte. -/
def mapFinal : UInt8 → Option UInt8
  | 72 => some KEY_HOME
  | 70 => some KEY_END
  | b => mapLetter b

/-- `map_escape` behind `ESC [`, a digit and `~`. -/
def mapDigit : UInt8 → Option UInt8
  | 49 => some KEY_HOME
  | 55 => some KEY_HOME
  | 52 => some KEY_END
  | 56 => some KEY_END
  | 51 => some KEY_DELETE
  | _ => none

/-- `map_escape`. -/
def mapEscape : List UInt8 → Option UInt8
  | [e, c, d] =>
    if e ≠ ESC then none
    else if c = 79 then mapLetter d
    else if c = 91 then mapFinal d
    else none
  | [e, c, d, f] => if e = ESC ∧ c = 91 ∧ f = 126 then mapDigit d else none
  | _ => none

/-- A byte that ends a sequence: `~` or a letter. -/
def isFinal (b : UInt8) : Bool := b = 126 || (65 ≤ b && b ≤ 90) || (97 ≤ b && b ≤ 122)

/-- `[` or `O`. -/
def isIntroducer (b : UInt8) : Bool := b = 91 || b = 79

/-- `is_escape_prefix`. -/
def isEscapePrefix : List UInt8 → Bool
  | [] => false
  | [e] => e = ESC
  | [e, c] => e = ESC && isIntroducer c
  | e :: c :: p :: ps => e = ESC && isIntroducer c && !isFinal ((p :: ps).getLast (List.cons_ne_nil p ps))

/-- `EscSeq`: the bytes `buf[..n]` of the sequence being received. -/
structure EscSeq where
  seq : List UInt8
  len_le : seq.length ≤ 8

/-- `EscSeq::new`. -/
def EscSeq.new : EscSeq := ⟨[], Nat.zero_le 8⟩

@[simp] theorem EscSeq.seq_new : new.seq = [] := rfl

/-- `EscSeq::in_progress`. -/
def EscSeq.inProgress (e : EscSeq) : Bool := e.seq ≠ []

/-- `EscSeq::feed`: the key, if there is one, and the decoder behind the byte. -/
def EscSeq.feed (e : EscSeq) (b : UInt8) : Option UInt8 × EscSeq :=
  if e.seq = [] then
    if b = ESC then (none, ⟨[b], Nat.le_of_ble_eq_true rfl⟩) else (some b, e)
  else if h : e.seq.length < 8 then
    match mapEscape (e.seq ++ [b]) with
    | some k => (some k, .new)
    | none =>
      if isEscapePrefix (e.seq ++ [b]) then (none, ⟨e.seq ++ [b], by rw [List.length_append]; exact h⟩)
      else (none, .new)
  else (none, .new)

/-- What a stream of bytes is decoded to, byte by byte. -/
def EscSeq.feeds (e : EscSeq) : List UInt8 → List (Option UInt8)
  | [] => []
  | b :: bs => (e.feed b).1 :: (e.feed b).2.feeds bs

/-- The decoder behind a stream. -/
def EscSeq.after (e : EscSeq) (bs : List UInt8) : EscSeq := bs.foldl (fun e b => (e.feed b).2) e

@[simp] theorem EscSeq.after_nil (e : EscSeq) : e.after [] = e := rfl

@[simp] theorem EscSeq.after_cons (e : EscSeq) (b : UInt8) (bs : List UInt8) :
    e.after (b :: bs) = (e.feed b).2.after bs := rfl

/-! ### One byte -/

theorem EscSeq.eq_new {e : EscSeq} (h : e.seq = []) : e = new := by
  cases e
  cases h
  rfl

theorem feed_new {b : UInt8} (h : b ≠ ESC) : EscSeq.new.feed b = (some b, .new) := by
  simp [EscSeq.feed, h]

/-- Behind `ESC`. -/
theorem feed_esc {e : EscSeq} (he : e.seq = [ESC]) (b : UInt8) :
    (e.feed b).1 = none ∧ (e.feed b).2.seq = if isIntroducer b then [ESC, b] else [] := by
  have hmap : mapEscape [ESC, b] = none := rfl
  unfold EscSeq.feed
  simp only [he, List.cons_ne_nil, if_false, List.length_singleton, List.singleton_append, hmap]
  by_cases hb : isIntroducer b = true
  · simp [isEscapePrefix, hb]
  · simp [isEscapePrefix, hb]

/-- Only a final byte makes a key. -/
theorem mapEscape_open {c : UInt8} {qs : List UInt8} {b : UInt8} (hb : isFinal b = false) :
    mapEscape (ESC :: c :: (qs ++ [b])) = none := by
  have hkeys : ∀ b, isFinal b = false → mapLetter b = none ∧ mapFinal b = none ∧ b ≠ 126 := by decide +kernel
  obtain ⟨h1, h2, h3⟩ := hkeys b hb
  rcases qs with _ | ⟨p, _ | ⟨q, qs⟩⟩
  · simp [mapEscape, h1, h2]
  · simp [mapEscape, h3]
  · cases qs <;> rfl

theorem isEscapePrefix_open {c : UInt8} (hc : isIntroducer c = true) (qs : List UInt8) (b : UInt8) :
    isEscapePrefix (ESC :: c :: (qs ++ [b])) = !isFinal b := by
  cases qs with
  | nil => simp [isEscapePrefix, hc]
  | cons q qs => simp [isEscapePrefix, hc, List.getLast_cons]

/-- A sequence being received: `ESC`, `[` or `O`, and bytes none of which ends it. -/
structure IsOpen (seq : List UInt8) (c : UInt8) (qs : List UInt8) : Prop where
  eq : seq = ESC :: c :: qs
  introducer : isIntroducer c = true
  pending : ∀ q ∈ qs, isFinal q = false

/-- Behind an open sequence: a byte goes on with it, ends it, or finds the buffer full. -/
theorem feed_open {e : EscSeq} {c : UInt8} {qs : List UInt8} (h : IsOpen e.seq c qs) (b : UInt8) :
    (e.feed b).2.seq = (if e.seq.length < 8 ∧ isFinal b = false then e.seq ++ [b] else []) ∧
      (e.feed b).1 = if e.seq.length < 8 then mapEscape (e.seq ++ [b]) else none := by
  have hne : e.seq ≠ [] := by
    rw [h.eq]
    exact List.cons_ne_nil _ _
  have hseq : e.seq ++ [b] = ESC :: c :: (qs ++ [b]) := by rw [h.eq]; rfl
  have hprefix : isEscapePrefix (e.seq ++ [b]) = !isFinal b := hseq ▸ isEscapePrefix_open h.introducer qs b
  unfold EscSeq.feed
  rw [if_neg hne]
  by_cases hlen : e.seq.length < 8
  · rw [dif_pos hlen]
    cases hfin : isFinal b with
    | false =>
      have hmap : mapEscape (e.seq ++ [b]) = none := hseq ▸ mapEscape_open hfin
      simp [hlen, hmap, hprefix, hfin]
    | true =>
      cases hmap : mapEscape (e.seq ++ [b]) with
      | none => simp [hlen, hprefix, hfin]
      | some k => simp [hlen]
  · rw [dif_neg hlen]
    simp [hlen]

/-! ### Streams that leave no sequence open -/

/-- Streams of bytes and sequences, each of these ended: by a byte that cannot
go on with it, by a final byte, or by the byte that finds the buffer full. -/
inductive Settled : List UInt8 → Prop
  | nil : Settled []
  | byte {b : UInt8} {bs : List UInt8} (hb : b ≠ ESC) (h : Settled bs) : Settled (b :: bs)
  | alone {b : UInt8} {bs : List UInt8} (hb : isIntroducer b = false) (h : Settled bs) : Settled (ESC :: b :: bs)
  | sequence {c b : UInt8} {ps bs : List UInt8} (hc : isIntroducer c = true) (hps : ∀ p ∈ ps, isFinal p = false)
      (hb : ps.length < 6 ∧ isFinal b = true ∨ ps.length = 6) (h : Settled bs) :
      Settled (ESC :: c :: (ps ++ b :: bs))

theorem IsOpen.snoc {seq qs : List UInt8} {c b : UInt8} (h : IsOpen seq c qs) (hb : isFinal b = false) :
    IsOpen (seq ++ [b]) c (qs ++ [b]) := by
  refine ⟨by rw [h.eq]; rfl, h.introducer, fun q hq => ?_⟩
  rcases List.mem_append.mp hq with hq | hq
  · exact h.pending q hq
  · exact (List.mem_singleton.mp hq) ▸ hb

/-- An open sequence is closed by a final byte, or by the ninth. -/
theorem after_open (bs : List UInt8) {e : EscSeq} {c : UInt8} {qs : List UInt8} (h : IsOpen e.seq c qs) :
    (e.after bs).seq = [] ↔ ∃ ps b rest, bs = ps ++ b :: rest ∧ (∀ p ∈ ps, isFinal p = false) ∧
      (e.seq.length + ps.length < 8 ∧ isFinal b = true ∨ e.seq.length + ps.length = 8) ∧
      (EscSeq.new.after rest).seq = [] := by
  induction bs generalizing e qs with
  | nil =>
    rw [EscSeq.after_nil, h.eq]
    simp
  | cons b bs ih =>
    have hstep := (feed_open h b).1
    rw [EscSeq.after_cons]
    by_cases hgo : e.seq.length < 8 ∧ isFinal b = false
    · rw [if_pos hgo] at hstep
      have hopen : IsOpen (e.feed b).2.seq c (qs ++ [b]) := hstep ▸ h.snoc hgo.2
      have hlen : (e.feed b).2.seq.length = e.seq.length + 1 := by rw [hstep, List.length_append]; rfl
      rw [ih hopen, hlen]
      constructor
      · rintro ⟨ps, d, rest, rfl, hps, hd, hrest⟩
        refine ⟨b :: ps, d, rest, rfl, ?_, ?_, hrest⟩
        · simpa using ⟨hgo.2, hps⟩
        · rw [List.length_cons]
          exact hd.imp (fun hd => ⟨by omega, hd.2⟩) fun hd => by omega
      · rintro ⟨_ | ⟨p, ps⟩, d, rest, heq, hps, hd, hrest⟩
        · cases heq
          simp only [List.length_nil, Nat.add_zero, hgo.2, Bool.false_eq_true, and_false, false_or] at hd
          omega
        · cases heq
          refine ⟨ps, d, rest, rfl, fun q hq => hps q (List.mem_cons_of_mem _ hq), ?_, hrest⟩
          rw [List.length_cons] at hd
          exact hd.imp (fun hd => ⟨by omega, hd.2⟩) fun hd => by omega
    · rw [if_neg hgo] at hstep
      rw [EscSeq.eq_new hstep]
      have hle := e.len_le
      constructor
      · intro hrest
        refine ⟨[], b, bs, rfl, by simp, ?_, hrest⟩
        rcases Nat.lt_or_ge e.seq.length 8 with hlt | hge
        · exact .inl ⟨hlt, by simpa [hlt] using hgo⟩
        · exact .inr (Nat.le_antisymm hle hge)
      · rintro ⟨_ | ⟨p, ps⟩, d, rest, heq, hps, hd, hrest⟩
        · cases heq
          exact hrest
        · cases heq
          have hp := hps _ List.mem_cons_self
          rw [List.length_cons] at hd
          exact absurd ⟨by omega, hp⟩ hgo

/-- The state behind a stream: nothing pending, `ESC` alone, or an open sequence. -/
theorem after_shape (bs : List UInt8) {e : EscSeq} (h : e.seq = [] ∨ e.seq = [ESC] ∨ ∃ c qs, IsOpen e.seq c qs) :
    (e.after bs).seq = [] ∨ (e.after bs).seq = [ESC] ∨ ∃ c qs, IsOpen (e.after bs).seq c qs := by
  induction bs generalizing e with
  | nil => exact h
  | cons b bs ih =>
    rw [EscSeq.after_cons]
    apply ih
    rcases h with h | h | ⟨c, qs, h⟩
    · rw [EscSeq.eq_new h]
      by_cases hb : b = ESC
      · subst hb
        exact .inr (.inl rfl)
      · exact .inl (by rw [feed_new hb]; rfl)
    · rw [(feed_esc h b).2]
      by_cases hb : isIntroducer b = true
      · exact .inr (.inr ⟨b, [], by rw [if_pos hb], hb, by simp⟩)
      · exact .inl (if_neg hb)
    · rw [(feed_open h b).1]
      by_cases hgo : e.seq.length < 8 ∧ isFinal b = false
      · rw [if_pos hgo]
        exact .inr (.inr ⟨c, qs ++ [b], h.snoc hgo.2⟩)
      · exact .inl (if_neg hgo)

theorem after_esc (b : UInt8) (bs : List UInt8) :
    EscSeq.new.after (ESC :: b :: bs) = ((EscSeq.new.feed ESC).2.feed b).2.after bs := rfl

/-- Behind `ESC` and a byte that begins no sequence. -/
theorem after_alone {b : UInt8} (hb : isIntroducer b = false) (bs : List UInt8) :
    EscSeq.new.after (ESC :: b :: bs) = EscSeq.new.after bs := by
  have hnil : ((EscSeq.new.feed ESC).2.feed b).2.seq = [] := by
    rw [(feed_esc (e := (EscSeq.new.feed ESC).2) rfl b).2, hb]
    rfl
  rw [after_esc, EscSeq.eq_new hnil]

/-- Behind `ESC [` or `ESC O`. -/
theorem after_introducer {c : UInt8} (hc : isIntroducer c = true) (bs : List UInt8) :
    (EscSeq.new.after (ESC :: c :: bs)).seq = [] ↔ ∃ ps b rest, bs = ps ++ b :: rest ∧
      (∀ p ∈ ps, isFinal p = false) ∧ (ps.length < 6 ∧ isFinal b = true ∨ ps.length = 6) ∧
      (EscSeq.new.after rest).seq = [] := by
  have hseq : ((EscSeq.new.feed ESC).2.feed c).2.seq = [ESC, c] := by
    rw [(feed_esc (e := (EscSeq.new.feed ESC).2) rfl c).2, if_pos hc]
  have hopen : IsOpen ((EscSeq.new.feed ESC).2.feed c).2.seq c [] := ⟨hseq, hc, by simp⟩
  rw [after_esc, after_open bs hopen, hseq]
  simp only [List.length_cons, List.length_nil]
  constructor
  · rintro ⟨ps, b, rest, h1, h2, h3, h4⟩
    exact ⟨ps, b, rest, h1, h2, h3.imp (fun h => ⟨by omega, h.2⟩) fun h => by omega, h4⟩
  · rintro ⟨ps, b, rest, h1, h2, h3, h4⟩
    exact ⟨ps, b, rest, h1, h2, h3.imp (fun h => ⟨by omega, h.2⟩) fun h => by omega, h4⟩

/-- No sequence is open behind exactly the settled streams. -/
theorem after_eq_nil_iff (bs : List UInt8) : (EscSeq.new.after bs).seq = [] ↔ Settled bs := by
  constructor
  · induction hn : bs.length using Nat.strong_induction_on generalizing bs with
    | _ n ih =>
      intro h
      cases bs with
      | nil => exact .nil
      | cons b bs =>
        by_cases hb : b = ESC
        · subst hb
          cases bs with
          | nil => cases h
          | cons c bs =>
            cases hc : isIntroducer c with
            | false =>
              rw [after_alone hc] at h
              exact .alone hc (ih _ (by rw [← hn]; simp only [List.length_cons]; omega) bs rfl h)
            | true =>
              obtain ⟨ps, b, rest, rfl, hps, hb, hrest⟩ := (after_introducer hc bs).mp h
              refine .sequence hc hps hb (ih _ ?_ rest rfl hrest)
              rw [← hn]
              simp only [List.length_cons, List.length_append]
              omega
        · rw [EscSeq.after_cons, feed_new hb] at h
          exact .byte hb (ih _ (by rw [← hn]; exact Nat.lt_succ_self _) bs rfl h)
  · intro h
    induction h with
    | nil => rfl
    | byte hb _ ih =>
      rw [EscSeq.after_cons, feed_new hb]
      exact ih
    | alone hb _ ih =>
      rw [after_alone hb]
      exact ih
    | sequence hc hps hb _ ih => exact (after_introducer hc _).mpr ⟨_, _, _, rfl, hps, hb, ih⟩

/-! ### Keys -/

/-- Every key sequence behind the stream is decoded: to its key on the last byte
and to nothing on the others. -/
def Decoded (bs : List UInt8) : Prop :=
  ∀ seq key, seq.length ≤ 8 → mapEscape seq = some key →
    (EscSeq.new.after bs).feeds seq = List.replicate (seq.length - 1) none ++ [some key]

theorem mapEscape_long {seq : List UInt8} (h : 4 < seq.length) : mapEscape seq = none := by
  unfold mapEscape
  split
  · simp at h
  · simp at h
  · rfl

/-- A key sequence is `ESC`, `[` or `O`, no or one byte that does not end it, and a final byte. -/
theorem mapEscape_some {seq : List UInt8} {key : UInt8} (h : mapEscape seq = some key) :
    ∃ c ps b, seq = ESC :: c :: (ps ++ [b]) ∧ isIntroducer c = true ∧ (∀ p ∈ ps, isFinal p = false) ∧
      ps.length ≤ 1 ∧ isFinal b = true := by
  have hfinal : ∀ b, mapFinal b ≠ none → isFinal b = true := by decide +kernel
  have hletter : ∀ b, mapLetter b ≠ none → isFinal b = true := by decide +kernel
  have hdigit : ∀ b, mapDigit b ≠ none → isFinal b = false := by decide +kernel
  unfold mapEscape at h
  split at h
  · rename_i e c d
    split_ifs at h with he h79 h91
    · exact ⟨c, [], d, by rw [not_not.mp he]; rfl, by simp [isIntroducer, h79], by simp, by simp,
        hletter d (by simp [h])⟩
    · exact ⟨c, [], d, by rw [not_not.mp he]; rfl, by simp [isIntroducer, h91], by simp, by simp,
        hfinal d (by simp [h])⟩
  · rename_i e c d f
    split_ifs at h with hall
    obtain ⟨rfl, rfl, rfl⟩ := hall
    exact ⟨91, [d], 126, rfl, rfl, by simpa using hdigit d (by simp [h]), by simp, rfl⟩
  · cases h

/-- Behind an open sequence that has room, nothing is decoded before its end. -/
theorem feeds_open (ps : List UInt8) (b : UInt8) {e : EscSeq} {c : UInt8} {qs : List UInt8} (h : IsOpen e.seq c qs)
    (hps : ∀ p ∈ ps, isFinal p = false) (hlen : e.seq.length + ps.length < 8) :
    e.feeds (ps ++ [b]) = List.replicate ps.length none ++ [mapEscape (e.seq ++ (ps ++ [b]))] := by
  induction ps generalizing e qs with
  | nil =>
    have hout := (feed_open h b).2
    rw [if_pos (by simpa using hlen)] at hout
    simp [EscSeq.feeds, hout]
  | cons p ps ih =>
    have hp := hps p List.mem_cons_self
    have hroom : e.seq.length < 8 := by
      rw [List.length_cons] at hlen
      omega
    have hseq := (feed_open h p).1
    have hout := (feed_open h p).2
    have hmap : mapEscape (e.seq ++ [p]) = none := by
      rw [h.eq]
      exact mapEscape_open hp
    rw [if_pos ⟨hroom, hp⟩] at hseq
    rw [if_pos hroom, hmap] at hout
    have hnext := ih (hseq ▸ h.snoc hp) (fun q hq => hps q (List.mem_cons_of_mem _ hq)) (by
      rw [hseq, List.length_append, List.length_singleton]
      rw [List.length_cons] at hlen
      omega)
    rw [List.cons_append, EscSeq.feeds, hout, hnext, hseq]
    simp [List.replicate_succ]

/-- A decoder with nothing pending decodes every key. -/
theorem feeds_key {seq : List UInt8} {key : UInt8} (h : mapEscape seq = some key) :
    EscSeq.new.feeds seq = List.replicate (seq.length - 1) none ++ [some key] := by
  obtain ⟨c, ps, b, rfl, hc, hps, hlen, hb⟩ := mapEscape_some h
  have hout := (feed_esc (e := (EscSeq.new.feed ESC).2) rfl c).1
  have hseq := (feed_esc (e := (EscSeq.new.feed ESC).2) rfl c).2
  rw [if_pos hc] at hseq
  have hopen : IsOpen ((EscSeq.new.feed ESC).2.feed c).2.seq c [] := ⟨hseq, hc, by simp⟩
  have hrest := feeds_open ps b hopen hps (by
    rw [hseq]
    simp only [List.length_cons, List.length_nil]
    omega)
  rw [hseq] at hrest
  change none :: ((EscSeq.new.feed ESC).2.feed c).1 :: ((EscSeq.new.feed ESC).2.feed c).2.feeds (ps ++ [b]) = _
  rw [hout, hrest, show [ESC, c] ++ (ps ++ [b]) = ESC :: c :: (ps ++ [b]) from rfl, h]
  simp [List.replicate_succ]

/-- The `ESC` of a key goes into the sequence that is open, and the key is lost. -/
theorem feeds_lost {e : EscSeq} (h : e.seq = [ESC] ∨ ∃ c qs, IsOpen e.seq c qs) :
    e.feeds [ESC, 91, 65] ≠ [none, none, some KEY_UP] := by
  have hesc : isFinal ESC = false := by decide
  have hbracket : isFinal 91 = false := by decide
  intro hfeeds
  simp only [EscSeq.feeds, List.cons.injEq, and_true] at hfeeds
  obtain ⟨-, h2, h3⟩ := hfeeds
  rcases h with h | ⟨c, qs, h⟩
  · -- the decoder is reset, and `[` is typed
    have hseq := (feed_esc h ESC).2
    rw [if_neg (by decide)] at hseq
    rw [EscSeq.eq_new hseq] at h2
    cases h2
  · have hseq := (feed_open h ESC).1
    by_cases hlen : e.seq.length < 8
    · rw [if_pos ⟨hlen, hesc⟩] at hseq
      have hopen : IsOpen (e.feed ESC).2.seq c (qs ++ [ESC]) := hseq ▸ h.snoc hesc
      have hseq' := (feed_open hopen 91).1
      by_cases hlen' : (e.feed ESC).2.seq.length < 8
      · rw [if_pos ⟨hlen', hbracket⟩] at hseq'
        have hopen' : IsOpen ((e.feed ESC).2.feed 91).2.seq c (qs ++ [ESC] ++ [91]) := hseq' ▸ hopen.snoc hbracket
        -- five bytes or more are no key
        have hnone : mapEscape (((e.feed ESC).2.feed 91).2.seq ++ [65]) = none := by
          refine mapEscape_long ?_
          rw [hopen'.eq]
          simp only [List.length_cons, List.length_append, List.length_nil]
          omega
        rw [(feed_open hopen' 65).2, hnone] at h3
        simp at h3
      · rw [if_neg (fun hc => hlen' hc.1)] at hseq'
        rw [EscSeq.eq_new hseq'] at h3
        cases h3
    · rw [if_neg (fun hc => hlen hc.1)] at hseq
      rw [EscSeq.eq_new hseq] at h2
      cases h2

/-- Bytes without `ESC` are returned as they are. -/
theorem feeds_plain (bs : List UInt8) (h : ESC ∉ bs) : EscSeq.new.feeds bs = bs.map some := by
  induction bs with
  | nil => rfl
  | cons b bs ih =>
    have hb : b ≠ ESC := fun hb => h (hb ▸ List.mem_cons_self)
    rw [EscSeq.feeds, feed_new hb, List.map_cons, ih fun hmem => h (List.mem_cons_of_mem _ hmem)]

/-- **Keys are decoded behind the streams that leave no sequence open**, and
behind no others. Streams without `ESC` are returned unchanged. -/
theorem key_decoded_iff (bs : List UInt8) :
    (Decoded bs ↔ Settled bs) ∧ (ESC ∉ bs → EscSeq.new.feeds bs = bs.map some) := by
  refine ⟨⟨fun h => ?_, fun h seq key _ hmap => ?_⟩, feeds_plain bs⟩
  · rw [← after_eq_nil_iff]
    by_contra hopen
    have hshape := (after_shape bs (e := EscSeq.new) (.inl rfl)).resolve_left hopen
    exact feeds_lost hshape (h [ESC, 91, 65] KEY_UP (by decide) (by decide))
  · rw [EscSeq.eq_new ((after_eq_nil_iff bs).mpr h)]
    exact feeds_key hmap

/-- `ESC` and the up key: `[` and `A` are typed. -/
theorem up_key_lost : ¬ Decoded [ESC] ∧ EscSeq.new.feeds [ESC, ESC, 91, 65] = [none, none, some 91, some 65] :=
  ⟨fun h => feeds_lost (.inl rfl) (h [ESC, 91, 65] KEY_UP (by decide) (by decide)), by decide⟩

end Rustrapper.Repl

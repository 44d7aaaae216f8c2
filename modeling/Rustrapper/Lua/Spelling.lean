/-
# Tokens, written

A text for every token, and the lexer's inverse on it: `nextToken` reads a
token back from its text when a blank follows (`nextToken_text`). A token has a
text when it is `Spelled`: an integer literal is not negative, a
floating-point number is the value of the digits `spell` gives for it, a string
has at most the 256 bytes the lexer's buffer holds, and a name is no reserved
word.
-/
import Rustrapper.Lua.Lex

namespace Rustrapper
namespace Lua

/-! ### Runs of bytes -/

theorem takeWhile_append_stop {p : UInt8 → Bool} {w rest : List UInt8} (hw : w.all p = true)
    (hrest : ∀ c ∈ rest.head?, p c = false) : (w ++ rest).takeWhile p = w := by
  rw [List.takeWhile_append_of_pos (by simpa using hw)]
  cases rest with
  | nil => simp
  | cons c cs => simp [hrest c rfl]

theorem dropWhile_append_stop {p : UInt8 → Bool} {w rest : List UInt8} (hw : w.all p = true)
    (hrest : ∀ c ∈ rest.head?, p c = false) : (w ++ rest).dropWhile p = rest := by
  rw [List.dropWhile_append_of_pos (by simpa using hw)]
  cases rest with
  | nil => rfl
  | cons c cs => simp [hrest c rfl]

/-- What a token's text is read back in front of: nothing, a blank or a dash. -/
def Stops (rest : List UInt8) : Prop := ∀ c ∈ rest.head?, isBlank c = true ∨ c = 45

theorem stops_blank (more : List UInt8) : Stops (32 :: more) := fun _ hc => .inl (Option.some.inj hc ▸ rfl)

/-- A blank or a dash is no part of a number or a name. -/
theorem not_of_stop {c : UInt8} (h : isBlank c = true ∨ c = 45) :
    isDigit c = false ∧ isNameByte c = false ∧ c ≠ 46 ∧ c ≠ 101 ∧ c ≠ 69 := by
  revert c
  decide +kernel

theorem Stops.not_digit {rest : List UInt8} (h : Stops rest) : ∀ c ∈ rest.head?, isDigit c = false :=
  fun c hc => (not_of_stop (h c hc)).1

theorem Stops.not_nameByte {rest : List UInt8} (h : Stops rest) : ∀ c ∈ rest.head?, isNameByte c = false :=
  fun c hc => (not_of_stop (h c hc)).2.1

/-! ### Numbers -/

/-- The decimal digits of a number. -/
def decimal (n : ℕ) : List UInt8 :=
  if n < 10 then [.ofNat (48 + n)] else decimal (n / 10) ++ [.ofNat (48 + n % 10)]
termination_by n
decreasing_by omega

theorem isDigit_ofNat {d : ℕ} (hd : d < 10) : isDigit (.ofNat (48 + d)) = true := by
  interval_cases d <;> rfl

theorem digit_toNat {d : ℕ} (hd : d < 10) : (UInt8.ofNat (48 + d)).toNat - 48 = d := by
  interval_cases d <;> rfl

theorem decimal_digits (n : ℕ) : (decimal n).all isDigit = true := by
  induction n using decimal.induct with
  | case1 n h =>
    rw [decimal, if_pos h]
    rw [List.all_cons, isDigit_ofNat h]
    rfl
  | case2 n h ih =>
    rw [decimal, if_neg h, List.all_append, ih]
    rw [List.all_cons, isDigit_ofNat (Nat.mod_lt n (by omega : 0 < 10))]
    rfl

theorem decimal_ne_nil (n : ℕ) : decimal n ≠ [] := by
  rw [decimal]
  split_ifs <;> simp

/-- The digits of a number have its value. -/
theorem decValue_decimal (n : ℕ) : decValue (decimal n) = n := by
  induction n using decimal.induct with
  | case1 n h =>
    rw [decimal, if_pos h]
    simp only [decValue, List.foldl_cons, List.foldl_nil, digit_toNat h]
    omega
  | case2 n h ih =>
    have hd := digit_toNat (Nat.mod_lt n (by omega : 0 < 10))
    rw [decimal, if_neg h, decValue, List.foldl_append]
    change decValue (decimal (n / 10)) * 10 + ((UInt8.ofNat (48 + n % 10)).toNat - 48) = n
    rw [ih, hd]
    omega

/-- The digits of a floating-point literal: before and behind the point, and
the exponent with its sign. -/
structure FloatLit where
  ip : List UInt8
  fp : List UInt8
  ep : Option (Bool × List UInt8)
deriving DecidableEq, Inhabited

/-- The number a literal stands for. -/
def FloatLit.value (l : FloatLit) : Float := parseF64 l.ip l.fp l.ep

/-- A literal has digits before its point, and in its exponent if it has one. -/
structure FloatLit.Ok (l : FloatLit) : Prop where
  ip : l.ip.all isDigit = true
  ipNe : l.ip ≠ []
  fp : l.fp.all isDigit = true
  ep : ∀ neg ds, l.ep = some (neg, ds) → ds.all isDigit = true ∧ ds ≠ []

/-- The exponent of a literal. -/
def FloatLit.expText : Option (Bool × List UInt8) → List UInt8
  | none => []
  | some (neg, ds) => 101 :: (if neg then 45 else 43) :: ds

def FloatLit.text (l : FloatLit) : List UInt8 := l.ip ++ 46 :: (l.fp ++ FloatLit.expText l.ep)

/-! ### Strings -/

/-- A byte between double quotes. -/
def escape (c : UInt8) : List UInt8 :=
  if c = 0 then [92, 48]
  else if c = 10 then [92, 110]
  else if c = 34 then [92, 34]
  else if c = 92 then [92, 92]
  else [c]

/-! ### Texts -/

/-- The tokens that are symbols. -/
def symbols : List (List UInt8 × Tok) :=
  [([43], .plus), ([45], .minus), ([42], .star), ([47], .slash), ([37], .percent), ([40], .lParen),
   ([41], .rParen), ([91], .lBracket), ([93], .rBracket), ([123], .lBrace), ([125], .rBrace),
   ([44], .comma), ([59], .semi), ([46], .dot), ([46, 46], .dotDot), ([58], .colon),
   ([58, 58], .colonColon), ([61], .equals), ([61, 61], .eqEq), ([126, 61], .neq), ([60], .lt),
   ([60, 61], .le), ([62], .gt), ([62, 61], .ge)]

/-- The bytes of a reserved word or a symbol. -/
def Tok.word (t : Tok) : List UInt8 :=
  (((keywords ++ symbols).find? fun kw => kw.2 = t).map (·.1)).getD []

/-- The bytes of a token, with `spell` for the floating-point numbers. -/
def Tok.text (spell : Float → FloatLit) : Tok → List UInt8
  | .num n => decimal n.toInt.toNat
  | .float f => (spell f).text
  | .str b => 34 :: (b.flatMap escape ++ [34])
  | .name b => b
  | t => t.word

/-- The bytes are a name, and not a reserved word. -/
structure IsName (b : List UInt8) : Prop where
  first : (b.head?.map isAlpha) = some true
  bytes : b.all isNameByte = true
  free : keywords.lookup b = none
  short : b.length < 65536

instance (b : List UInt8) : Decidable (IsName b) :=
  decidable_of_iff ((b.head?.map isAlpha) = some true ∧ b.all isNameByte = true ∧
      keywords.lookup b = none ∧ b.length < 65536)
    ⟨fun h => ⟨h.1, h.2.1, h.2.2.1, h.2.2.2⟩, fun h => ⟨h.first, h.bytes, h.free, h.short⟩⟩

/-- The token has a text. -/
def Tok.Spelled (spell : Float → FloatLit) : Tok → Prop
  | .eof => False
  | .num n => 0 ≤ n.toInt
  | .float f => (spell f).Ok ∧ (spell f).value = f
  | .str b => b.length ≤ 256
  | .name b => IsName b
  | _ => True

/-! ### Reading a token back -/

/-- A blank in front of a token is skipped. -/
theorem nextToken_blank (cs : List UInt8) : nextToken (32 :: cs) = nextToken cs := by
  have h : skipBlank false (32 :: cs) = skipBlank false cs := rfl
  rw [nextToken, h, ← nextToken]

/-- A byte that is neither blank nor a minus sign starts a token. -/
theorem skipBlank_self {c : UInt8} {cs : List UInt8} (hb : isBlank c = false) (hm : c ≠ 45) :
    skipBlank false (c :: cs) = c :: cs := by
  rw [skipBlank, hb]
  simp only [Bool.false_eq_true, if_false]
  intro cs' hc
  exact absurd hc hm

section Numbers

theorem isDigit_blank {c : UInt8} (h : isDigit c = true) : isBlank c = false ∧ c ≠ 45 := by
  revert c
  decide +kernel

theorem nextToken_digit {c : UInt8} {cs : List UInt8} (h : isDigit c = true) :
    nextToken (c :: cs) = lexNumber (c :: cs) := by
  obtain ⟨hb, hm⟩ := isDigit_blank h
  rw [nextToken, skipBlank_self hb hm]
  simp only [h, if_true]

theorem ne_dot_of_digit {c : UInt8} (h : isDigit c = true) : c ≠ 46 := by
  rintro rfl
  cases h

/-- `lex_number` first takes the digits. -/
theorem lexNumber_start {ds rest : List UInt8} (hd : ds.all isDigit = true) (hne : ds ≠ [])
    (hrest : ∀ c ∈ rest.head?, isDigit c = false) :
    (ds ++ rest).takeWhile isDigit = ds ∧ (ds ++ rest).dropWhile isDigit = rest ∧
      ∀ cs, ds ++ rest ≠ 46 :: cs := by
  refine ⟨takeWhile_append_stop hd hrest, dropWhile_append_stop hd hrest, fun cs h => ?_⟩
  obtain ⟨d, ds', rfl⟩ := List.exists_cons_of_ne_nil hne
  exact ne_dot_of_digit (List.all_eq_true.mp hd d (by simp)) (List.cons.inj h).1

/-- Digits with no point behind them. -/
theorem lexNumber_digits {ds rest : List UInt8} (hd : ds.all isDigit = true) (hne : ds ≠ [])
    (hrest : ∀ c ∈ rest.head?, isDigit c = false ∧ c ≠ 46) :
    lexNumber (ds ++ rest) = lexNumberTail false ds [] rest := by
  obtain ⟨htake, hdrop, hdot⟩ := lexNumber_start hd hne fun c hc => (hrest c hc).1
  unfold lexNumber
  split
  · rename_i h
    exact absurd h (hdot _)
  · dsimp only
    rw [htake, hdrop]
    split
    · exact absurd rfl (hrest 46 rfl).2
    · exact absurd rfl (hrest 46 rfl).2
    · rfl

/-- Digits and a point, with no second point behind it. -/
theorem lexNumber_point {ds rest : List UInt8} (hd : ds.all isDigit = true) (hne : ds ≠ [])
    (hrest : ∀ cs, rest ≠ 46 :: cs) :
    lexNumber (ds ++ 46 :: rest) = lexNumberTail true ds (rest.takeWhile isDigit) (rest.dropWhile isDigit) := by
  obtain ⟨htake, hdrop, hdot⟩ := @lexNumber_start ds (46 :: rest) hd hne fun c hc => Option.some.inj hc ▸ rfl
  unfold lexNumber
  split
  · rename_i h
    exact absurd h (hdot _)
  · dsimp only
    rw [htake, hdrop]
    split
    · rename_i h
      exact absurd (List.cons.inj h).2 (hrest _)
    · rename_i h
      rw [(List.cons.inj h).2]
    · rename_i h
      exact absurd rfl (h rest)

theorem lexExponent_stop {rest : List UInt8} (h : Stops rest) : lexExponent rest = none := by
  cases rest with
  | nil => rfl
  | cons c cs =>
    obtain ⟨-, -, -, h101, h69⟩ := not_of_stop (h c rfl)
    rw [lexExponent.eq_def]
    simp [h101, h69]

/-- The exponent of a literal. -/
theorem lexExponent_text {neg : Bool} {ds rest : List UInt8} (hd : ds.all isDigit = true) (hne : ds ≠ [])
    (hrest : Stops rest) :
    lexExponent (FloatLit.expText (some (neg, ds)) ++ rest) = some ((neg, ds), rest) := by
  have htake := takeWhile_append_stop hd hrest.not_digit
  have hdrop := dropWhile_append_stop hd hrest.not_digit
  obtain ⟨d, ds', rfl⟩ := List.exists_cons_of_ne_nil hne
  have hdig : isDigit d = true := List.all_eq_true.mp hd d (by simp)
  cases neg
  · change (if isDigit d then some ((false, (d :: ds' ++ rest).takeWhile isDigit),
      (d :: ds' ++ rest).dropWhile isDigit) else none) = _
    rw [if_pos hdig, htake, hdrop]
  · change (if isDigit d then some ((true, (d :: ds' ++ rest).takeWhile isDigit),
      (d :: ds' ++ rest).dropWhile isDigit) else none) = _
    rw [if_pos hdig, htake, hdrop]

/-- The end of a floating-point literal. -/
theorem lexNumberTail_text {l : FloatLit} (hl : l.Ok) {rest : List UInt8} (hrest : Stops rest) :
    lexNumberTail true l.ip l.fp (FloatLit.expText l.ep ++ rest) = (.ok (.float l.value), rest) := by
  unfold lexNumberTail FloatLit.value
  cases hep : l.ep with
  | none =>
    rw [show FloatLit.expText none ++ rest = rest from rfl, lexExponent_stop hrest]
    rfl
  | some e =>
    obtain ⟨neg, ds⟩ := e
    obtain ⟨hd, hne⟩ := hl.ep neg ds hep
    rw [lexExponent_text hd hne hrest]

/-- An integer literal. -/
theorem nextToken_num {ds rest : List UInt8} (hd : ds.all isDigit = true) (hne : ds ≠ [])
    (hlt : decValue ds < 2 ^ 63) (hrest : Stops rest) :
    nextToken (ds ++ rest) = (.ok (.num (.ofNat (decValue ds))), rest) := by
  have hlex : lexNumber (ds ++ rest) = lexNumberTail false ds [] rest := by
    refine lexNumber_digits hd hne fun c hc => ?_
    obtain ⟨hdigit, -, hdot, -⟩ := not_of_stop (hrest c hc)
    exact ⟨hdigit, hdot⟩
  obtain ⟨d, ds', rfl⟩ := List.exists_cons_of_ne_nil hne
  have hdig : isDigit d = true := List.all_eq_true.mp hd d (by simp)
  calc nextToken (d :: ds' ++ rest) = lexNumber (d :: ds' ++ rest) := nextToken_digit hdig
    _ = lexNumberTail false (d :: ds') [] rest := hlex
    _ = (.ok (.num (.ofNat (decValue (d :: ds')))), rest) := by
        unfold lexNumberTail
        rw [lexExponent_stop hrest]
        simp only [Bool.false_eq_true, if_false, if_pos hlt]

/-- What stands behind the point of a literal and its digits is no digit and no
second point. -/
theorem expText_stop {l : FloatLit} {rest : List UInt8} (hrest : Stops rest) :
    ∀ c ∈ (FloatLit.expText l.ep ++ rest).head?, isDigit c = false ∧ c ≠ 46 := by
  intro c hc
  cases hep : l.ep with
  | none =>
    rw [hep] at hc
    obtain ⟨hdigit, -, hdot, -⟩ := not_of_stop (hrest c hc)
    exact ⟨hdigit, hdot⟩
  | some e =>
    rw [hep] at hc
    obtain rfl : 101 = c := Option.some.inj hc
    exact ⟨rfl, by decide⟩

/-- A floating-point literal. -/
theorem nextToken_float {l : FloatLit} (hl : l.Ok) {rest : List UInt8} (hrest : Stops rest) :
    nextToken (l.text ++ rest) = (.ok (.float l.value), rest) := by
  obtain ⟨more, hmore⟩ : ∃ more, FloatLit.expText l.ep ++ rest = more := ⟨_, rfl⟩
  have hstop := @expText_stop l rest hrest
  rw [hmore] at hstop
  -- no second point follows the first one
  have hpoint : ∀ t, l.fp ++ more ≠ 46 :: t := by
    intro t ht
    cases hfp : l.fp with
    | nil =>
      rw [hfp, List.nil_append] at ht
      exact (hstop 46 (by rw [ht]; rfl)).2 rfl
    | cons d fp =>
      rw [hfp] at ht
      have hdig : isDigit d = true := List.all_eq_true.mp hl.fp d (by simp [hfp])
      exact ne_dot_of_digit hdig (List.cons.inj ht).1
  have hlex : lexNumber (l.ip ++ 46 :: (l.fp ++ more)) = lexNumberTail true l.ip l.fp more := by
    have htake := takeWhile_append_stop hl.fp fun c hc => (hstop c hc).1
    have hdrop := dropWhile_append_stop hl.fp fun c hc => (hstop c hc).1
    rw [lexNumber_point hl.ip hl.ipNe hpoint, htake, hdrop]
  obtain ⟨d, ip, hip⟩ := List.exists_cons_of_ne_nil hl.ipNe
  have hdig : isDigit d = true := List.all_eq_true.mp hl.ip d (by simp [hip])
  calc nextToken (l.text ++ rest)
      = nextToken (l.ip ++ 46 :: (l.fp ++ more)) := by
        rw [← hmore, FloatLit.text]
        simp only [List.append_assoc, List.cons_append]
    _ = lexNumber (l.ip ++ 46 :: (l.fp ++ more)) := by
        rw [hip]
        exact nextToken_digit hdig
    _ = lexNumberTail true l.ip l.fp (FloatLit.expText l.ep ++ rest) := by rw [hlex, hmore]
    _ = (.ok (.float l.value), rest) := lexNumberTail_text hl hrest

end Numbers

/-! ### Quoted strings -/

/-- A string between quotes `q`: a byte stands for itself, unless the lexer ends
the string there, or it is escaped. -/
inductive Escaped (q : UInt8) : List UInt8 → List UInt8 → Prop where
  | nil : Escaped q [] []
  | plain {c : UInt8} {b w : List UInt8} (hend : c ≠ 0 ∧ c ≠ 10) (hquote : c ≠ q) (hslash : c ≠ 92)
    (h : Escaped q b w) : Escaped q (c :: b) (c :: w)
  | escape {c e : UInt8} {b w : List UInt8} (he : unescape e = some c) (h : Escaped q b w) :
    Escaped q (c :: b) (92 :: e :: w)

/-- Every string can be written between double quotes. -/
theorem escaped_escape : ∀ b : List UInt8, Escaped 34 b (b.flatMap escape)
  | [] => .nil
  | c :: b => by
    rw [List.flatMap_cons]
    unfold escape
    split_ifs with h0 h10 h34 h92
    · exact .escape (by rw [h0]; rfl) (escaped_escape b)
    · exact .escape (by rw [h10]; rfl) (escaped_escape b)
    · exact .escape (by rw [h34]; rfl) (escaped_escape b)
    · exact .escape (by rw [h92]; rfl) (escaped_escape b)
    · exact .plain ⟨h0, h10⟩ h34 h92 (escaped_escape b)

section Strings
variable {q : UInt8} {b w acc rest : List UInt8}

/-- The body of a string goes into the buffer. -/
theorem lexStringBody_escaped (hq : q = 34 ∨ q = 39) (h : Escaped q b w) (hlen : acc.length + b.length ≤ 256) :
    lexStringBody q (w ++ q :: rest) acc = (.ok (.str (acc.reverse ++ b)), rest) := by
  induction h generalizing acc with
  | nil =>
    have hend : ¬ (q = 0 ∨ q = 10) := by rcases hq with rfl | rfl <;> decide
    rw [List.nil_append, lexStringBody.eq_def, List.append_nil]
    simp only [if_neg hend, if_true]
  | @plain c b w hend hquote hslash h ih =>
    rw [List.length_cons] at hlen
    have hnot : ¬ (c = 0 ∨ c = 10) := not_or.mpr hend
    have hroom : ¬ acc.length ≥ 256 := by omega
    rw [List.cons_append, lexStringBody.eq_def]
    simp only [if_neg hnot, if_neg hquote, if_neg hslash, if_neg hroom]
    rw [ih (by rw [List.length_cons]; omega)]
    simp
  | @escape c e b w he h ih =>
    rw [List.length_cons] at hlen
    have hslash : (92 : UInt8) ≠ q := by rcases hq with rfl | rfl <;> decide
    have hnot : ¬ ((92 : UInt8) = 0 ∨ (92 : UInt8) = 10) := by decide
    have hroom : ¬ acc.length ≥ 256 := by omega
    rw [List.cons_append, List.cons_append, lexStringBody.eq_def]
    simp only [if_neg hnot, if_neg hslash, if_true, he, if_neg hroom]
    rw [ih (by rw [List.length_cons]; omega)]
    simp

/-- A quoted string. -/
theorem nextToken_quoted (hq : q = 34 ∨ q = 39) (h : Escaped q b w) (hlen : b.length ≤ 256) :
    nextToken (q :: (w ++ [q]) ++ rest) = (.ok (.str b), rest) := by
  have hquote : ∀ cs, nextToken (q :: cs) = lexStringBody q cs [] := by
    rcases hq with rfl | rfl <;> exact fun _ => rfl
  rw [List.cons_append, hquote, List.append_assoc]
  exact lexStringBody_escaped hq h (by rw [List.length_nil]; omega)

end Strings

/-! ### Names and symbols -/

theorem isAlpha_plain {c : UInt8} (h : isAlpha c = true) :
    isBlank c = false ∧ c ≠ 45 ∧ isDigit c = false ∧ c ≠ 34 ∧ c ≠ 39 := by
  revert c
  decide +kernel

section Words
variable {w rest : List UInt8} {t : Tok}

/-- A word is a reserved word or a name. -/
theorem nextToken_word (hfirst : (w.head?.map isAlpha) = some true) (hw : w.all isNameByte = true)
    (hrest : Stops rest) :
    nextToken (w ++ rest) = (.ok ((keywords.lookup w).getD (.name (w.take (w.length % 65536)))), rest) := by
  have htake := takeWhile_append_stop hw hrest.not_nameByte
  have hdrop := dropWhile_append_stop hw hrest.not_nameByte
  cases w with
  | nil => cases hfirst
  | cons c w =>
    have halpha : isAlpha c = true := Option.some.inj hfirst
    obtain ⟨hb, hm, hd, hq, hq'⟩ := isAlpha_plain halpha
    have hlex : nextToken (c :: w ++ rest) = lexName (c :: w ++ rest) := by
      rw [List.cons_append, nextToken, skipBlank_self hb hm]
      simp only [hd, hq, hq', halpha, or_self, Bool.false_eq_true, if_false, if_true]
    rw [hlex, lexName, htake, hdrop]

theorem nextToken_name (hw : IsName w) (hrest : Stops rest) : nextToken (w ++ rest) = (.ok (.name w), rest) := by
  rw [nextToken_word hw.first hw.bytes hrest, hw.free, Nat.mod_eq_of_lt hw.short, List.take_length]
  rfl

theorem nextToken_keyword (h : (w, t) ∈ keywords) (hrest : Stops rest) :
    nextToken (w ++ rest) = (.ok t, rest) := by
  have hall : ∀ kw ∈ keywords, (kw.1.head?.map isAlpha) = some true ∧ kw.1.all isNameByte = true ∧
      keywords.lookup kw.1 = some kw.2 := by decide +kernel
  obtain ⟨hfirst, hbytes, hlook⟩ := hall (w, t) h
  rw [nextToken_word hfirst hbytes hrest, hlook]
  rfl

/-- A symbol depends on one byte behind it. Behind a minus sign a dash would
start a comment. -/
theorem nextToken_symbol (h : (w, t) ∈ symbols) (hrest : Stops rest) (hdash : t = .minus → rest.head? ≠ some 45) :
    nextToken (w ++ rest) = (.ok t, rest) := by
  have hhead : rest = [] ∨ (∃ c cs, rest = c :: cs ∧ c ∈ [32, 9, 13, 10]) ∨ ∃ cs, rest = 45 :: cs := by
    cases rest with
    | nil => exact .inl rfl
    | cons c cs =>
      rcases hrest c rfl with hc | rfl
      · refine .inr (.inl ⟨c, cs, rfl, ?_⟩)
        simpa [isBlank, or_assoc] using hc
      · exact .inr (.inr ⟨cs, rfl⟩)
  simp only [symbols, List.mem_cons, List.not_mem_nil, or_false, Prod.mk.injEq] at h
  rcases hhead with rfl | ⟨c, cs, rfl, hc⟩ | ⟨cs, rfl⟩
  · rcases h with ⟨rfl, rfl⟩ | ⟨rfl, rfl⟩ | ⟨rfl, rfl⟩ | ⟨rfl, rfl⟩ | ⟨rfl, rfl⟩ | ⟨rfl, rfl⟩ |
      ⟨rfl, rfl⟩ | ⟨rfl, rfl⟩ | ⟨rfl, rfl⟩ | ⟨rfl, rfl⟩ | ⟨rfl, rfl⟩ | ⟨rfl, rfl⟩ | ⟨rfl, rfl⟩ |
      ⟨rfl, rfl⟩ | ⟨rfl, rfl⟩ | ⟨rfl, rfl⟩ | ⟨rfl, rfl⟩ | ⟨rfl, rfl⟩ | ⟨rfl, rfl⟩ | ⟨rfl, rfl⟩ |
      ⟨rfl, rfl⟩ | ⟨rfl, rfl⟩ | ⟨rfl, rfl⟩ | ⟨rfl, rfl⟩ <;> rfl
  · simp only [List.mem_cons, List.not_mem_nil, or_false] at hc
    rcases h with ⟨rfl, rfl⟩ | ⟨rfl, rfl⟩ | ⟨rfl, rfl⟩ | ⟨rfl, rfl⟩ | ⟨rfl, rfl⟩ | ⟨rfl, rfl⟩ |
      ⟨rfl, rfl⟩ | ⟨rfl, rfl⟩ | ⟨rfl, rfl⟩ | ⟨rfl, rfl⟩ | ⟨rfl, rfl⟩ | ⟨rfl, rfl⟩ | ⟨rfl, rfl⟩ |
      ⟨rfl, rfl⟩ | ⟨rfl, rfl⟩ | ⟨rfl, rfl⟩ | ⟨rfl, rfl⟩ | ⟨rfl, rfl⟩ | ⟨rfl, rfl⟩ | ⟨rfl, rfl⟩ |
      ⟨rfl, rfl⟩ | ⟨rfl, rfl⟩ | ⟨rfl, rfl⟩ | ⟨rfl, rfl⟩ <;> rcases hc with rfl | rfl | rfl | rfl <;> rfl
  · rcases h with ⟨rfl, rfl⟩ | ⟨rfl, rfl⟩ | ⟨rfl, rfl⟩ | ⟨rfl, rfl⟩ | ⟨rfl, rfl⟩ | ⟨rfl, rfl⟩ |
      ⟨rfl, rfl⟩ | ⟨rfl, rfl⟩ | ⟨rfl, rfl⟩ | ⟨rfl, rfl⟩ | ⟨rfl, rfl⟩ | ⟨rfl, rfl⟩ | ⟨rfl, rfl⟩ |
      ⟨rfl, rfl⟩ | ⟨rfl, rfl⟩ | ⟨rfl, rfl⟩ | ⟨rfl, rfl⟩ | ⟨rfl, rfl⟩ | ⟨rfl, rfl⟩ | ⟨rfl, rfl⟩ |
      ⟨rfl, rfl⟩ | ⟨rfl, rfl⟩ | ⟨rfl, rfl⟩ | ⟨rfl, rfl⟩ <;> first | rfl | exact absurd rfl (hdash rfl)

/-- A word of one of the two tables. -/
theorem nextToken_listed (h : (w, t) ∈ keywords ++ symbols) (hrest : Stops rest)
    (hdash : t = .minus → rest.head? ≠ some 45) : nextToken (w ++ rest) = (.ok t, rest) := by
  rcases List.mem_append.mp h with hmem | hmem
  · exact nextToken_keyword hmem hrest
  · exact nextToken_symbol hmem hrest hdash

theorem word_mem (h : ((keywords ++ symbols).find? fun kw => kw.2 = t).isSome) :
    (t.word, t) ∈ keywords ++ symbols := by
  obtain ⟨⟨w, t'⟩, hkw⟩ := Option.isSome_iff_exists.mp h
  have ht : t' = t := by simpa using List.find?_some hkw
  subst ht
  rw [Tok.word, hkw]
  exact List.mem_of_find?_eq_some hkw

end Words

variable {spell : Float → FloatLit}

/-- **The lexer reads a token back from its text.** -/
theorem nextToken_text {t : Tok} (ht : t.Spelled spell) (more : List UInt8) :
    nextToken (t.text spell ++ 32 :: more) = (.ok t, 32 :: more) := by
  have hstop := stops_blank more
  cases t with
  | eof => exact ht.elim
  | num n =>
    have hlt : decValue (decimal n.toInt.toNat) < 2 ^ 63 := by
      have hmax := n.toInt_lt
      rw [decValue_decimal]
      omega
    have hn : Int64.ofNat (decValue (decimal n.toInt.toNat)) = n := by
      rw [decValue_decimal, ← Int64.ofInt_eq_ofNat, Int.toNat_of_nonneg ht, Int64.ofInt_toInt]
    have h := nextToken_num (decimal_digits _) (decimal_ne_nil _) hlt hstop
    rwa [hn] at h
  | float f =>
    have h := nextToken_float ht.1 hstop
    rwa [ht.2] at h
  | str b => exact nextToken_quoted (.inl rfl) (escaped_escape b) ht
  | name b => exact nextToken_name ht hstop
  | _ =>
    refine nextToken_listed (word_mem ?_) hstop fun _ => by simp
    decide +kernel

/-! ### Token lists -/

/-- The lexer finds the tokens `ts` in the text, one after the other. -/
def Upcoming : List UInt8 → List Tok → Prop
  | _, [] => True
  | src, t :: ts => ∃ rest, nextToken src = (.ok t, rest) ∧ Upcoming rest ts

/-- The tokens' texts, each with a blank behind it. -/
def textOf (spell : Float → FloatLit) (ts : List Tok) : List UInt8 :=
  ts.flatMap fun t => t.text spell ++ [32]

theorem upcoming_blank {src : List UInt8} : ∀ {ts : List Tok}, Upcoming src ts → Upcoming (32 :: src) ts
  | [], _ => trivial
  | _ :: _, ⟨rest, h, hrest⟩ => ⟨rest, (nextToken_blank src).trans h, hrest⟩

/-- **The lexer reads the tokens back from their text.** -/
theorem upcoming_textOf : ∀ {ts : List Tok}, (∀ t ∈ ts, t.Spelled spell) →
    Upcoming (textOf spell ts) (ts ++ [.eof])
  | [], _ => ⟨[], rfl, trivial⟩
  | t :: ts, h => by
    have htail : Upcoming (32 :: textOf spell ts) (ts ++ [.eof]) :=
      upcoming_blank (upcoming_textOf fun t' ht' => h t' (List.mem_cons_of_mem t ht'))
    have htext : textOf spell (t :: ts) = t.text spell ++ 32 :: textOf spell ts := by
      simp [textOf]
    refine ⟨32 :: textOf spell ts, ?_, htail⟩
    rw [htext]
    exact nextToken_text (h t List.mem_cons_self) _

end Lua
end Rustrapper

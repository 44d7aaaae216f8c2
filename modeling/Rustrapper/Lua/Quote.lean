/-
# Quoted strings

`quote_string` writes the text of a string between double quotes for `%q`. The
lexer reads the text back when every byte is printable ASCII, a tab, a newline
or a carriage return (`quoteString_readable_iff`): any other byte is written as
a backslash and three digits, and the only escape with a digit that the lexer
knows is `\0`.
-/
import Rustrapper.Lua.Spelling

namespace Rustrapper
namespace Lua

/-! ### `quote_string` -/

/-- What is written for a byte. -/
def quoteByte (b : UInt8) : List UInt8 :=
  if b = 92 then [92, 92]
  else if b = 34 then [92, 34]
  else if b = 10 then [92, 110]
  else if b = 13 then [92, 114]
  else if b = 9 then [92, 116]
  else if 0x20 ≤ b ∧ b ≤ 0x7E then [b]
  else [92, 48 + b / 100, 48 + b % 100 / 10, 48 + b % 10]

/-- The loop of `quote_string`; `out` has room for `cap` bytes. -/
def quoteLoop (cap : ℕ) : List UInt8 → List UInt8 → Except String (List UInt8)
  | [], out => .ok out
  | b :: bs, out =>
    if out.length + 4 > cap then .error "string.format result too long"
    else quoteLoop cap bs (out ++ quoteByte b)

/-- `quote_string`. -/
def quoteString (cap : ℕ) (src : List UInt8) : Except String (List UInt8) :=
  if cap < 2 then .error "string.format result too long"
  else
    match quoteLoop cap src [34] with
    | .error m => .error m
    | .ok out =>
      if out.length + 1 > cap then .error "string.format result too long"
      else .ok (out ++ [34])

/-- The body of the quoted text. -/
def quoteBody (src : List UInt8) : List UInt8 := src.flatMap quoteByte

theorem quoteLoop_eq_ok {cap : ℕ} {src out text : List UInt8} (h : quoteLoop cap src out = .ok text) :
    text = out ++ quoteBody src := by
  induction src generalizing out with
  | nil =>
    cases h
    exact (List.append_nil _).symm
  | cons b bs ih =>
    rw [quoteLoop] at h
    split_ifs at h
    rw [ih h, List.append_assoc]
    rfl

/-- What `quote_string` writes when there is room. -/
theorem quoteString_eq_ok {cap : ℕ} {src text : List UInt8} (h : quoteString cap src = .ok text) :
    text = 34 :: (quoteBody src ++ [34]) ∧ text.length ≤ cap := by
  unfold quoteString at h
  split_ifs at h
  cases hloop : quoteLoop cap src [34] with
  | error m =>
    rw [hloop] at h
    cases h
  | ok out =>
    rw [hloop] at h
    dsimp only at h
    split_ifs at h with hcap
    cases h
    have hout := quoteLoop_eq_ok hloop
    refine ⟨by rw [hout]; rfl, ?_⟩
    rw [List.length_append, List.length_singleton]
    omega

/-! ### Reading it back -/

/-- The lexer reads what `quote_string` writes for the byte. -/
def Quotable (b : UInt8) : Prop := b = 9 ∨ b = 10 ∨ b = 13 ∨ 0x20 ≤ b ∧ b ≤ 0x7E

instance (b : UInt8) : Decidable (Quotable b) := by
  unfold Quotable
  infer_instance

theorem escaped_quoteBody {src : List UInt8} (h : ∀ b ∈ src, Quotable b) : Escaped 34 src (quoteBody src) := by
  induction src with
  | nil => exact .nil
  | cons b bs ih =>
    rw [List.forall_mem_cons] at h
    have hrest := ih h.2
    rw [quoteBody, List.flatMap_cons]
    unfold quoteByte
    split_ifs with h92 h34 h10 h13 h9 hplain
    · exact .escape (by rw [h92]; rfl) hrest
    · exact .escape (by rw [h34]; rfl) hrest
    · exact .escape (by rw [h10]; rfl) hrest
    · exact .escape (by rw [h13]; rfl) hrest
    · exact .escape (by rw [h9]; rfl) hrest
    · refine .plain ⟨?_, h10⟩ h34 h92 hrest
      rintro rfl
      exact absurd hplain.1 (by decide)
    · exact absurd h.1 (by simp [Quotable, h10, h13, h9, hplain])

section
variable {c : UInt8} {cs acc text rest : List UInt8}

/-- A byte that stands for itself. -/
theorem lexStringBody_plain (hc : c ≠ 0 ∧ c ≠ 10 ∧ c ≠ 34 ∧ c ≠ 92)
    (h : lexStringBody 34 (c :: cs) acc = (.ok (.str text), rest)) :
    lexStringBody 34 cs (c :: acc) = (.ok (.str text), rest) := by
  obtain ⟨h0, h10, h34, h92⟩ := hc
  rw [lexStringBody.eq_def] at h
  simp only [h0, h10, h34, h92, or_self, if_false] at h
  split_ifs at h
  · cases h
  · exact h

/-- An escape stands for one byte. -/
theorem lexStringBody_escape (h : lexStringBody 34 (92 :: c :: cs) acc = (.ok (.str text), rest)) :
    ∃ x, unescape c = some x ∧ lexStringBody 34 cs (x :: acc) = (.ok (.str text), rest) := by
  have hnot : ¬ ((92 : UInt8) = 0 ∨ (92 : UInt8) = 10) := by decide
  have hquote : ¬ (92 : UInt8) = 34 := by decide
  rw [lexStringBody.eq_def] at h
  simp only [if_neg hnot, if_neg hquote, if_true] at h
  cases hx : unescape c with
  | none =>
    rw [hx] at h
    cases h
  | some x =>
    rw [hx] at h
    dsimp only at h
    split_ifs at h
    · cases h
    · exact ⟨x, rfl, h⟩

/-- A digit stands for itself. -/
theorem digit_plain (d : UInt8) (hd : d < 10) : 48 + d ≠ 0 ∧ 48 + d ≠ 10 ∧ 48 + d ≠ 34 ∧ 48 + d ≠ 92 := by
  revert d
  decide +kernel

/-- What is written for a byte is read as one byte, or as three when the byte is not quotable. -/
theorem lexStringBody_quoteByte (h : lexStringBody 34 (quoteByte c ++ cs) acc = (.ok (.str text), rest)) :
    ∃ acc', lexStringBody 34 cs acc' = (.ok (.str text), rest) ∧
      acc'.length = acc.length + if Quotable c then 1 else 3 := by
  have hescape : ∀ {e : UInt8}, Quotable c → lexStringBody 34 (92 :: e :: cs) acc = (.ok (.str text), rest) →
      ∃ acc', lexStringBody 34 cs acc' = (.ok (.str text), rest) ∧
        acc'.length = acc.length + if Quotable c then 1 else 3 := by
    intro e hc h
    obtain ⟨x, -, hx⟩ := lexStringBody_escape h
    exact ⟨x :: acc, hx, by rw [if_pos hc, List.length_cons]⟩
  unfold quoteByte at h
  split_ifs at h with h92 h34 h10 h13 h9 hplain
  · exact hescape (by rw [h92]; decide) h
  · exact hescape (by rw [h34]; decide) h
  · exact hescape (by rw [h10]; decide) h
  · exact hescape (by rw [h13]; decide) h
  · exact hescape (by rw [h9]; decide) h
  · refine ⟨c :: acc, lexStringBody_plain ⟨?_, h10, h34, h92⟩ h, ?_⟩
    · rintro rfl
      exact absurd hplain.1 (by decide)
    · rw [if_pos (.inr (.inr (.inr hplain))), List.length_cons]
  · have hmod : ∀ b : UInt8, b % 100 / 10 < 10 ∧ b % 10 < 10 := by decide +kernel
    obtain ⟨x, -, h1⟩ := lexStringBody_escape h
    have h2 := lexStringBody_plain (digit_plain _ (hmod c).1) h1
    have h3 := lexStringBody_plain (digit_plain _ (hmod c).2) h2
    refine ⟨_, h3, ?_⟩
    rw [if_neg (by simp [Quotable, h10, h13, h9, hplain])]
    simp

/-- The lexer reads a byte at least for each of the source, and more when one of them is not quotable. -/
theorem length_of_lexStringBody {src : List UInt8}
    (h : lexStringBody 34 (quoteBody src ++ [34]) acc = (.ok (.str text), rest)) :
    acc.length + src.length ≤ text.length ∧ (text.length = acc.length + src.length → ∀ b ∈ src, Quotable b) := by
  induction src generalizing acc with
  | nil =>
    cases h
    simp
  | cons b bs ih =>
    rw [quoteBody, List.flatMap_cons, List.append_assoc] at h
    obtain ⟨acc', hrest, hlen⟩ := lexStringBody_quoteByte h
    obtain ⟨hle, hall⟩ := ih hrest
    rw [List.length_cons, List.forall_mem_cons]
    by_cases hb : Quotable b
    · rw [if_pos hb] at hlen
      exact ⟨by omega, fun heq => ⟨hb, hall (by omega)⟩⟩
    · rw [if_neg hb] at hlen
      exact ⟨by omega, fun heq => by omega⟩

end

/-- **Quoted text is readable source** exactly when all bytes of the string are: the lexer reads it as one string token
with these bytes. -/
theorem quoteString_readable_iff {cap : ℕ} {src text : List UInt8} (h : quoteString cap src = .ok text)
    (hlen : src.length ≤ 256) : nextToken text = (.ok (.str src), []) ↔ ∀ b ∈ src, Quotable b := by
  obtain ⟨rfl, -⟩ := quoteString_eq_ok h
  constructor
  · intro hlex
    have hbody : lexStringBody 34 (quoteBody src ++ [34]) [] = (.ok (.str src), []) := hlex
    exact (length_of_lexStringBody hbody).2 (by rw [List.length_nil, Nat.zero_add])
  · intro hall
    have hquoted := @nextToken_quoted _ _ _ [] (.inl rfl) (escaped_quoteBody hall) hlen
    rw [List.append_nil] at hquoted
    exact hquoted

theorem quoted_tab_readable : nextToken (bytesOf "\"a\\tb\"") = (.ok (.str (bytesOf "a\tb")), []) :=
  (@quoteString_readable_iff 1024 _ _ (by decide +kernel) (by decide +kernel)).mpr (by decide +kernel)

/-- A byte beyond ASCII is written as an escape that the lexer refuses; the NUL comes back with two zeros behind it. -/
theorem quoted_byte_unreadable :
    quoteString 1024 [200] = .ok (bytesOf "\"\\200\"") ∧
      nextToken (bytesOf "\"\\200\"") = (.error "bad escape sequence", bytesOf "00\"") ∧
      quoteString 1024 [0] = .ok (bytesOf "\"\\000\"") ∧
      nextToken (bytesOf "\"\\000\"") = (.ok (.str [0, 48, 48]), []) := by
  decide +kernel

end Lua
end Rustrapper

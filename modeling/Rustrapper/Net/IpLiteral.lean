/-
# The language of IPv4 literals

`parse_ip_string` accepts the texts of four runs of decimal digits with single
dots between them, each of a value up to 255, and nothing else: what `ipLiteral`
computes part by part, as a grammar (`parseIpString_ok_iff`). The dotted form of
an address is one of them.
-/
import Rustrapper.Net.Lease

namespace Rustrapper.Net.Dhcp

open Codec

/-- A run of decimal digits that denotes an octet. -/
structure Octet (run : List UInt8) (o : UInt8) : Prop where
  ne_nil : run ≠ []
  digits : ∀ b ∈ run, isDecimal b = true
  value : decimalFrom 0 run = o.toNat

/-- Four runs with single dots between them. -/
def dotted (a b c d : List UInt8) : List UInt8 := a ++ 0x2E :: (b ++ 0x2E :: (c ++ 0x2E :: d))

/-- The text is an IPv4 literal of the address. -/
def IsLiteral (text : List UInt8) (ip : Vector UInt8 4) : Prop :=
  ∃ a b c d, text = dotted a b c d ∧ Octet a ip[0] ∧ Octet b ip[1] ∧ Octet c ip[2] ∧ Octet d ip[3]

/-- The decimal digits of an octet. -/
def octetText (o : UInt8) : List UInt8 := (Nat.toDigits 10 o.toNat).map fun c => UInt8.ofNat c.toNat

/-- The dotted form of an address. -/
def ipText (ip : Vector UInt8 4) : List UInt8 :=
  dotted (octetText ip[0]) (octetText ip[1]) (octetText ip[2]) (octetText ip[3])

theorem octetOf_eq_some {run : List UInt8} {o : UInt8} : octetOf run = some o ↔ Octet run o := by
  have ho := o.toNat_lt
  constructor
  · intro h
    rw [octetOf, octetFrom] at h
    obtain ⟨⟨hne, hdig, hle⟩, hval⟩ := Option.ite_none_right_eq_some.mp h
    obtain rfl := Option.some.inj hval
    refine ⟨hne.resolve_left (by simp), List.all_eq_true.mp hdig, ?_⟩
    rw [UInt8.toNat_ofNat_of_lt' (show decimalFrom 0 run < 256 by omega)]
  · rintro ⟨hne, hdig, hval⟩
    have hc : (false = true ∨ run ≠ []) ∧ run.all isDecimal ∧ decimalFrom 0 run ≤ 255 :=
      ⟨.inr hne, List.all_eq_true.mpr hdig, by omega⟩
    rw [octetOf, octetFrom, if_pos hc, hval, UInt8.ofNat_toNat]

/-- No digit is a dot. -/
theorem Octet.no_dot {run : List UInt8} {o : UInt8} (h : Octet run o) : (0x2E : UInt8) ∉ run := fun hmem => by
  have := h.digits _ hmem
  cases this

/-- The parts of four runs without dots. -/
theorem splitOn_dotted {a b c d : List UInt8} (ha : (0x2E : UInt8) ∉ a) (hb : (0x2E : UInt8) ∉ b)
    (hc : (0x2E : UInt8) ∉ c) (hd : (0x2E : UInt8) ∉ d) : (dotted a b c d).splitOn 0x2E = [a, b, c, d] := by
  have hparts : dotted a b c d = [0x2E].intercalate [a, b, c, d] := by simp [dotted, List.intercalate]
  rw [hparts]
  refine List.splitOn_intercalate _ ?_ (by simp)
  simp [ha, hb, hc, hd]

theorem eq_dotted_of_splitOn {text a b c d : List UInt8} (h : text.splitOn 0x2E = [a, b, c, d]) :
    text = dotted a b c d := by
  rw [← @List.intercalate_splitOn _ text _ _ 0x2E, h]
  simp [dotted, List.intercalate]

/-- **The literals are a language.** -/
theorem ipLiteral_eq_some {s : List UInt8} {ip : Vector UInt8 4} :
    ipLiteral s = some ip ↔ IsLiteral (cString s) ip := by
  constructor
  · intro h
    rw [ipLiteral] at h
    cases hos : ((cString s).splitOn 0x2E).mapM octetOf with
    | none =>
      rw [hos] at h
      cases h
    | some os =>
      have hparts := forall₂_of_mapM hos
      rw [hos] at h
      generalize hsplit : (cString s).splitOn 0x2E = parts at hparts
      rcases hparts with _ | ⟨h1, _ | ⟨h2, _ | ⟨h3, _ | ⟨h4, _ | _⟩⟩⟩⟩
      · cases h
      · cases h
      · cases h
      · cases h
      · cases h
        exact ⟨_, _, _, _, eq_dotted_of_splitOn hsplit, octetOf_eq_some.mp h1, octetOf_eq_some.mp h2,
          octetOf_eq_some.mp h3, octetOf_eq_some.mp h4⟩
      · cases h
  · rintro ⟨a, b, c, d, htext, ha, hb, hc, hd⟩
    have hmap : [a, b, c, d].mapM octetOf = some [ip[0], ip[1], ip[2], ip[3]] := by
      simp [octetOf_eq_some.mpr ha, octetOf_eq_some.mpr hb, octetOf_eq_some.mpr hc, octetOf_eq_some.mpr hd]
    rw [ipLiteral, htext, splitOn_dotted ha.no_dot hb.no_dot hc.no_dot hd.no_dot, hmap]
    refine congrArg some ?_
    ext i hi
    interval_cases i <;> rfl

theorem octet_octetText (o : UInt8) : Octet (octetText o) o := by
  have h : ∀ o : UInt8, octetOf (octetText o) = some o := by decide +kernel
  exact octetOf_eq_some.mp (h o)

theorem cString_ipText (ip : Vector UInt8 4) : cString (ipText ip) = ipText ip := by
  refine List.takeWhile_eq_self_iff.mpr fun b hb => ?_
  have hdigit : ∀ o, ∀ b ∈ octetText o, b ≠ 0 := by
    intro o b hb h0
    have := (octet_octetText o).digits b hb
    rw [h0] at this
    cases this
  simp only [ipText, dotted, List.mem_append, List.mem_cons] at hb
  apply decide_eq_true
  rcases hb with hb | rfl | hb | rfl | hb | rfl | hb
  · exact hdigit _ b hb
  · decide
  · exact hdigit _ b hb
  · decide
  · exact hdigit _ b hb
  · decide
  · exact hdigit _ b hb

/-- **`parse_ip_string` accepts the IPv4 literals**, of the bytes in front of
the first NUL, and returns the address each of them denotes; among them is the
dotted form of every address. -/
theorem parseIpString_ok_iff (s : List UInt8) :
    (∀ ip, (parseIpString s).optional = .ok (some ip) ↔ IsLiteral (cString s) ip) ∧
      ((∀ ip, ¬ IsLiteral (cString s) ip) → (parseIpString s).optional = .ok none) ∧
      ∀ ip, (parseIpString (ipText ip)).optional = .ok (some ip) := by
  have hok : ∀ s ip, (parseIpString s).optional = .ok (some ip) ↔ IsLiteral (cString s) ip := by
    intro s ip
    rw [parseIpString_eq, ← ipLiteral_eq_some]
    exact ⟨fun h => Except.ok.inj h, fun h => congrArg Except.ok h⟩
  refine ⟨hok s, fun h => ?_, fun ip => ?_⟩
  · rw [parseIpString_eq]
    cases hl : ipLiteral s with
    | none => rfl
    | some ip => exact absurd (ipLiteral_eq_some.mp hl) (h ip)
  · apply (hok _ ip).mpr
    rw [cString_ipText]
    exact ⟨_, _, _, _, rfl, octet_octetText _, octet_octetText _, octet_octetText _, octet_octetText _⟩

end Rustrapper.Net.Dhcp

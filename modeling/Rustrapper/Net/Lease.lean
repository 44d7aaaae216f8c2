/-
# DHCP responses, written

The frames a DHCP server may answer with, their options in any order, and the
configuration they stand for. `parse_response` finds it when the pad options
come in pairs (`parseResponse_reads`): it takes a pad for an option with a
length byte, so a single one makes it step into the next option.
-/
import Rustrapper.Codec.Text
import Rustrapper.Net.Dhcp
import Rustrapper.Net.Headers

namespace Rustrapper.Net.Dhcp

open Codec

/-! ### IPv4 literals -/

/-- The octet in a part of a literal, `n` being the number in front and `some` whether it has digits. -/
def octetFrom (n : ℕ) (digits : Bool) (p : List UInt8) : Option UInt8 :=
  if (digits = true ∨ p ≠ []) ∧ p.all isDecimal ∧ decimalFrom n p ≤ 255 then some (UInt8.ofNat (decimalFrom n p))
  else none

/-- The octet that a part of a literal stands for: decimal digits of a value up to 255. -/
def octetOf (p : List UInt8) : Option UInt8 := octetFrom 0 false p

/-- The address that an IPv4 literal stands for: four octets with dots between them, up to a NUL. -/
def ipLiteral (s : List UInt8) : Option (Vector UInt8 4) :=
  match ((cString s).splitOn 0x2E).mapM octetOf with
  | some [a, b, c, d] => some #v[a, b, c, d]
  | _ => none

/-- The octets of the parts that are left, in the midst of the first one. -/
def octetsFrom (n : ℕ) (digits : Bool) : List (List UInt8) → Option (List UInt8)
  | [] => none
  | p :: ps => do
    let o ← octetFrom n digits p
    let os ← ps.mapM octetOf
    some (o :: os)

/-- What `parse_ip_string` does from a state on. -/
def ipFrom (s : List UInt8) (st : IpState) : Scan (Vector UInt8 4) := do
  let st ← ipLoop s st
  rejectIf (st.hasDigit = false ∨ st.octetIdx ≠ 3)
  store st.ip st.octetIdx (UInt8.ofNat st.octet)

/-- The octets in their places, if they are as many as are missing. -/
def placed (st : IpState) : Option (List UInt8) → Scan (Vector UInt8 4)
  | none => .error .rejected
  | some os => if st.octetIdx + os.length = 4 then .ok (putAt st.ip st.octetIdx os) else .error .rejected

theorem octetsFrom_zero (ps : List (List UInt8)) (h : ps ≠ []) : octetsFrom 0 false ps = ps.mapM octetOf := by
  obtain ⟨p, ps, rfl⟩ := List.exists_cons_of_ne_nil h
  rw [List.mapM_cons]
  rfl

theorem octetFrom_cons {b : UInt8} (hb : isDecimal b = true) (n : ℕ) (digits : Bool) (p : List UInt8) :
    octetFrom n digits (b :: p) = octetFrom (n * 10 + (b.toNat - 0x30)) true p := by
  simp [octetFrom, hb, decimalFrom]

theorem octetFrom_not_digit {b : UInt8} (hb : ¬ isDecimal b = true) (n : ℕ) (digits : Bool) (p : List UInt8) :
    octetFrom n digits (b :: p) = none := by
  simp [octetFrom, hb]

theorem octetFrom_large {n : ℕ} (hn : 255 < n) (digits : Bool) (p : List UInt8) : octetFrom n digits p = none := by
  have hle := le_decimalFrom n p
  rw [octetFrom, if_neg]
  rintro ⟨-, -, h⟩
  omega

/-- Each part has its octet. -/
theorem forall₂_of_mapM {ps : List (List UInt8)} {os : List UInt8} (h : ps.mapM octetOf = some os) :
    List.Forall₂ (fun p o => octetOf p = some o) ps os := by
  induction ps generalizing os with
  | nil =>
    cases h
    exact .nil
  | cons p ps ih =>
    rw [List.mapM_cons] at h
    obtain ⟨o, ho, h⟩ := Option.bind_eq_some_iff.mp h
    obtain ⟨os', hos, h⟩ := Option.bind_eq_some_iff.mp h
    cases h
    exact .cons ho (ih hos)

theorem length_pos_of_octetOf {p : List UInt8} {o : UInt8} (h : octetOf p = some o) : 0 < p.length := by
  apply List.length_pos_of_ne_nil
  rintro rfl
  cases h

/-- The end of a literal. -/
theorem ipFrom_end (st : IpState) (hoctet : st.octet ≤ 255) :
    (do
      rejectIf (st.hasDigit = false ∨ st.octetIdx ≠ 3)
      store st.ip st.octetIdx (UInt8.ofNat st.octet)) = placed st (octetsFrom st.octet st.hasDigit [[]]) := by
  by_cases hdigit : st.hasDigit = true
  · have hoct : octetsFrom st.octet st.hasDigit [[]] = some [UInt8.ofNat st.octet] := by
      simp [octetsFrom, octetFrom, hdigit, decimalFrom, hoctet]
    rw [hoct]
    by_cases hidx : st.octetIdx = 3
    · rw [rejectIf_then (by simp [hdigit, hidx]), store_ok (by omega)]
      simp [placed, hidx]
    · have hne : ¬ st.octetIdx + [UInt8.ofNat st.octet].length = 4 := by
        rw [List.length_singleton]
        omega
      rw [placed, if_neg hne, rejectIf, if_pos (.inr hidx)]
      rfl
  · have hoct : octetsFrom st.octet st.hasDigit [[]] = none := by simp [octetsFrom, octetFrom, hdigit]
    rw [hoct, rejectIf, if_pos (.inl (by simpa using hdigit))]
    rfl

/-- **`parse_ip_string` from any state on** places the octets of the parts that are left. -/
theorem ipFrom_eq (s : List UInt8) (st : IpState) (hoctet : st.octet ≤ 255) (hidx : st.octetIdx ≤ 3) :
    ipFrom s st = placed st (octetsFrom st.octet st.hasDigit ((cString s).splitOn 0x2E)) := by
  induction s generalizing st with
  | nil => exact ipFrom_end st hoctet
  | cons b s ih =>
    rw [ipFrom, ipLoop, cString, List.takeWhile_cons]
    by_cases h0 : b = 0
    · rw [if_pos h0, h0]
      exact ipFrom_end st hoctet
    have hcons : (if decide (b ≠ 0) = true then b :: s.takeWhile (· ≠ 0) else []) = b :: cString s :=
      if_pos (decide_eq_true h0)
    rw [if_neg h0, hcons, List.splitOn_cons_eq_if_modifyHead]
    obtain ⟨p, ps, hparts⟩ := List.exists_cons_of_ne_nil (List.splitOn_ne_nil 0x2E (cString s))
    by_cases hd : isDecimal b = true
    · have hdot : b ≠ 0x2E := by
        rintro rfl
        cases hd
      rw [if_pos (isDecimal_iff.mp hd), minus_of_isDecimal hd, ok_then, if_neg (by simpa using hdot), hparts,
        List.modifyHead_cons, octetsFrom, octetFrom_cons hd]
      by_cases hbig : st.octet * 10 + (b.toNat - 0x30) > 255
      · dsimp only
        rw [rejectIf, if_pos hbig, octetFrom_large hbig]
        rfl
      · have hrest :=
          ih { st with octet := st.octet * 10 + (b.toNat - 0x30), hasDigit := true } (by simpa using hbig) hidx
        rw [hparts, octetsFrom] at hrest
        dsimp only
        rw [rejectIf_then hbig]
        exact hrest
    rw [if_neg (isDecimal_iff.not.mp hd)]
    by_cases hdot : b = 0x2E
    · rw [if_pos hdot, if_pos (by simpa using hdot), octetsFrom]
      by_cases hrej : st.hasDigit = false ∨ 3 ≤ st.octetIdx
      · rw [rejectIf, if_pos hrej]
        rcases hrej with hdigit | h3
        · simp [octetFrom, hdigit, placed, bind, Except.bind]
        · -- there is no room for the octets behind the dot
          cases hoct : octetFrom st.octet st.hasDigit [] with
          | none => simp [placed, bind, Except.bind]
          | some o =>
            cases hos : ((cString s).splitOn 0x2E).mapM octetOf with
            | none => simp [placed, bind, Except.bind]
            | some os =>
              have hlen := (forall₂_of_mapM hos).length_eq
              have hpos := List.length_pos_of_ne_nil (List.splitOn_ne_nil 0x2E (cString s))
              have hne : ¬ st.octetIdx + (o :: os).length = 4 := by
                rw [List.length_cons]
                omega
              simp only [placed, Option.bind_eq_bind, Option.bind_some, if_neg hne]
              rfl
      · rw [not_or, Bool.not_eq_false, not_le] at hrej
        have hrest :=
          ih ⟨putAt st.ip st.octetIdx [UInt8.ofNat st.octet], 0, st.octetIdx + 1, false⟩ (by norm_num) hrej.2
        have hoct : octetFrom st.octet st.hasDigit [] = some (UInt8.ofNat st.octet) := by
          simp [octetFrom, hrej.1, decimalFrom, hoctet]
        dsimp only at hrest
        rw [octetsFrom_zero _ (List.splitOn_ne_nil _ _)] at hrest
        rw [rejectIf_then (by simp [hrej.1, hrej.2]), store_ok (by omega), ok_then, hoct]
        refine hrest.trans ?_
        cases ((cString s).splitOn 0x2E).mapM octetOf with
        | none => rfl
        | some os =>
          have hput := putAt_putAt st.ip st.octetIdx [UInt8.ofNat st.octet] os
          rw [List.length_singleton] at hput
          simp only [placed, hput, Option.bind_eq_bind, Option.bind_some, List.length_cons, List.singleton_append,
            Nat.add_assoc, Nat.add_comm os.length]
    · rw [if_neg hdot, if_neg (by simpa using hdot), hparts, List.modifyHead_cons, octetsFrom, octetFrom_not_digit hd]
      rfl

theorem putAt_four (a b c d : UInt8) : putAt (Vector.replicate 4 0) 0 [a, b, c, d] = #v[a, b, c, d] := by
  ext i hi
  interval_cases i <;> rfl

/-- **`parse_ip_string`** reads IPv4 literals, and nothing else. -/
theorem parseIpString_eq (s : List UInt8) : (parseIpString s).optional = .ok (ipLiteral s) := by
  have h := ipFrom_eq s {} (by norm_num) (by norm_num)
  rw [octetsFrom_zero _ (List.splitOn_ne_nil _ _)] at h
  change (ipFrom s {}).optional = _
  rw [h, ipLiteral]
  rcases ((cString s).splitOn 0x2E).mapM octetOf with _ | _ | ⟨a, _ | ⟨b, _ | ⟨c, _ | ⟨d, _ | _⟩⟩⟩⟩ <;>
    simp [placed, Scan.optional, putAt_four]

/-- No literal is shorter than seven bytes. -/
theorem length_of_ipLiteral {s : List UInt8} {a : Vector UInt8 4} (h : ipLiteral s = some a) : 7 ≤ s.length := by
  have hsum := sum_splitOn 0x2E (cString s)
  have hle : (cString s).length ≤ s.length := (List.takeWhile_prefix _).length_le
  rw [ipLiteral] at h
  cases hos : ((cString s).splitOn 0x2E).mapM octetOf with
  | none =>
    rw [hos] at h
    cases h
  | some os =>
    have hparts := forall₂_of_mapM hos
    rw [hos] at h
    generalize (cString s).splitOn 0x2E = parts at hsum hparts
    rcases hparts with _ | ⟨h1, _ | ⟨h2, _ | ⟨h3, _ | ⟨h4, hrest⟩⟩⟩⟩
    · cases h
    · cases h
    · cases h
    · cases h
    · have p1 := length_pos_of_octetOf h1
      have p2 := length_pos_of_octetOf h2
      have p3 := length_pos_of_octetOf h3
      have p4 := length_pos_of_octetOf h4
      simp only [List.map_cons, List.sum_cons] at hsum
      omega

/-! ### Options -/

/-- An option of RFC 2132 that is neither a pad nor the end: the lengths the standard asks for. -/
structure DhcpOption where
  type : UInt8
  value : List UInt8
  notPad : type ≠ 0
  notEnd : type ≠ 255
  fits : value.length < 256
  mask : type = 1 → value.length = 4
  addresses : type = 3 ∨ type = 6 → 4 ≤ value.length ∧ 4 ∣ value.length
  message : type = 53 → value.length = 1
  text : type = 66 ∨ type = 67 → 1 ≤ value.length

/-- A pad, or an option with a length. -/
inductive Item where
  | pad
  | option (o : DhcpOption)

def Item.bytes : Item → List UInt8
  | .pad => [0]
  | .option o => o.type :: UInt8.ofNat o.value.length :: o.value

/-- The options area: the items, and option 255. -/
def area (items : List Item) : List UInt8 := items.flatMap Item.bytes ++ [255]

/-- The first four bytes of a value. -/
def firstFour (value : List UInt8) : Option (Vector UInt8 4) :=
  if h : (value.take 4).length = 4 then some ⟨(value.take 4).toArray, h⟩ else none

namespace DhcpOption

/-- The address an option of this type gives. -/
def addressOf (type : UInt8) (o : DhcpOption) : Option (Vector UInt8 4) :=
  if o.type = type then firstFour o.value else none

/-- The server an option 66 gives: four raw bytes, or an IPv4 literal. -/
def serverOf (o : DhcpOption) : Option (Vector UInt8 4) :=
  if o.type = 66 then if o.value.length = 4 then firstFour o.value else ipLiteral o.value else none

/-- The boot file an option 67 gives. -/
def bootfileOf (o : DhcpOption) : Option (List UInt8) := if o.type = 67 then some (o.value.take 127) else none

/-- The type of the message. -/
def messageOf (o : DhcpOption) : Option UInt8 := if o.type = 53 then o.value.head? else none

/-- What an option sets. -/
def apply (s : Options) (o : DhcpOption) : Options where
  msgType := o.messageOf.getD s.msgType
  subnet := (o.addressOf 1).getD s.subnet
  gateway := (o.addressOf 3).getD s.gateway
  dns := (o.addressOf 6).getD s.dns
  nextServer := o.serverOf.getD s.nextServer
  bootfile := (o.bootfileOf.map fun name => putAt s.bootfile 0 (name ++ [0])).getD s.bootfile

end DhcpOption

section
variable {f : Frame} {off : ℕ}

theorem address_eq {ty len : UInt8} {value : List UInt8} (h : f.Has off (ty :: len :: value)) (h4 : 4 ≤ value.length) :
    ∃ a, address f off = .ok a ∧ firstFour value = some a := by
  have hlen : (value.take 4).length = 4 := by
    rw [List.length_take]
    omega
  have hhas := h.tail.tail
  rw [← List.take_append_drop 4 value] at hhas
  have hrange := hhas.left.range
  rw [hlen] at hrange
  refine ⟨⟨(value.take 4).toArray, hlen⟩, ?_, dif_pos hlen⟩
  rw [address, hrange, ok_then, copyFromSlice, dif_pos hlen]

/-- **An option is read as it is written.** -/
theorem setOption_eq (s : Options) (o : DhcpOption) (h : f.Has off (Item.option o).bytes) :
    setOption f s o.type off o.value.length = .ok (o.apply s) := by
  have hvalue := h.tail.tail
  unfold setOption DhcpOption.apply DhcpOption.messageOf DhcpOption.addressOf DhcpOption.serverOf DhcpOption.bootfileOf
  by_cases h53 : o.type = 53
  · have h1 := o.message h53
    obtain ⟨t, ht⟩ := List.length_eq_one_iff.mp h1
    rw [ht] at hvalue
    simp [h53, ht, hvalue.byte, ok_then]
  by_cases h1 : o.type = 1
  · obtain ⟨a, ha, hfirst⟩ := address_eq h (o.mask h1).ge
    simp [h1, o.mask h1, ha, hfirst, ok_then]
  by_cases h3 : o.type = 3
  · have h4 := (o.addresses (.inl h3)).1
    obtain ⟨a, ha, hfirst⟩ := address_eq h h4
    simp [h3, h4, ha, hfirst, ok_then]
  by_cases h6 : o.type = 6
  · have h4 := (o.addresses (.inr h6)).1
    obtain ⟨a, ha, hfirst⟩ := address_eq h h4
    simp [h6, h4, ha, hfirst, ok_then]
  by_cases h66 : o.type = 66
  · by_cases h4 : o.value.length = 4
    · obtain ⟨a, ha, hfirst⟩ := address_eq h h4.ge
      simp [h66, h4, ha, hfirst, ok_then]
    by_cases hlong : 4 ≤ o.value.length
    · simp [h66, h4, hlong, hvalue.range, parseIpString_eq, ok_then]
    · -- too short for an address
      have hnone : ipLiteral o.value = none := by
        refine Option.eq_none_iff_forall_ne_some.mpr fun a ha => ?_
        have := length_of_ipLiteral ha
        omega
      simp [h66, h4, hlong, hnone]
  by_cases h67 : o.type = 67
  · have hne : o.value ≠ [] := List.length_pos_iff.mp (o.text (.inr h67))
    have hlen : (o.value.take 127).length = min o.value.length 127 := by rw [List.length_take, Nat.min_comm]
    rw [← List.take_append_drop 127 o.value] at hvalue
    have hrange := hvalue.left.range
    have hput := putAt_putAt s.bootfile 0 (o.value.take 127) [0]
    rw [hlen] at hrange
    rw [hlen, Nat.zero_add] at hput
    have hcopy : copyInto s.bootfile (o.value.take 127) = .ok (putAt s.bootfile 0 (o.value.take 127)) :=
      copyInto_ok (by omega)
    have hstore : store (putAt s.bootfile 0 (o.value.take 127)) (min o.value.length 127) 0 =
        .ok (putAt s.bootfile 0 (o.value.take 127 ++ [0])) := by rw [store_ok (by omega), hput]
    simp [h67, List.length_pos_iff.mpr hne, hrange, hcopy, hstore, ok_then]
  · simp [h53, h1, h3, h6, h66, h67]

end

/-! ### The walk -/

def Item.option? : Item → Option DhcpOption
  | .pad => none
  | .option o => some o

/-- The options without the pads. -/
def optionsOf (items : List Item) : List DhcpOption := items.filterMap Item.option?

/-- The walk does not lose its step: pads come in pairs, which it reads as an option without a value. One in front of
the end is read as an option of 255 bytes; with less `room` behind, that ends the walk as well. -/
def InStep (room : ℕ) : List Item → Prop
  | [] => True
  | [.pad] => room < 255
  | .pad :: .pad :: items => InStep room items
  | .pad :: .option _ :: _ => False
  | .option _ :: items => InStep room items

theorem walk_cons {f : Frame} {off : ℕ} {o : DhcpOption} {bs : List UInt8} (s : Options)
    (h : f.Has off ((Item.option o).bytes ++ bs)) :
    walk f off s = walk f (off + 2 + o.value.length) (o.apply s) := by
  have hopt := h.left
  have hle := hopt.le
  have hlen : (UInt8.ofNat o.value.length).toNat = o.value.length := by
    rw [UInt8.toNat_ofNat']
    exact Nat.mod_eq_of_lt o.fits
  have hbytes : (Item.option o).bytes.length = o.value.length + 2 := rfl
  rw [hbytes] at hle
  rw [walk, dif_pos (by omega), hopt.byte, ok_then, if_neg o.notEnd, hopt.tail.byte, ok_then, hlen, if_neg (by omega),
    setOption_eq s o hopt, ok_then]

theorem walk_pads {f : Frame} {off : ℕ} {bs : List UInt8} (s : Options) (h : f.Has off (0 :: 0 :: bs)) :
    walk f off s = walk f (off + 2) s := by
  have hle := h.le
  simp only [List.length_cons] at hle
  have hskip : setOption f s 0 off 0 = .ok s := by simp [setOption]
  rw [walk, dif_pos (by omega), h.byte, ok_then, if_neg (by decide), h.tail.byte, ok_then, if_neg (by simp; omega)]
  rw [show (0 : UInt8).toNat = 0 from rfl, hskip, ok_then]

/-- A pad is read with the byte behind it as its length; one that does not fit ends the walk. -/
theorem walk_pad {f : Frame} {off : ℕ} {len : UInt8} {bs : List UInt8} (s : Options) (h : f.Has off (0 :: len :: bs))
    (hlen : f.len < off + 2 + len.toNat) : walk f off s = .ok s := by
  have hle := h.le
  simp only [List.length_cons] at hle
  rw [walk, dif_pos (by omega), h.byte, ok_then, if_neg (by decide), h.tail.byte, ok_then, if_pos hlen]

/-- **The walk applies the options in turn.** -/
theorem walk_eq {f : Frame} {room : ℕ} (items : List Item) (hstep : InStep room items) (off : ℕ) (s : Options)
    (h : f.Has off (area items)) (hroom : f.len = off + (area items).length + room) :
    walk f off s = .ok ((optionsOf items).foldl DhcpOption.apply s) := by
  induction items using InStep.induct generalizing off s with
  | case1 =>
    have hend := h.byte
    rw [walk]
    split_ifs
    · rw [hend, ok_then, if_pos rfl]
      rfl
    · rfl
  | case2 =>
    rw [InStep] at hstep
    have hlen : (area [Item.pad]).length = 2 := rfl
    rw [hlen] at hroom
    have hlast : (255 : UInt8).toNat = 255 := rfl
    exact walk_pad s h (by omega)
  | case3 items ih =>
    have hlen : (area (.pad :: .pad :: items)).length = (area items).length + 2 := rfl
    rw [hlen] at hroom
    rw [walk_pads s h]
    exact ih hstep (off + 2) s h.tail.tail (by omega)
  | case4 o items => exact hstep.elim
  | case5 o items ih =>
    have happend : area (.option o :: items) = (Item.option o).bytes ++ area items := by simp [area]
    have hbytes : (Item.option o).bytes.length = o.value.length + 2 := rfl
    have hrest := h
    rw [happend] at hrest
    rw [happend, List.length_append] at hroom
    rw [walk_cons s hrest]
    have hnext := hrest.right
    rw [hbytes, Nat.add_comm _ 2, ← Nat.add_assoc] at hnext
    exact ih hstep _ _ hnext (by omega)

/-! ### What the options leave -/

open DhcpOption

section
variable (options : List DhcpOption) (s : Options)

theorem foldl_msgType : (options.foldl apply s).msgType = (lastGiven messageOf options).getD s.msgType := by
  rw [← foldl_lastGiven]
  exact (List.foldl_hom Options.msgType fun _ _ => rfl).symm

theorem foldl_subnet : (options.foldl apply s).subnet = (lastGiven (addressOf 1) options).getD s.subnet := by
  rw [← foldl_lastGiven]
  exact (List.foldl_hom Options.subnet fun _ _ => rfl).symm

theorem foldl_gateway : (options.foldl apply s).gateway = (lastGiven (addressOf 3) options).getD s.gateway := by
  rw [← foldl_lastGiven]
  exact (List.foldl_hom Options.gateway fun _ _ => rfl).symm

theorem foldl_dns : (options.foldl apply s).dns = (lastGiven (addressOf 6) options).getD s.dns := by
  rw [← foldl_lastGiven]
  exact (List.foldl_hom Options.dns fun _ _ => rfl).symm

theorem foldl_nextServer : (options.foldl apply s).nextServer = (lastGiven serverOf options).getD s.nextServer := by
  rw [← foldl_lastGiven]
  exact (List.foldl_hom Options.nextServer fun _ _ => rfl).symm

end

/-- A name put in front of a buffer, with its NUL. -/
theorem prefix_putAt {buf : Vector UInt8 128} {name : List UInt8} (h : name.length < 128) :
    name ++ [0] <+: (putAt buf 0 (name ++ [0])).toList := by
  rw [List.prefix_iff_eq_take]
  exact (take_putAt buf (by simpa using h)).symm

theorem length_of_bootfileOf {o : DhcpOption} {name : List UInt8} (h : o.bootfileOf = some name) :
    name.length < 128 := by
  rw [bootfileOf] at h
  split_ifs at h
  cases h
  rw [List.length_take]
  omega

/-- The boot file name is at the front of its buffer, whatever an earlier one leaves behind it. -/
theorem foldl_bootfile (options : List DhcpOption) (s : Options) {name : List UInt8}
    (h : name ++ [0] <+: s.bootfile.toList) :
    (lastGiven bootfileOf options).getD name ++ [0] <+: (options.foldl apply s).bootfile.toList := by
  rw [← foldl_lastGiven]
  induction options generalizing s name with
  | nil => exact h
  | cons o options ih =>
    refine ih (o.apply s) ?_
    simp only [apply]
    cases hgiven : o.bootfileOf with
    | none => simpa only [Option.map_none, Option.getD_none] using h
    | some given =>
      simp only [Option.map_some, Option.getD_some]
      exact prefix_putAt (length_of_bootfileOf hgiven)

/-- The name in the `file` field is copied up to its NUL. -/
theorem copyName_eq (cs : List UInt8) (n : ℕ) (b : Vector UInt8 128) (h : n + cs.length < 128) :
    copyName cs n b = .ok (putAt b n (cString cs ++ [0])) := by
  induction cs generalizing n b with
  | nil => exact store_ok h
  | cons c cs ih =>
    rw [List.length_cons] at h
    rw [copyName, cString, List.takeWhile_cons]
    by_cases hc : c = 0
    · simp [hc, store_ok (show n < 128 by omega)]
    · have hput := putAt_putAt b n [c] (cString cs ++ [0])
      rw [List.length_singleton] at hput
      rw [if_neg hc, if_pos (decide_eq_true hc), store_ok (by omega), ok_then, ih (n + 1) _ (by omega), hput]
      rfl

/-! ### The response -/

/-- An OFFER or ACK in its frame. -/
structure Reply where
  macs : Vector UInt8 12
  ip : IpHeader
  udp : Vector UInt8 8
  head : Vector UInt8 4
  xid : UInt32
  secs : Vector UInt8 8
  yiaddr : Vector UInt8 4
  siaddr : Vector UInt8 4
  giaddr : Vector UInt8 4
  mac : Vector UInt8 6
  padding : Vector UInt8 10
  sname : Vector UInt8 64
  file : Vector UInt8 128
  items : List Item
  offers : lastGiven messageOf (optionsOf items) = some 2 ∨ lastGiven messageOf (optionsOf items) = some 5

namespace Reply

/-- The fields behind the `file` field. -/
def tail (r : Reply) : List UInt8 := [0x63, 0x82, 0x53, 0x63] ++ area r.items

/-- The fields from the hardware address on. -/
def rest (r : Reply) : List UInt8 :=
  r.mac.toList ++ (r.padding.toList ++ (r.sname.toList ++ (r.file.toList.take 127 ++
    (r.file.toList.drop 127 ++ r.tail))))

/-- The BOOTP message. -/
def message (r : Reply) : List UInt8 :=
  r.head.toList ++ (toBE 4 r.xid.toNat ++ (r.secs.toList ++ (r.yiaddr.toList ++ (r.siaddr.toList ++
    (r.giaddr.toList ++ r.rest)))))

def bytes (r : Reply) : List UInt8 := ipFrame r.macs r.ip (r.udp.toList ++ r.message)

/-- The name in the `file` field. -/
def fileName (r : Reply) : List UInt8 := cString (r.file.toList.take 127)

end Reply

/-- The configuration is the one that the options of the reply stand for. -/
structure Reads (r : Reply) (c : DhcpConfig) : Prop where
  yiaddr : c.yiaddr = r.yiaddr
  subnet : c.subnet = (lastGiven (addressOf 1) (optionsOf r.items)).getD (Vector.replicate 4 255)
  gateway : c.gateway = (lastGiven (addressOf 3) (optionsOf r.items)).getD (Vector.replicate 4 0)
  dns : c.dns = (lastGiven (addressOf 6) (optionsOf r.items)).getD (Vector.replicate 4 0)
  nextServer : c.nextServer = (lastGiven serverOf (optionsOf r.items)).getD r.siaddr
  bootfile : (lastGiven bootfileOf (optionsOf r.items)).getD r.fileName ++ [0] <+: c.bootfile.toList

theorem copyFromSlice_toList {n : ℕ} (v : Vector UInt8 n) : copyFromSlice n v.toList = .ok v := by
  rw [copyFromSlice, dif_pos v.length_toList]
  rfl

/-- What the walk starts with. -/
def Reply.start (r : Reply) : Options where
  msgType := 0
  subnet := Vector.replicate 4 255
  gateway := Vector.replicate 4 0
  dns := Vector.replicate 4 0
  nextServer := r.siaddr
  bootfile := putAt (Vector.replicate 128 0) 0 (r.fileName ++ [0])

/-- What it ends with. -/
def Reply.settings (r : Reply) : Options := (optionsOf r.items).foldl apply r.start

theorem length_fileName (r : Reply) : r.fileName.length < 128 := by
  have hle := (List.takeWhile_prefix (p := (· ≠ 0)) (l := r.file.toList.take 127)).length_le
  rw [List.length_take, Vector.length_toList] at hle
  exact hle.trans_lt (by norm_num)

theorem msgType_settings (r : Reply) : ¬ (r.settings.msgType ≠ 2 ∧ r.settings.msgType ≠ 5) := by
  have htype := foldl_msgType (optionsOf r.items) r.start
  rintro ⟨h2, h5⟩
  rcases r.offers with h | h
  · exact h2 (by rw [Reply.settings, htype, h, Option.getD_some])
  · exact h5 (by rw [Reply.settings, htype, h, Option.getD_some])

/-- The settings are those the options stand for. -/
theorem settings_reads (r : Reply) :
    Reads r ⟨r.yiaddr, r.settings.subnet, r.settings.gateway, r.settings.dns, r.settings.nextServer,
      r.settings.bootfile⟩ where
  yiaddr := rfl
  subnet := foldl_subnet _ _
  gateway := foldl_gateway _ _
  dns := foldl_dns _ _
  nextServer := foldl_nextServer _ _
  bootfile := foldl_bootfile _ _ (prefix_putAt (length_fileName r))

/-- What the parser finds in the BOOTP message. -/
structure HasMessage (f : Frame) (off : ℕ) (r : Reply) : Prop where
  xid : f.number (off + 4) 4 = .ok r.xid.toNat
  yiaddr : f.bytesAt (off + 16) 4 = .ok r.yiaddr.toList
  siaddr : f.bytesAt (off + 20) 4 = .ok r.siaddr.toList
  mac : f.expect (off + 28) r.mac.toList = .ok ()
  file : f.range (off + 108) (off + 235) = .ok (r.file.toList.take 127)
  magic : f.expect (off + 236) [0x63, 0x82, 0x53, 0x63] = .ok ()
  options : f.Has (off + 240) (area r.items)

theorem hasMessage {f : Frame} {off : ℕ} {r : Reply} (h : f.Has off r.message) : HasMessage f off r := by
  have h1 := h.right
  have h2 := h1.right
  have h3 := h2.right
  have h4 := h3.right
  have h5 := h4.right
  have h6 : f.Has _ r.rest := h5.right
  have h7 := h6.right
  have h8 := h7.right
  have h9 := h8.right
  have h10 := h9.right
  have h11 : f.Has _ r.tail := h10.right
  have h12 : f.Has _ (area r.items) := h11.right
  have hfile := h9.left.range
  simp only [Vector.length_toList, length_toBE, List.length_take, List.length_drop, List.length_cons, List.length_nil,
    Nat.reduceAdd, Nat.reduceLeDiff, inf_of_le_left, Nat.reduceSub, Nat.add_assoc]
    at h1 h2 h3 h4 h5 h6 h7 h8 h9 h10 h11 h12 hfile
  have hyi := h3.left.bytesAt
  have hsi := h4.left.bytesAt
  rw [Vector.length_toList] at hyi hsi
  exact ⟨h1.left.number (r.xid.toNat_lt), hyi, hsi, h6.left.expect, hfile, h11.left.expect, h12⟩

theorem length_bytes (r : Reply) :
    r.bytes.length = 14 + (r.ip.first &&& 0x0F).toNat * 4 + 8 + 240 + (area r.items).length := by
  rw [Reply.bytes, length_ipFrame]
  simp [Reply.message, Reply.rest, Reply.tail]
  omega

/-- What `parse_response` makes of the settings behind the walk. -/
def configOf (yiaddr : Vector UInt8 4) (o : Options) : Scan DhcpConfig := do
  rejectIf (o.msgType ≠ 2 ∧ o.msgType ≠ 5)
  .ok ⟨yiaddr, o.subnet, o.gateway, o.dns, o.nextServer, o.bootfile⟩

/-- A reply is read up to its options. -/
theorem parseResponse_walk {r : Reply} {f : Frame} (h : f.Has 0 r.bytes) : ∃ off, f.Has off (area r.items) ∧
    off + (area r.items).length = r.bytes.length ∧
      parseResponse f r.xid r.mac = walk f off r.start >>= configOf r.yiaddr := by
  have hframe := hasDatagram h
  have hlen := length_bytes r
  have hle := h.le
  rw [Nat.zero_add] at hle
  have hmin := hframe.min
  have hmessage : f.Has _ r.message := hframe.datagram.right
  rw [Vector.length_toList] at hmessage
  have hm := hasMessage hmessage
  have hname := copyName_eq (r.file.toList.take 127) 0 (Vector.replicate 128 0) (by simp)
  refine ⟨_, hm.options, hlen.symm, ?_⟩
  rw [parseResponse, rejectIf_then (by omega), hframe.type, ok_then, hframe.ihl, ok_then]
  dsimp only
  rw [rejectIf_then (by omega), hframe.protocol, ok_then, minus, if_pos (by omega), ok_then, rejectIf_then (by omega),
    rejectIf_then (by omega), hm.magic, ok_then, hm.xid, ok_then, rejectIf_then (by simp), hm.mac, ok_then, hm.yiaddr,
    ok_then, copyFromSlice_toList, ok_then, hm.siaddr, ok_then, copyFromSlice_toList, ok_then, hm.file, ok_then, hname,
    ok_then]
  rfl

/-- **The options of a reply are read as they are written** when the walk does not lose its step. -/
theorem parseResponse_reads (r : Reply) (f : Frame) (h : f.Has 0 r.bytes)
    (hstep : InStep (f.len - r.bytes.length) r.items) :
    ∃ c, parseResponse f r.xid r.mac = .ok c ∧ Reads r c := by
  obtain ⟨off, hoptions, hlen, hparse⟩ := parseResponse_walk h
  have hle := h.le
  refine ⟨_, ?_, settings_reads r⟩
  rw [hparse, walk_eq r.items hstep off r.start hoptions (by omega), ok_then]
  exact rejectIf_then (msgType_settings r)

/-- The option that makes a reply an OFFER. -/
def offer : DhcpOption where
  type := 53
  value := [2]
  notPad := by decide
  notEnd := by decide
  fits := by decide
  mask := by decide
  addresses := by decide
  message := by decide
  text := by decide

/-- An OFFER with nothing else set. -/
def Reply.plain (items : List Item) (offers : lastGiven messageOf (optionsOf items) = some 2) : Reply where
  macs := Vector.replicate 12 0
  ip := IpHeader.short
  udp := Vector.replicate 8 0
  head := Vector.replicate 4 0
  xid := 0
  secs := Vector.replicate 8 0
  yiaddr := Vector.replicate 4 0
  siaddr := Vector.replicate 4 0
  giaddr := Vector.replicate 4 0
  mac := Vector.replicate 6 0
  padding := Vector.replicate 10 0
  sname := Vector.replicate 64 0
  file := Vector.replicate 128 0
  items := items
  offers := .inl offers

theorem offer_with_two_pads : ∃ c,
    parseResponse (Frame.whole (Reply.plain [.pad, .pad, .option offer] rfl).bytes) 0 (Vector.replicate 6 0) = .ok c ∧
      Reads (Reply.plain [.pad, .pad, .option offer] rfl) c :=
  parseResponse_reads (Reply.plain [.pad, .pad, .option offer] rfl) _ (has_whole _) trivial

/-- With one pad in front of its message type, an OFFER is rejected. -/
theorem offer_behind_pad_rejected :
    parseResponse (Frame.whole (Reply.plain [.pad, .option offer] rfl).bytes) 0 (Vector.replicate 6 0) =
        .error .rejected ∧
      ¬ ∃ c,
        parseResponse (Frame.whole (Reply.plain [.pad, .option offer] rfl).bytes) 0 (Vector.replicate 6 0) = .ok c ∧
          Reads (Reply.plain [.pad, .option offer] rfl) c := by
  obtain ⟨off, hoptions, hlen, hparse⟩ := parseResponse_walk (has_whole (Reply.plain [.pad, .option offer] rfl).bytes)
  have harea : (area [.pad, .option offer]).length = 5 := rfl
  have htype : offer.type.toNat = 53 := rfl
  have hframe : (Frame.whole (Reply.plain [.pad, .option offer] rfl).bytes).len = off + 5 := by
    rw [← harea]
    exact hlen.symm
  have hrejected : parseResponse (Frame.whole (Reply.plain [.pad, .option offer] rfl).bytes) 0 (Vector.replicate 6 0) =
      .error .rejected := by
    refine hparse.trans ?_
    rw [walk_pad _ hoptions (by omega)]
    rfl
  refine ⟨hrejected, ?_⟩
  rintro ⟨c, hc, -⟩
  rw [hrejected] at hc
  cases hc

end Rustrapper.Net.Dhcp

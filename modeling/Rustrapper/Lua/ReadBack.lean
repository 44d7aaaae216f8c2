/-
# What unpack reads of packed values

`string.unpack`, with the format of a `string.pack` and the string it made,
returns the values that were packed, as far as each field keeps its value
(`unpack_packed`): the position of `string.pack` only grows, so what a field has
written stays, and `string.unpack` comes by at the same positions. A string
that is interned leaves the bytes of the others as they are.
-/
import Rustrapper.Store.Bump
import Rustrapper.Lua.PackSize
import Rustrapper.Lua.RoundTrip
import Rustrapper.Lua.UnpackSafe

namespace Rustrapper
namespace Lua

open Codec

/-! ### Strings that stay -/

/-- A reference the arena has. -/
def Heap.Has (h : Heap) (r : StrRef) : Prop := (h.strregs.find? fun reg => strref reg.1 reg.2.length = r).isSome

/-- The strings of a heap are there in the other, with their bytes. -/
def Heap.Keeps (h h' : Heap) : Prop := ∀ q, h.Has q → h'.Has q ∧ h'.strBytes q = h.strBytes q

theorem Heap.Keeps.refl (h : Heap) : h.Keeps h := fun _ hq => ⟨hq, rfl⟩

theorem Heap.Keeps.trans {h h' h'' : Heap} (hk : h.Keeps h') (hk' : h'.Keeps h'') : h.Keeps h'' := fun q hq =>
  ⟨(hk' q (hk q hq).1).1, (hk' q (hk q hq).1).2.trans (hk q hq).2⟩

/-- Storing a string keeps the others, and has a reference for it. -/
theorem Heap.Has.intern {h h' : Heap} {b : List UInt8} {r : StrRef} (hi : h.intern b = .ok (r, h')) :
    h'.Has r ∧ h.Keeps h' := by
  unfold Heap.intern at hi
  cases hf : h.strregs.find? fun reg => reg.2 = b with
  | some reg =>
    rw [hf] at hi
    cases hi
    refine ⟨?_, .refl h⟩
    exact List.find?_isSome.mpr ⟨reg, List.mem_of_find?_eq_some hf, decide_eq_true rfl⟩
  | none =>
    rw [hf] at hi
    dsimp only at hi
    split_ifs at hi
    cases hi
    refine ⟨?_, fun q hq => ?_⟩
    · exact List.find?_isSome.mpr ⟨(h.strNext, b), by simp, decide_eq_true rfl⟩
    · unfold Heap.Has at hq
      have hsame : (h.strregs ++ [(h.strNext, b)]).find? (fun reg => strref reg.1 reg.2.length = q) =
          h.strregs.find? fun reg => strref reg.1 reg.2.length = q := by
        rw [List.find?_append]
        exact Option.or_of_isSome hq
      unfold Heap.Has Heap.strBytes
      dsimp only
      rw [hsame]
      exact ⟨hq, rfl⟩

namespace Pack

/-! ### Writes at growing positions -/

/-- A field writes something. -/
theorem encode_ne_nil (h : Heap) (little : Bool) (f : Field) (v : Value) : encode h little f v ≠ .ok [] := by
  cases f <;> simp only [encode] <;> split <;> simp

section Written
variable {bits : ℕ} {l bs : List UInt8} {off n : ℕ}

theorem take_writeAt (hn : n ≤ off) (hoff : off ≤ l.length) : (writeAt l off bs).take n = l.take n := by
  rw [writeAt, List.append_assoc, List.take_append_of_le_length (by rw [List.length_take]; omega), List.take_take,
    min_eq_left hn]

theorem slice_writeAt (hoff : off ≤ l.length) : slice (writeAt l off bs) off bs.length = bs := by
  have hlen : (l.take off).length = off := by rw [List.length_take]; omega
  rw [writeAt, slice, List.append_assoc, List.drop_left' hlen, List.take_left']
  rfl

/-- What stands in front of a position stands in front of an earlier one. -/
theorem take_of_take {l l' : List UInt8} (hn : n ≤ off) (h : l'.take off = l.take off) : l'.take n = l.take n := by
  have := congrArg (List.take n) h
  rwa [List.take_take, List.take_take, min_eq_left hn] at this

/-- Bytes in front of a position are those of every buffer that is the same there. -/
theorem slice_of_take {l l' : List UInt8} {pos : ℕ} (hn : pos + n ≤ off) (h : l'.take off = l.take off) :
    slice l' pos n = slice l pos n := by
  have hcut (m : List UInt8) : slice m pos n = (m.take (pos + n)).drop pos := by
    rw [slice, List.drop_take, Nat.add_sub_cancel_left]
  rw [hcut, hcut, take_of_take hn h]

/-- Some bytes were written at a position. -/
structure Written (out : List UInt8) (pos : ℕ) (bs : List UInt8) (at_ : List UInt8 × ℕ) : Prop where
  next : at_.2 = pos + bs.length
  room : pos + bs.length ≤ out.length
  size : at_.1.length = out.length
  kept : at_.1.take pos = out.take pos
  here : slice at_.1 pos bs.length = bs

theorem written_put {out : List UInt8} {pos : ℕ} {at_ : List UInt8 × ℕ} (h : put bits bs (out, pos) = .ok at_) :
    Written out pos bs at_ := by
  unfold put at h
  split_ifs at h with hcheck hroom
  cases h
  have hfit : pos + bs.length ≤ out.length := not_lt.mp hroom
  have hpos : pos ≤ out.length := by omega
  exact ⟨rfl, hfit, length_writeAt hfit, take_writeAt le_rfl hpos, slice_writeAt hpos⟩

theorem Written.append {out bs' : List UInt8} {pos : ℕ} {a b : List UInt8 × ℕ} (h : Written out pos bs a)
    (h' : Written a.1 a.2 bs' b) : Written out pos (bs ++ bs') b := by
  have hpos := h.next
  have hle : pos ≤ a.2 := by omega
  refine ⟨?_, ?_, h'.size.trans h.size, (take_of_take hle h'.kept).trans h.kept, ?_⟩
  · rw [h'.next, h.next, List.length_append, Nat.add_assoc]
  · have hroom := h'.room
    rw [List.length_append]
    rw [h.size] at hroom
    omega
  · have hfirst : slice b.1 pos bs.length = bs := (slice_of_take (by omega) h'.kept).trans h.here
    have hsecond := h'.here
    rw [hpos] at hsecond
    rw [slice] at hfirst hsecond ⊢
    rw [List.length_append, List.take_add, hfirst, List.drop_drop, hsecond]

/-- One write after the other is one write. -/
theorem written_putAll {out : List UInt8} : ∀ {chunks : List (List UInt8)} {bs : List UInt8} {pos : ℕ}
    {at_ : List UInt8 × ℕ}, putAll bits (bs :: chunks) (out, pos) = .ok at_ →
      Written out pos (bs :: chunks).flatten at_ := by
  intro chunks
  induction chunks generalizing out with
  | nil =>
    intro bs pos at_ h
    rw [putAll] at h
    cases hput : put bits bs (out, pos) with
    | error e =>
      rw [hput] at h
      cases h
    | ok a =>
      rw [hput] at h
      cases h
      simpa using written_put hput
  | cons c chunks ih =>
    intro bs pos at_ h
    rw [putAll] at h
    cases hput : put bits bs (out, pos) with
    | error e =>
      rw [hput] at h
      cases h
    | ok a =>
      rw [hput] at h
      rw [List.flatten_cons]
      exact (written_put hput).append (ih h)

end Written

/-! ### Positions -/

section Positions
variable {bits pos alignMax : ℕ}

/-- Aligning moves on, by less than the alignment. -/
theorem alignPos_bounds (size : ℕ) (h : pos + alignMax < 2 ^ bits) :
    pos ≤ alignPos bits pos size alignMax ∧ alignPos bits pos size alignMax ≤ pos + alignMax := by
  unfold alignPos
  dsimp only
  split_ifs with h1 h2
  · omega
  · omega
  · have hle : min size alignMax ≤ alignMax := min_le_right ..
    have hsplit := Store.Bump.toNat_and_not_add (BitVec.ofNat bits (pos + (min size alignMax - 1)))
      (BitVec.ofNat bits (min size alignMax - 1))
    have hmask : (BitVec.ofNat bits (pos + (min size alignMax - 1)) &&&
        BitVec.ofNat bits (min size alignMax - 1)).toNat ≤ min size alignMax - 1 := by
      rw [BitVec.toNat_and, BitVec.toNat_ofNat, BitVec.toNat_ofNat]
      exact Nat.and_le_right.trans (Nat.mod_le _ _)
    rw [BitVec.toNat_ofNat, Nat.mod_eq_of_lt (by omega)] at hsplit
    omega

/-- The packing has gone on: the bytes in front of the old position are there. -/
structure Grows (p q : Packing) : Prop where
  pos : p.pos ≤ q.pos
  out : q.out.length = p.out.length
  kept : q.out.take p.pos = p.out.take p.pos

theorem Grows.refl (p : Packing) : Grows p p := ⟨le_rfl, rfl, rfl⟩

theorem Grows.trans {p q r : Packing} (h : Grows p q) (h' : Grows q r) : Grows p r :=
  ⟨h.pos.trans h'.pos, h'.out.trans h.out, (take_of_take h.pos h'.kept).trans h.kept⟩

/-- A field that was packed: what it writes, and where. -/
theorem packStep_field {h : Heap} {f : Field} {p q : Packing} (hstep : packStep bits h (.field f) p = .ok q) :
    ∃ v vals chunks, p.vals = v :: vals ∧ encode h p.little f v = .ok chunks ∧
      Written p.out (alignPos bits p.pos f.alignment p.alignMax) chunks.flatten (q.out, q.pos) ∧
      q.little = p.little ∧ q.alignMax = p.alignMax ∧ q.vals = vals := by
  rw [packStep] at hstep
  cases hvals : p.vals with
  | nil =>
    rw [hvals] at hstep
    cases hstep
  | cons v vals =>
    rw [hvals] at hstep
    dsimp only at hstep
    cases henc : encode h p.little f v with
    | error e =>
      rw [henc] at hstep
      cases hstep
    | ok chunks =>
      rw [henc] at hstep
      change (putAll bits chunks (p.out, alignPos bits p.pos f.alignment p.alignMax) >>= _) = _ at hstep
      cases hput : putAll bits chunks (p.out, alignPos bits p.pos f.alignment p.alignMax) with
      | error e =>
        rw [hput] at hstep
        cases hstep
      | ok at_ =>
        rw [hput] at hstep
        cases hstep
        refine ⟨v, vals, chunks, rfl, henc, ?_, rfl, rfl, rfl⟩
        cases chunks with
        | nil => exact absurd henc (encode_ne_nil h p.little f v)
        | cons c chunks => exact written_putAll hput

/-- **One option only writes behind the position.** -/
theorem packStep_grows {h : Heap} {o : Opt} {p q : Packing} (hfit : p.pos + p.alignMax < 2 ^ bits)
    (hstep : packStep bits h o p = .ok q) :
    Grows p q ∧ max q.pos p.out.length ≤ max p.pos p.out.length + p.alignMax ∧
      (q.alignMax = p.alignMax ∨ o = .maxAlign q.alignMax) := by
  cases o with
  | endian little =>
    cases hstep
    exact ⟨⟨le_rfl, rfl, rfl⟩, Nat.le_add_right .., .inl rfl⟩
  | maxAlign n =>
    cases hstep
    exact ⟨⟨le_rfl, rfl, rfl⟩, Nat.le_add_right .., .inr rfl⟩
  | space =>
    cases hstep
    exact ⟨.refl p, Nat.le_add_right .., .inl rfl⟩
  | pad =>
    rw [packStep] at hstep
    split_ifs at hstep with hroom
    cases hstep
    rw [not_le] at hroom
    refine ⟨⟨Nat.le_succ _, length_writeAt hroom, take_writeAt le_rfl hroom.le⟩, ?_, .inl rfl⟩
    dsimp only
    omega
  | align n =>
    cases hstep
    obtain ⟨hle, hge⟩ := alignPos_bounds n hfit
    refine ⟨⟨hle, rfl, rfl⟩, ?_, .inl rfl⟩
    dsimp only
    omega
  | field f =>
    obtain ⟨v, vals, chunks, -, -, hw, -, halign, -⟩ := packStep_field hstep
    obtain ⟨hle, -⟩ := alignPos_bounds f.alignment hfit
    have hpos := hw.next
    have hroom := hw.room
    dsimp only at hpos
    refine ⟨⟨by omega, hw.size, take_of_take hle hw.kept⟩, ?_, .inl halign⟩
    omega

/-- No option asks for more than this alignment. -/
def AlignsWithin (a : ℕ) (os : List (Except String Opt)) : Prop := ∀ n, .ok (.maxAlign n) ∈ os → n ≤ a

/-- What the loop relies on in front of its options: every alignment is within `a`, and no position wraps. -/
structure Within (bits a : ℕ) (os : List (Except String Opt)) (p : Packing) : Prop where
  aligns : AlignsWithin a os
  align : p.alignMax ≤ a
  fits : max p.pos p.out.length + a * os.length < 2 ^ bits

/-- One option leaves the loop what it relies on. -/
theorem Within.step {h : Heap} {a : ℕ} {o : Opt} {os : List (Except String Opt)} {p q : Packing}
    (hp : Within bits a (.ok o :: os) p) (hstep : packStep bits h o p = .ok q) : Grows p q ∧ Within bits a os q := by
  have halign := hp.align
  have hfits := hp.fits
  rw [List.length_cons, Nat.mul_succ] at hfits
  obtain ⟨hg, hmax, hnext⟩ := packStep_grows (by omega) hstep
  refine ⟨hg, fun n hn => hp.aligns n (List.mem_cons_of_mem _ hn), ?_, ?_⟩
  · rcases hnext with hnext | rfl
    · exact hnext.trans_le halign
    · exact hp.aligns _ (List.mem_cons_self ..)
  · rw [hg.out]
    omega

/-- **The loop only writes behind the position.** -/
theorem packLoop_grows {h : Heap} {a : ℕ} : ∀ {os : List (Except String Opt)} {p q : Packing},
    Within bits a os p → packLoop bits h os p = .ok q → Grows p q
  | [], p, q, _, hpack => by
    cases hpack
    exact .refl p
  | .error m :: os, p, q, _, hpack => by cases hpack
  | .ok o :: os, p, q, hp, hpack => by
    rw [packLoop] at hpack
    cases hstep : packStep bits h o p with
    | error e =>
      rw [hstep] at hpack
      cases hpack
    | ok p' =>
      rw [hstep] at hpack
      obtain ⟨hg, hp'⟩ := hp.step hstep
      exact hg.trans (packLoop_grows hp' hpack)

end Positions

/-! ### Fields -/

/-- The field represents the value. -/
def Suits (h : Heap) : Field → Value → Prop
  | .int size signed, v => ∀ n, wholeOf v = some n → InRange signed size n
  | .zstr, .str r => 0 ∉ h.strBytes r
  | .sized size, .str r => (h.strBytes r).length < 256 ^ size
  | _, _ => True

/-- What a field keeps of a value: of a float its bits, of a string the bytes that fit. -/
def kept (h : Heap) : Field → Value → Option Item
  | .int _ _, v => (wholeOf v).map .int
  | .single, v => (floatOf v).map fun x => .float (Float32.ofBits x.toFloat32.toBits).toFloat
  | .double, v => (floatOf v).map fun x => .float (Float.ofBits x.toBits)
  | .chars n, .str r => some (.str (padded n (h.strBytes r)))
  | .zstr, .str r => some (.str (h.strBytes r))
  | .sized _, .str r => some (.str (h.strBytes r))
  | _, _ => none

/-- An integer has a byte at least. -/
def Opt.Sized : Opt → Prop
  | .field (.int size _) => 1 ≤ size
  | _ => True

theorem readOption_sized {bits : ℕ} {op : UInt8} {rest : List UInt8}
    {p : { p : Opt × List UInt8 // p.2.length ≤ rest.length }} (h : readOption bits op rest = .ok p) :
    p.1.1.Sized := by
  unfold readOption at h
  dsimp only at h
  split at h <;> try split at h
  all_goals try split at h
  all_goals cases h
  all_goals simp only [Opt.Sized]
  all_goals omega

theorem options_sized {bits : ℕ} (fmt : List UInt8) : ∀ o, .ok o ∈ options bits fmt → o.Sized := by
  induction fmt using options.induct bits with
  | case1 =>
    intro o ho
    rw [options] at ho
    cases ho
  | case2 op rest m hread =>
    intro o ho
    rw [options, hread] at ho
    simp at ho
  | case3 op rest p hread ih =>
    intro o ho
    rw [options, hread] at ho
    rcases List.mem_cons.mp ho with ho | ho
    · cases ho
      exact readOption_sized hread
    · exact ih o ho

theorem length_options_le {bits : ℕ} (fmt : List UInt8) : (options bits fmt).length ≤ fmt.length := by
  induction fmt using options.induct bits with
  | case1 => simp [options]
  | case2 op rest m hread => simp [options, hread]
  | case3 op rest p hread ih =>
    have hp := p.2
    rw [options, hread, List.length_cons, List.length_cons]
    omega

section Reading
variable {bits : ℕ} {src : List UInt8}

theorem span_slice {pos n : ℕ} (hsmall : src.length < 2 ^ bits) (hroom : pos + n ≤ src.length) :
    span bits src pos n = .ok (slice src pos n) := by
  rw [span, Nat.mod_eq_of_lt (by omega), if_neg (by omega), if_neg (by omega)]

/-- The bytes of a front part, and those behind it. -/
theorem slice_split {pos : ℕ} {as bs : List UInt8} (h : slice src pos (as ++ bs).length = as ++ bs) :
    slice src pos as.length = as ∧ slice src (pos + as.length) bs.length = bs := by
  rw [slice, List.length_append, List.take_add, List.drop_drop] at h
  have hlen : ((src.drop pos).take as.length).length = as.length := by
    have := congrArg List.length h
    rw [List.length_append, List.length_append] at this
    have h1 : ((src.drop pos).take as.length).length ≤ as.length := List.length_take_le ..
    have h2 : ((src.drop (pos + as.length)).take bs.length).length ≤ bs.length := List.length_take_le ..
    omega
  exact List.append_inj h hlen

theorem toNat_ofNat_length {n : ℕ} (h : n < 2 ^ 64) : (Int64.ofNat n).toUInt64.toNat = n := by
  change (UInt64.ofNat n).toNat = n
  rw [UInt64.toNat_ofNat']
  exact Nat.mod_eq_of_lt h

/-- **A field is read as it was written.** -/
theorem decode_encode {h : Heap} {little : Bool} {f : Field} {v : Value} {chunks : List (List UInt8)} {pos : ℕ}
    (henc : encode h little f v = .ok chunks) (hsuit : Suits h f v) (hsized : (Opt.field f).Sized)
    (hsmall : src.length < 2 ^ bits) (hcap : src.length ≤ PACK_CAP) (hroom : pos + chunks.flatten.length ≤ src.length)
    (hsrc : slice src pos chunks.flatten.length = chunks.flatten) :
    ∃ item, kept h f v = some item ∧ decode bits src little f pos = .ok (item, pos + chunks.flatten.length) := by
  cases f with
  | int size signed =>
    simp only [encode] at henc
    cases hv : wholeOf v with
    | none => simp [hv] at henc
    | some n =>
      simp only [hv, Except.ok.injEq] at henc
      subst henc
      rw [List.flatten_singleton, length_intBytes] at hroom hsrc ⊢
      refine ⟨.int n, by rw [kept, hv]; rfl, ?_⟩
      rw [decode, span_slice hsmall hroom, hsrc]
      change Except.ok _ = _
      rw [readInt_intBytes little hsized (hsuit n hv)]
  | single =>
    simp only [encode] at henc
    cases hv : floatOf v with
    | none => simp [hv] at henc
    | some x =>
      simp only [hv, Except.ok.injEq] at henc
      subst henc
      rw [List.flatten_singleton, length_ordered, length_toLE] at hroom hsrc ⊢
      refine ⟨_, by rw [kept, hv]; rfl, ?_⟩
      rw [decode, span_slice hsmall hroom, hsrc]
      change Except.ok _ = _
      rw [ordered_ordered, ofLE_toLE, Nat.mod_eq_of_lt (x.toFloat32.toBits.toNat_lt.trans_eq (by norm_num)),
        UInt32.ofNat_toNat]
  | double =>
    simp only [encode] at henc
    cases hv : floatOf v with
    | none => simp [hv] at henc
    | some x =>
      simp only [hv, Except.ok.injEq] at henc
      subst henc
      rw [List.flatten_singleton, length_ordered, length_toLE] at hroom hsrc ⊢
      refine ⟨_, by rw [kept, hv]; rfl, ?_⟩
      rw [decode, span_slice hsmall hroom, hsrc]
      change Except.ok _ = _
      rw [ordered_ordered, ofLE_toLE, Nat.mod_eq_of_lt (x.toBits.toNat_lt.trans_eq (by norm_num)), UInt64.ofNat_toNat]
  | chars n =>
    cases v <;> simp only [encode, Except.ok.injEq, reduceCtorEq] at henc
    rename_i r
    subst henc
    have hlen : (padded n (h.strBytes r)).length = n := by
      rw [padded, List.length_append, List.length_take, List.length_replicate]
      omega
    rw [List.flatten_singleton, hlen] at hroom hsrc ⊢
    refine ⟨_, rfl, ?_⟩
    rw [decode, span_slice hsmall hroom, hsrc]
    rfl
  | zstr =>
    cases v <;> simp only [encode, Except.ok.injEq, reduceCtorEq] at henc
    rename_i r
    subst henc
    rw [List.flatten_singleton] at hroom hsrc ⊢
    refine ⟨_, rfl, ?_⟩
    -- the bytes up to the zero, whatever is behind it
    have hdrop : src.drop pos = h.strBytes r ++ 0 :: (src.drop pos).drop (h.strBytes r ++ [0]).length := by
      have := List.take_append_drop (h.strBytes r ++ [0]).length (src.drop pos)
      rw [show (src.drop pos).take _ = h.strBytes r ++ [0] from hsrc, List.append_assoc] at this
      exact this.symm
    have htake : (src.drop pos).takeWhile (· ≠ 0) = h.strBytes r := by
      rw [hdrop, List.takeWhile_append_of_pos]
      · simp
      · intro b hb
        refine decide_eq_true fun h0 => hsuit ?_
        rwa [← h0]
    rw [List.length_append, List.length_singleton] at hroom ⊢
    rw [decode, if_neg (by omega)]
    dsimp only
    rw [htake, if_pos (by omega)]
    rfl
  | sized size =>
    cases v <;> simp only [encode, Except.ok.injEq, reduceCtorEq] at henc
    rename_i r
    subst henc
    have hflat : [intBytes little size (Int64.ofNat (h.strBytes r).length), h.strBytes r].flatten =
        intBytes little size (Int64.ofNat (h.strBytes r).length) ++ h.strBytes r := by simp
    rw [hflat] at hroom hsrc ⊢
    obtain ⟨h1, h2⟩ := slice_split hsrc
    rw [length_intBytes] at h1 h2
    rw [List.length_append, length_intBytes] at hroom ⊢
    have hcap' : PACK_CAP < 2 ^ 64 := by decide
    have hlen : (h.strBytes r).length < 256 ^ min size 8 := by
      rcases Nat.le_total size 8 with hle | hle
      · rw [min_eq_left hle]
        exact hsuit
      · rw [min_eq_right hle]
        exact (show (h.strBytes r).length < 2 ^ 64 by omega).trans_eq (by norm_num)
    refine ⟨_, rfl, ?_⟩
    rw [decode, span_slice hsmall (by omega), h1]
    change (span bits src (pos + size) (orBytes (ordered little (intBytes little size _)) 0 % 2 ^ bits) >>= _) = _
    rw [intBytes, ordered_ordered, orBytes_toLE (Int64.ofNat _).toUInt64.toNat_lt, toNat_ofNat_length (by omega),
      Nat.mod_eq_of_lt hlen, Nat.mod_eq_of_lt (by omega), span_slice hsmall (by omega), h2, ← Nat.add_assoc]
    rfl

/-- The fields of a format. -/
def fieldsOf : List (Except String Opt) → List Field
  | [] => []
  | .ok (.field f) :: os => f :: fieldsOf os
  | _ :: os => fieldsOf os

/-- Push values that were read. -/
def emitAll : List Item → LuaM Unit
  | [] => pure ()
  | item :: items => do
    emit item
    emitAll items

/-- What a field keeps of the value it was given. -/
def Kept (h : Heap) (p : Field × Value) (item : Item) : Prop := kept h p.1 p.2 = some item

/-- Where `string.unpack` stands when `string.pack` stands there. -/
def Packing.reading (p : Packing) : Unpacking := ⟨p.pos, p.little, p.alignMax⟩

/-- `string.unpack` follows one option of `string.pack`: nothing is read where no value was taken, and otherwise what
the field keeps of the value. -/
inductive Follows (bits : ℕ) (h : Heap) (src : List UInt8) (p p' : Packing) : Opt → Prop where
  | plain {o : Opt} (hfields : ∀ os, fieldsOf (.ok o :: os) = fieldsOf os) (hvals : p'.vals = p.vals)
      (hread : unpackStep bits src o p.reading = .ok (none, p'.reading)) : Follows bits h src p p' o
  | field {f : Field} {v : Value} {item : Item} (hvals : p.vals = v :: p'.vals) (hkept : Kept h (f, v) item)
      (hread : unpackStep bits src (.field f) p.reading = .ok (some item, p'.reading)) :
      Follows bits h src p p' (.field f)

/-- The bytes that a field has written are still there at the end. -/
theorem slice_kept {p q : Packing} {pos n : ℕ} (hsrc : src = q.out.take q.pos) (hgrow : Grows p q)
    (hn : pos + n ≤ p.pos) : slice src pos n = slice p.out pos n := by
  have htake : src.take q.pos = q.out.take q.pos := by rw [hsrc, List.take_take, min_self]
  rw [slice_of_take (hn.trans hgrow.pos) htake, slice_of_take hn hgrow.kept]

/-- **One option is read at the position it was written at.** -/
theorem follows_packStep {h : Heap} {o : Opt} {p p' q : Packing} (hq : q.pos ≤ q.out.length)
    (hsrc : src = q.out.take q.pos) (hsmall : src.length < 2 ^ bits) (hcap : src.length ≤ PACK_CAP)
    (hsized : o.Sized) (hsuit : ∀ f v vals, o = .field f → p.vals = v :: vals → Suits h f v)
    (hstep : packStep bits h o p = .ok p') (hgrow : Grows p' q) : Follows bits h src p p' o := by
  have hlen : src.length = q.pos := by
    rw [hsrc, List.length_take]
    exact min_eq_left hq
  have hpos := hgrow.pos
  cases o with
  | endian little =>
    cases hstep
    exact .plain (fun _ => rfl) rfl rfl
  | maxAlign n =>
    cases hstep
    exact .plain (fun _ => rfl) rfl rfl
  | space =>
    cases hstep
    exact .plain (fun _ => rfl) rfl rfl
  | align n =>
    cases hstep
    exact .plain (fun _ => rfl) rfl rfl
  | pad =>
    rw [packStep] at hstep
    split_ifs at hstep with hroom
    cases hstep
    have hin : p.pos + 1 ≤ q.pos := hpos
    have hread : ¬ p.reading.pos ≥ src.length := by
      change ¬ p.pos ≥ src.length
      omega
    refine .plain (fun _ => rfl) rfl ?_
    rw [unpackStep, if_neg hread]
    rfl
  | field f =>
    obtain ⟨v, vals, chunks, hvals, henc, hw, hlittle, halign, hrest⟩ := packStep_field hstep
    have hnext : p'.pos = _ := hw.next
    have hhere : slice src (alignPos bits p.pos f.alignment p.alignMax) chunks.flatten.length = chunks.flatten :=
      (slice_kept hsrc hgrow hnext.ge).trans hw.here
    obtain ⟨item, hitem, hread⟩ := decode_encode henc (hsuit f v vals rfl hvals) hsized hsmall hcap (by omega) hhere
    refine .field (hrest ▸ hvals) hitem ?_
    rw [unpackStep, Packing.reading]
    dsimp only
    rw [hread, ← hnext, Packing.reading, hlittle, halign]
    rfl

/-- **The options of a format are read at the positions they were written at.** -/
theorem unpackLoop_packed {h : Heap} {a : ℕ} {q : Packing} (hq : q.pos ≤ q.out.length)
    (hsrc : src = q.out.take q.pos) (hsmall : src.length < 2 ^ bits) (hcap : src.length ≤ PACK_CAP) :
    ∀ {os : List (Except String Opt)} {p : Packing}, Within bits a os p → (∀ o, .ok o ∈ os → o.Sized) →
      (∀ e ∈ (fieldsOf os).zip p.vals, Suits h e.1 e.2) → packLoop bits h os p = .ok q →
      (fieldsOf os).length ≤ p.vals.length ∧ ∃ items, List.Forall₂ (Kept h) ((fieldsOf os).zip p.vals) items ∧
        ∀ n, unpackLoop bits src os p.reading n = emitAll items >>= fun _ => pure (q.pos, n + items.length)
  | [], p, _, _, _, hpack => by
    cases hpack
    exact ⟨Nat.zero_le _, [], .nil, fun n => rfl⟩
  | .error m :: os, p, _, _, _, hpack => by cases hpack
  | .ok o :: os, p, hp, hsized, hsuit, hpack => by
    have hsized' : ∀ o, .ok o ∈ os → o.Sized := fun o ho => hsized o (List.mem_cons_of_mem _ ho)
    rw [packLoop] at hpack
    cases hstep : packStep bits h o p with
    | error e =>
      rw [hstep] at hpack
      cases hpack
    | ok p' =>
      rw [hstep] at hpack
      obtain ⟨-, hp'⟩ := hp.step hstep
      have hfollows : Follows bits h src p p' o := by
        refine follows_packStep hq hsrc hsmall hcap (hsized o (List.mem_cons_self ..)) ?_ hstep
          (packLoop_grows hp' hpack)
        rintro f v vals rfl hvals
        refine hsuit (f, v) ?_
        rw [hvals]
        exact List.mem_cons_self ..
      cases hfollows with
      | plain hfields hvals hread =>
        rw [hfields, ← hvals] at hsuit ⊢
        obtain ⟨hlen, items, hkept, hloop⟩ := unpackLoop_packed hq hsrc hsmall hcap hp' hsized' hsuit hpack
        refine ⟨hlen, items, hkept, fun n => ?_⟩
        rw [unpackLoop, hread]
        exact hloop n
      | @field f v item hvals hkeep hread =>
        have hfields : fieldsOf (.ok (.field f) :: os) = f :: fieldsOf os := rfl
        rw [hfields, hvals, List.zip_cons_cons] at hsuit ⊢
        obtain ⟨hlen, items, hkept, hloop⟩ := unpackLoop_packed hq hsrc hsmall hcap hp' hsized'
          (fun e he => hsuit e (List.mem_cons_of_mem _ he)) hpack
        refine ⟨Nat.succ_le_succ hlen, item :: items, .cons hkeep hkept, fun n => ?_⟩
        rw [unpackLoop, hread]
        change (emit item >>= fun _ => unpackLoop bits src os p'.reading (n + 1)) = _
        rw [hloop, emitAll, bind_assoc, List.length_cons, Nat.add_right_comm, ← Nat.add_assoc]

end Reading

/-! ### Running -/

/-- What a run says that has no room for a value or for a string. -/
def NoRoom (m : String) : Prop := m = "stack overflow" ∨ m = "too many strings" ∨ m = "string overflow"

/-- The value of the machine that stands for what was read. -/
def Item.Is (h : Heap) : Item → Value → Prop
  | .int n, v => v = .num n
  | .float x, v => v = .float x
  | .str b, v => ∃ r, v = .str r ∧ h.Has r ∧ h.strBytes r = b

theorem Item.Is.keep {h h' : Heap} (hkeep : h.Keeps h') {item : Item} {v : Value} (hi : item.Is h v) :
    item.Is h' v := by
  cases item with
  | int n => exact hi
  | float x => exact hi
  | str b =>
    obtain ⟨r, rfl, hr, rfl⟩ := hi
    exact ⟨r, rfl, hkeep r hr⟩

theorem noRoom_of_intern {h : Heap} {b : List UInt8} {m : String} (hi : h.intern b = .error m) : NoRoom m := by
  unfold Heap.intern at hi
  cases hf : h.strregs.find? fun reg => reg.2 = b with
  | some reg =>
    rw [hf] at hi
    cases hi
  | none =>
    rw [hf] at hi
    dsimp only at hi
    split_ifs at hi
    · cases hi
      exact .inr (.inl rfl)
    · cases hi
      exact .inr (.inr rfl)

section Running
variable {R : Rec} {bits : ℕ}

/-- Values were pushed for what was read. -/
structure Pushed (s t : LuaState) (items : List Item) (vs : List Value) : Prop where
  stack : t.vstack = vs.reverse ++ s.vstack
  sound : t.toHeap.Sound
  keeps : s.toHeap.Keeps t.toHeap
  stand : List.Forall₂ (Item.Is t.toHeap) items vs

theorem Pushed.cons {s t u : LuaState} {item : Item} {v : Value} {items : List Item} {vs : List Value}
    (h : Pushed s t [item] [v]) (h' : Pushed t u items vs) : Pushed s u (item :: items) (v :: vs) where
  stack := by simp [h'.stack, h.stack]
  sound := h'.sound
  keeps := h.keeps.trans h'.keeps
  stand := .cons ((List.forall₂_cons.mp h.stand).1.keep h'.keeps) h'.stand

/-- A value is pushed, or there is no room. -/
theorem pushVal_cases (v : Value) (s : LuaState) : R.exec (pushVal v) s = .ok () { s with vstack := v :: s.vstack } ∨
    R.exec (pushVal v) s = .error (.lua (.msg "stack overflow")) s := by
  by_cases hroom : s.vsp < STACK_CAP
  · exact .inl (exec_pushVal R s v hroom)
  · exact .inr (exec_pushVal_full R s v hroom)

/-- One value that was read. -/
theorem emit_cases (item : Item) {s : LuaState} (hs : s.toHeap.Sound) :
    (∃ v t, R.exec (emit item) s = .ok () t ∧ Pushed s t [item] [v]) ∨
      ∃ m t, R.exec (emit item) s = .error (.lua (.msg m)) t ∧ NoRoom m := by
  cases item with
  | int n =>
    rcases pushVal_cases (R := R) (.num n) s with h | h
    · exact .inl ⟨_, _, h, rfl, hs, .refl _, .cons rfl .nil⟩
    · exact .inr ⟨_, _, h, .inl rfl⟩
  | float x =>
    rcases pushVal_cases (R := R) (.float x) s with h | h
    · exact .inl ⟨_, _, h, rfl, hs, .refl _, .cons rfl .nil⟩
    · exact .inr ⟨_, _, h, .inl rfl⟩
  | str b =>
    rw [emit, exec_bind]
    have hintern := exec_intern R s b
    cases hcase : s.toHeap.intern b with
    | error m =>
      rw [hcase] at hintern
      exact .inr ⟨m, s, bind_error hintern _, noRoom_of_intern hcase⟩
    | ok p =>
      obtain ⟨r, h'⟩ := p
      rw [hcase] at hintern
      rw [bind_ok hintern]
      obtain ⟨hsound, hbytes⟩ := hs.intern hcase
      obtain ⟨hhas, hkeeps⟩ := Heap.Has.intern hcase
      rcases pushVal_cases (R := R) (.str r) { s with toHeap := h' } with h | h
      · exact .inl ⟨_, _, h, rfl, hsound, hkeeps, .cons ⟨r, rfl, hhas, hbytes⟩ .nil⟩
      · exact .inr ⟨_, _, h, .inl rfl⟩

/-- **All values that were read** are pushed, or there is no room for one. -/
theorem emitAll_cases : ∀ (items : List Item) {s : LuaState}, s.toHeap.Sound →
    (∃ vs t, R.exec (emitAll items) s = .ok () t ∧ Pushed s t items vs) ∨
      ∃ m t, R.exec (emitAll items) s = .error (.lua (.msg m)) t ∧ NoRoom m
  | [], s, hs => .inl ⟨[], s, rfl, rfl, hs, .refl _, .nil⟩
  | item :: items, s, hs => by
    rw [emitAll, exec_bind]
    rcases emit_cases (R := R) item hs with ⟨v, t, h, hp⟩ | ⟨m, t, h, hm⟩
    · rw [bind_ok h]
      rcases emitAll_cases items hp.sound with ⟨vs, u, h', hp'⟩ | ⟨m, u, h', hm⟩
      · exact .inl ⟨v :: vs, u, h', hp.cons hp'⟩
      · exact .inr ⟨m, u, h', hm⟩
    · rw [bind_error h]
      exact .inr ⟨m, t, rfl, hm⟩

/-- The values a call has pushed are its results, with the position behind them. -/
theorem results_cases {s : LuaState} {vs rest : List Value} (hstack : s.vstack = vs.reverse ++ rest) (pos : ℕ) :
    (∃ w, R.exec (resultsAt pos vs.length >>= resultVals) s = .ok (vs ++ [.num (.ofNat pos)]) w ∧
      w.toHeap = s.toHeap) ∨
      R.exec (resultsAt pos vs.length >>= resultVals) s = .error (.lua (.msg "stack overflow")) s := by
  rw [resultsAt, bind_assoc, exec_bind]
  rcases pushVal_cases (R := R) (.num (.ofNat pos)) s with h | h
  · rw [bind_ok h]
    by_cases htwo : vs.length + 1 = 2
    · obtain ⟨v, rfl⟩ := List.length_eq_one_iff.mp (Nat.succ.inj htwo)
      have hone : s.vstack = v :: rest := hstack
      rw [if_pos htwo, bind_assoc, exec_bind, bind_ok (exec_pop R _ rfl), bind_assoc, exec_bind,
        bind_ok (exec_pop R _ hone)]
      exact .inl ⟨_, rfl, rfl⟩
    · rw [if_neg htwo]
      have hvals : ((Value.num (.ofNat pos) :: s.vstack).take (vs.length + 1)).reverse =
          vs ++ [.num (.ofNat pos)] := by
        rw [hstack, List.take_succ_cons, List.take_left' List.length_reverse, List.reverse_cons, List.reverse_reverse]
      have htop := exec_topVals R { s with vstack := Value.num (.ofNat pos) :: s.vstack } (vs.length + 1)
        (by rw [Machine.vsp, List.length_cons, hstack, List.length_append, List.length_reverse]; omega)
      dsimp only at htop
      rw [hvals] at htop
      exact .inl ⟨_, htop, rfl⟩
  · rw [bind_error h]
    exact .inr rfl

/-- What a call of `string.unpack` gives for fields and the values they were packed from: the values as far as the
fields keep them and the next position, or the error that there is no room for them. -/
inductive GivesBack (h : Heap) (ps : List (Field × Value)) (next : ℕ) :
    EStateM.Result Stop LuaState (List Value) → Prop where
  | values {items : List Item} {vs : List Value} {w : LuaState} (hkept : List.Forall₂ (Kept h) ps items)
      (hstand : List.Forall₂ (Item.Is w.toHeap) items vs) : GivesBack h ps next (.ok (vs ++ [.num (.ofNat next)]) w)
  | noRoom {m : String} {w : LuaState} (hm : NoRoom m) : GivesBack h ps next (.error (.lua (.msg m)) w)

variable {s t : LuaState} {f : StrRef} {vals : List Value} {x : ExecResult}

/-- A format that packs is no longer than the arena. -/
theorem length_of_packed (h : R.exec (stringPack bits (.str f :: vals)) s = .ok x t) :
    (s.strBytes f).length ≤ STR_CAP := by
  rw [stringPack, exec_bind, exec_get, bind_ok (getMachine_apply s)] at h
  dsimp only at h
  by_cases hlong : (s.strBytes f).length > STR_CAP
  · rw [if_pos hlong] at h
    cases h
  · exact not_lt.mp hlong

/-- A call with a format whose loop only pushes what it has read. -/
theorem unpackAt_emits {fmt src : List UInt8} {items : List Item} {pos : ℕ} (hfmt : fmt.length ≤ STR_CAP)
    (hpos : pos + 1 < 2 ^ bits) (hread : unpackLoop bits src (options bits fmt) ⟨0, true, 1⟩ 0 =
      emitAll items >>= fun _ => pure (pos, 0 + items.length)) :
    unpackAt bits fmt src 0 = emitAll items >>= fun _ => resultsAt (pos + 1) items.length := by
  rw [unpackAt, if_neg (Nat.not_lt_zero _), if_neg (not_lt.mpr hfmt), hread, bind_assoc]
  refine congrArg (emitAll items >>= ·) (funext fun _ => ?_)
  rw [pure_bind, Nat.zero_add]
  change resultsAt ((pos + 1) % 2 ^ bits) items.length = _
  rw [Nat.mod_eq_of_lt hpos]

/-- A call whose format and string are those of such a loop. -/
theorem exec_unpack_emits {u : LuaState} {f r : StrRef} {items : List Item} {pos : ℕ}
    (hfmt : (u.strBytes f).length ≤ STR_CAP) (hsrc : (u.strBytes r).length ≤ PACK_CAP) (hpos : pos + 1 < 2 ^ bits)
    (hread : unpackLoop bits (u.strBytes r) (options bits (u.strBytes f)) ⟨0, true, 1⟩ 0 =
      emitAll items >>= fun _ => pure (pos, 0 + items.length)) :
    R.exec (stringUnpack bits [.str f, .str r] >>= resultVals) u =
      R.exec (emitAll items >>= fun _ => resultsAt (pos + 1) items.length >>= resultVals) u := by
  have htwo : ¬ ([Value.str f, .str r].length < 2 ∨ [Value.str f, .str r].length > 3) := by
    simp only [List.length_cons, List.length_nil]
    omega
  rw [stringUnpack, if_neg htwo, bind_assoc, exec_bind, exec_get, bind_ok (getMachine_apply u), if_neg (by omega),
    startPos, pure_bind, unpackAt_emits hfmt hpos hread, bind_assoc]

/-- What was read comes back as the results. -/
theorem givesBack_emits {h : Heap} {ps : List (Field × Value)} {items : List Item} {next : ℕ} {u : LuaState}
    (hu : u.toHeap.Sound) (hkept : List.Forall₂ (Kept h) ps items) :
    GivesBack h ps next (R.exec (emitAll items >>= fun _ => resultsAt next items.length >>= resultVals) u) := by
  rw [exec_bind]
  rcases emitAll_cases (R := R) items hu with ⟨vs, v, hemit, hp⟩ | ⟨m, v, hemit, hm⟩
  · rw [bind_ok hemit, hp.stand.length_eq]
    rcases results_cases (R := R) hp.stack next with ⟨w, hres, hheap⟩ | hres
    · rw [hres]
      refine .values hkept ?_
      rw [hheap]
      exact hp.stand
    · rw [hres]
      exact .noRoom (.inl rfl)
  · rw [bind_error hemit]
    exact .noRoom hm

/-- **Unpacking what was packed**: where the fields represent their values and no option asks for an alignment beyond
the buffer, `string.unpack`, with the format of a `string.pack` and the string it made, gives back the values that
were packed. -/
theorem unpack_packed (hbits : bits = 32 ∨ bits = 64) (hs : s.toHeap.Sound)
    (hpack : R.exec (stringPack bits (.str f :: vals)) s = .ok x t)
    (halign : AlignsWithin PACK_CAP (options bits (s.strBytes f)))
    (hsuit : ∀ p ∈ (fieldsOf (options bits (s.strBytes f))).zip vals, Suits s.toHeap p.1 p.2) :
    ∃ r, x = .ret (.str r) ∧ (fieldsOf (options bits (s.strBytes f))).length ≤ vals.length ∧
      ∀ (u : LuaState) (f' r' : StrRef), u.toHeap.Sound → u.strBytes f' = s.strBytes f →
        u.strBytes r' = t.strBytes r →
        GivesBack s.toHeap ((fieldsOf (options bits (s.strBytes f))).zip vals) ((t.strBytes r).length + 1)
          (R.exec (stringUnpack bits [.str f', .str r'] >>= resultVals) u) := by
  have hfmt := length_of_packed hpack
  obtain ⟨q, r, hloop, hle, hintern, rfl⟩ := exec_stringPack hpack
  have hcap : PACK_CAP + PACK_CAP * STR_CAP < 2 ^ bits := by rcases hbits with rfl | rfl <;> decide
  have hwithin : Within bits PACK_CAP (options bits (s.strBytes f)) ⟨List.replicate PACK_CAP 0, 0, true, 1, vals⟩ := by
    refine ⟨halign, show 1 ≤ PACK_CAP by decide, ?_⟩
    dsimp only
    rw [List.length_replicate, Nat.zero_max]
    have := Nat.mul_le_mul_left PACK_CAP ((@length_options_le bits (s.strBytes f)).trans hfmt)
    exact lt_of_le_of_lt (Nat.add_le_add_left this _) hcap
  have hgrow := packLoop_grows hwithin hloop
  have hout : q.out.length = PACK_CAP := hgrow.out.trans List.length_replicate
  have hbytes : t.strBytes r = q.out.take q.pos := (hs.intern hintern).2
  have hlen : (q.out.take q.pos).length = q.pos := by
    rw [List.length_take, hout]
    exact min_eq_left hle
  have hsmall : q.pos + 1 < 2 ^ bits := by
    have : PACK_CAP + 1 ≤ PACK_CAP + PACK_CAP * STR_CAP := by decide
    omega
  obtain ⟨hfields, items, hkept, hread⟩ := unpackLoop_packed (hle.trans_eq hout.symm) rfl (by omega) (by omega) hwithin
    (options_sized _) hsuit hloop
  refine ⟨r, rfl, hfields, fun u f' r' hu hf' hr' => ?_⟩
  rw [hbytes] at hr' ⊢
  rw [hlen]
  rw [← hf'] at hread hfmt
  rw [← hr'] at hread hlen
  rw [exec_unpack_emits hfmt (hlen.trans_le hle) hsmall (hread 0)]
  exact givesBack_emits hu hkept

end Running

/-- A state with the format `hz` in the arena. -/
def holdsPair : LuaState := { strregs := [(0, bytesOf "hz")], strNext := 2 }

/-- The same state with the number 7 and the format itself, packed, behind the format. -/
def holdsPackedPair : LuaState := { strregs := [(0, bytesOf "hz"), (2, [7, 0, 104, 122, 0])], strNext := 7 }

theorem unpack_packed_pair : GivesBack holdsPair.toHeap
    [(.int 2 true, .num 7), (.zstr, .str (strref 0 2))] 6
    (Rec.stuck.exec (stringUnpack 64 [.str (strref 0 2), .str (strref 2 5)] >>= resultVals) holdsPackedPair) := by
  have hbytes : holdsPair.strBytes (strref 0 2) = [104, 122] := by decide +kernel
  have hread : readOption 64 104 [122] = .ok ⟨(.field (.int 2 true), [122]), le_rfl⟩ := rfl
  have hread' : readOption 64 122 [] = .ok ⟨(.field .zstr, []), le_rfl⟩ := rfl
  have hopts : options 64 [104, 122] = [.ok (.field (.int 2 true)), .ok (.field .zstr)] := by
    rw [options, hread]
    dsimp only
    rw [options, hread']
    dsimp only
    rw [options]
  have hsound : holdsPair.toHeap.Sound := by
    have hfirst : Heap.intern {} (bytesOf "hz") = .ok (strref 0 2, holdsPair.toHeap) := by rfl
    exact ((Heap.sound_empty rfl rfl).intern hfirst).1
  have hintern : holdsPair.toHeap.intern [7, 0, 104, 122, 0] = .ok (strref 2 5, holdsPackedPair.toHeap) := by rfl
  have hput : ∀ (out bs : List UInt8) (pos : ℕ), out.length = PACK_CAP → pos + bs.length ≤ 5 →
      putAll 64 [bs] (out, pos) = .ok (writeAt out pos bs, pos + bs.length) := by
    intro out bs pos hout hle
    have hcap : 5 ≤ PACK_CAP := by decide
    rw [putAll, put, hout, Nat.mod_eq_of_lt (by omega), if_neg (by omega), if_neg (by omega)]
    rfl
  have hpacked : ∀ out : List UInt8, out.length = PACK_CAP →
      packLoop 64 holdsPair.toHeap [.ok (.field (.int 2 true)), .ok (.field .zstr)]
        ⟨out, 0, true, 1, [.num 7, .str (strref 0 2)]⟩ =
        .ok ⟨writeAt (writeAt out 0 [7, 0]) 2 [104, 122, 0], 5, true, 1, []⟩ := by
    intro out hout
    have hstep : packStep 64 holdsPair.toHeap (.field (.int 2 true))
        ⟨out, 0, true, 1, [.num 7, .str (strref 0 2)]⟩ =
          putAll 64 [[7, 0]] (out, 0) >>= fun at_ => .ok ⟨at_.1, at_.2, true, 1, [.str (strref 0 2)]⟩ := rfl
    have hstep' (out : List UInt8) : packStep 64 holdsPair.toHeap (.field .zstr)
        ⟨out, 2, true, 1, [.str (strref 0 2)]⟩ =
          putAll 64 [holdsPair.strBytes (strref 0 2) ++ [0]] (out, 2) >>= fun at_ =>
            .ok ⟨at_.1, at_.2, true, 1, []⟩ := rfl
    rw [packLoop, hstep, hput out _ 0 hout (by decide)]
    change packLoop 64 holdsPair.toHeap [.ok (.field .zstr)] ⟨writeAt out 0 [7, 0], 2, true, 1, _⟩ = _
    have hcap : 0 + [(7 : UInt8), 0].length ≤ out.length := by
      rw [hout]
      decide
    rw [packLoop, hstep', hbytes, hput _ _ 2 ((length_writeAt hcap).trans hout) (by decide)]
    rfl
  have hpack : Rec.stuck.exec (stringPack 64 [.str (strref 0 2), .num 7, .str (strref 0 2)]) holdsPair =
      .ok (.ret (.str (strref 2 5))) holdsPackedPair := by
    have hout := hpacked _ (List.length_replicate (a := (0 : UInt8)) (n := PACK_CAP))
    rw [stringPack, exec_bind, exec_get, bind_ok (getMachine_apply holdsPair)]
    dsimp only
    rw [hbytes, if_neg (by decide), hopts, hout]
    change Rec.stuck.exec (intern [7, 0, 104, 122, 0] >>= fun r => pure (ExecResult.ret (.str r))) holdsPair = _
    rfl
  have hsuit : ∀ p ∈ (fieldsOf (options 64 (holdsPair.strBytes (strref 0 2)))).zip
      [Value.num 7, .str (strref 0 2)], Suits holdsPair.toHeap p.1 p.2 := by
    rw [hbytes, hopts]
    intro p hp
    rcases List.mem_cons.mp hp with rfl | hp
    · rintro n hn
      cases hn
      exact .inr (by decide)
    · cases List.mem_singleton.mp hp
      change 0 ∉ holdsPair.strBytes (strref 0 2)
      rw [hbytes]
      decide
  have halign : AlignsWithin PACK_CAP (options 64 (holdsPair.strBytes (strref 0 2))) := by
    rw [hbytes, hopts]
    intro n hn
    simp at hn
  obtain ⟨r, hr, -, hgives⟩ := unpack_packed (.inr rfl) hsound hpack halign hsuit
  cases hr
  have hpair := hgives holdsPackedPair (strref 0 2) (strref 2 5) (hsound.intern hintern).1 rfl rfl
  have hlen : (holdsPackedPair.strBytes (strref 2 5)).length = 5 := by decide +kernel
  rw [hbytes, hopts, hlen] at hpair
  exact hpair

end Pack
end Lua
end Rustrapper

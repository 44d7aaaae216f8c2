/-
# string.packsize

`string.packsize` goes over a format as `string.pack` does and keeps the
position only. Where both have a result, it is the length of what `string.pack`
writes (`packsize_predicts_pack`).
-/
import Rustrapper.Lua.Numbers
import Rustrapper.Lua.Pack

namespace Rustrapper
namespace Lua
namespace Pack

open Codec

/-- The bytes of a field, when all its values have the same number. -/
def Field.size : Field → Option ℕ
  | .int size _ => some size
  | .single => some 4
  | .double => some 8
  | .chars n => some n
  | .zstr => none
  | .sized _ => none

/-- One option: the size and the alignment behind it. -/
def sizeStep (bits : ℕ) (o : Opt) (size alignMax : ℕ) : Except Exc (ℕ × ℕ) :=
  match o with
  | .endian _ => .ok (size, alignMax)
  | .maxAlign n => .ok (size, n)
  | .space => .ok (size, alignMax)
  | .pad => .ok ((size + 1) % 2 ^ bits, alignMax)
  | .align n => .ok (alignPos bits size n alignMax, alignMax)
  | .field f =>
    match f.size with
    | none => .error (msg "variable-length format")
    | some n => .ok ((alignPos bits size f.alignment alignMax + n) % 2 ^ bits, alignMax)

/-- The loop of `string.packsize`; the letters `z` and `s` end it before their number is read. -/
def sizeLoop (bits : ℕ) : List UInt8 → ℕ → ℕ → Except Exc ℕ
  | [], size, _ => .ok size
  | op :: rest, size, alignMax =>
    if op = 122 ∨ op = 115 then .error (msg "variable-length format")
    else
      match readOption bits op rest with
      | .error m => .error (msg m)
      | .ok p => do
        let (size, alignMax) ← sizeStep bits p.1.1 size alignMax
        sizeLoop bits p.1.2 size alignMax
termination_by fmt => fmt.length
decreasing_by
  have := p.2
  rw [List.length_cons]
  omega

/-- `string.packsize`. -/
def stringPacksize (bits : ℕ) (args : List Value) : LuaM ExecResult := do
  match args with
  | [.str f] =>
    let s ← get
    let fmt := s.strBytes f
    if fmt.length > STR_CAP then err "format string too long"
    else
      let size ← ofExcept (sizeLoop bits fmt 0 1)
      pure (.ret (.num (.ofNat size)))
  | [_] => err "string.packsize expects a string format"
  | _ => err "string.packsize expects 1 argument"

/-! ### One option -/

section
variable {bits : ℕ} {h : Heap}

theorem put_eq_ok {bs : List UInt8} {at_ at' : List UInt8 × ℕ} (hput : put bits bs at_ = .ok at') :
    at'.2 = at_.2 + bs.length ∧ at'.2 ≤ at_.1.length ∧ at'.1.length = at_.1.length := by
  unfold put at hput
  split_ifs at hput with hcheck hfit
  cases hput
  rw [not_lt] at hfit
  exact ⟨rfl, hfit, length_writeAt hfit⟩

/-- A field of a fixed size is written at once. -/
theorem encode_eq_ok {little : Bool} {f : Field} {v : Value} {n : ℕ} {chunks : List (List UInt8)}
    (hsize : f.size = some n) (henc : encode h little f v = .ok chunks) : ∃ bs, chunks = [bs] ∧ bs.length = n := by
  have hordered : ∀ bs : List UInt8, (ordered little bs).length = bs.length := by
    cases little <;> simp [ordered]
  cases f with
  | int size signed =>
    cases hsize
    simp only [encode] at henc
    cases hv : wholeOf v with
    | none => simp [hv] at henc
    | some m =>
      simp only [hv, Except.ok.injEq] at henc
      exact ⟨_, henc.symm, by rw [intBytes, hordered, length_toLE]⟩
  | single =>
    cases hsize
    simp only [encode] at henc
    cases hv : floatOf v with
    | none => simp [hv] at henc
    | some x =>
      simp only [hv, Except.ok.injEq] at henc
      exact ⟨_, henc.symm, by rw [hordered, length_toLE]⟩
  | double =>
    cases hsize
    simp only [encode] at henc
    cases hv : floatOf v with
    | none => simp [hv] at henc
    | some x =>
      simp only [hv, Except.ok.injEq] at henc
      exact ⟨_, henc.symm, by rw [hordered, length_toLE]⟩
  | chars m =>
    injection hsize with hsize
    subst hsize
    have hlen : ∀ bs : List UInt8, (padded m bs).length = m := by
      intro bs
      rw [padded, List.length_append, List.length_take, List.length_replicate]
      omega
    cases v <;> simp only [encode, Except.ok.injEq, reduceCtorEq] at henc
    exact ⟨_, henc.symm, hlen _⟩
  | zstr => cases hsize
  | sized size => cases hsize

/-- **One option moves both positions alike.** -/
theorem packStep_size {o : Opt} {p q : Packing} {t : ℕ × ℕ} (hbits : PACK_CAP < 2 ^ bits)
    (hout : p.out.length = PACK_CAP) (hpack : packStep bits h o p = .ok q)
    (hsize : sizeStep bits o p.pos p.alignMax = .ok t) : t = (q.pos, q.alignMax) ∧ q.out.length = PACK_CAP := by
  cases o with
  | endian little =>
    cases hpack
    cases hsize
    exact ⟨rfl, hout⟩
  | maxAlign n =>
    cases hpack
    cases hsize
    exact ⟨rfl, hout⟩
  | space =>
    cases hpack
    cases hsize
    exact ⟨rfl, hout⟩
  | pad =>
    rw [packStep] at hpack
    split_ifs at hpack with hroom
    cases hpack
    cases hsize
    rw [not_le, hout] at hroom
    have hlen : (writeAt p.out p.pos [0]).length = p.out.length := length_writeAt (by rw [hout]; exact hroom)
    exact ⟨by rw [Nat.mod_eq_of_lt (by omega)], hlen.trans hout⟩
  | align n =>
    cases hpack
    cases hsize
    exact ⟨rfl, hout⟩
  | field f =>
    rw [packStep] at hpack
    rw [sizeStep] at hsize
    cases hn : f.size with
    | none =>
      rw [hn] at hsize
      cases hsize
    | some n =>
      rw [hn] at hsize
      cases hsize
      cases hvals : p.vals with
      | nil =>
        rw [hvals] at hpack
        cases hpack
      | cons v vals =>
        rw [hvals] at hpack
        dsimp only at hpack
        cases henc : encode h p.little f v with
        | error e =>
          rw [henc] at hpack
          cases hpack
        | ok chunks =>
          obtain ⟨bs, rfl, hlen⟩ := encode_eq_ok hn henc
          rw [henc] at hpack
          change (putAll bits [bs] (p.out, alignPos bits p.pos f.alignment p.alignMax) >>= _) = _ at hpack
          cases hput : put bits bs (p.out, alignPos bits p.pos f.alignment p.alignMax) with
          | error e =>
            rw [putAll, hput] at hpack
            cases hpack
          | ok at_ =>
            rw [putAll, hput] at hpack
            cases hpack
            obtain ⟨hpos, hle, hkeep⟩ := put_eq_ok hput
            dsimp only at hpos hle hkeep ⊢
            rw [hout] at hle hkeep
            rw [← hlen, ← hpos, Nat.mod_eq_of_lt (by omega)]
            exact ⟨rfl, hkeep⟩

/-- **Where both loops have a result**, it is the same position. -/
theorem sizeLoop_eq {fmt : List UInt8} {p q : Packing} {n : ℕ} (hbits : PACK_CAP < 2 ^ bits)
    (hout : p.out.length = PACK_CAP) (hpack : packLoop bits h (options bits fmt) p = .ok q)
    (hsize : sizeLoop bits fmt p.pos p.alignMax = .ok n) : n = q.pos ∧ q.out.length = PACK_CAP := by
  generalize hpos : p.pos = pos at hsize
  generalize halign : p.alignMax = alignMax at hsize
  induction fmt, pos, alignMax using sizeLoop.induct bits generalizing p with
  | case1 pos alignMax =>
    rw [options] at hpack
    rw [sizeLoop] at hsize
    cases hpack
    cases hsize
    exact ⟨hpos.symm, hout⟩
  | case2 op rest pos alignMax hop =>
    rw [sizeLoop, if_pos hop] at hsize
    cases hsize
  | case3 op rest pos alignMax hop m hread =>
    rw [sizeLoop, if_neg hop, hread] at hsize
    cases hsize
  | case4 op rest pos alignMax hop o hread ih =>
    rw [options, hread] at hpack
    rw [sizeLoop, if_neg hop, hread] at hsize
    dsimp only at hpack hsize
    rw [packLoop] at hpack
    cases hstep : packStep bits h o.1.1 p with
    | error e =>
      rw [hstep] at hpack
      cases hpack
    | ok p' =>
      cases hsizeStep : sizeStep bits o.1.1 pos alignMax with
      | error e =>
        rw [hsizeStep] at hsize
        cases hsize
      | ok t =>
        rw [hstep] at hpack
        rw [hsizeStep] at hsize
        rw [← hpos, ← halign] at hsizeStep
        obtain ⟨rfl, hout'⟩ := packStep_size hbits hout hstep hsizeStep
        exact ih _ _ hout' hpack rfl rfl hsize

end

/-! ### The two functions -/

section
variable {R : Rec} {bits : ℕ} {s t : LuaState} {f : StrRef} {vals : List Value} {x : ExecResult}

theorem exec_ofExcept {α : Type} (y : Except Exc α) {a : α} (h : R.exec (ofExcept y) s = .ok a t) :
    y = .ok a ∧ t = s := by
  cases y with
  | error e => cases h
  | ok b =>
    cases h
    exact ⟨rfl, rfl⟩

theorem exec_stringPacksize (h : R.exec (stringPacksize bits [.str f]) s = .ok x t) :
    ∃ n, sizeLoop bits (s.strBytes f) 0 1 = .ok n ∧ x = .ret (.num (.ofNat n)) := by
  rw [stringPacksize, exec_bind, exec_get, bind_ok (getMachine_apply s)] at h
  dsimp only at h
  by_cases hlong : (s.strBytes f).length > STR_CAP
  · rw [if_pos hlong] at h
    cases h
  · rw [if_neg hlong, exec_bind, bind_eq_ok] at h
    obtain ⟨n, t', hsize, hret⟩ := h
    cases hret
    exact ⟨n, (exec_ofExcept _ hsize).1, rfl⟩

theorem exec_stringPack (h : R.exec (stringPack bits (.str f :: vals)) s = .ok x t) : ∃ p r,
    packLoop bits s.toHeap (options bits (s.strBytes f)) ⟨List.replicate PACK_CAP 0, 0, true, 1, vals⟩ = .ok p ∧
      p.pos ≤ PACK_CAP ∧ s.toHeap.intern (p.out.take p.pos) = .ok (r, t.toHeap) ∧ x = .ret (.str r) := by
  rw [stringPack, exec_bind, exec_get, bind_ok (getMachine_apply s)] at h
  dsimp only at h
  by_cases hlong : (s.strBytes f).length > STR_CAP
  · rw [if_pos hlong] at h
    cases h
  rw [if_neg hlong, exec_bind, bind_eq_ok] at h
  obtain ⟨p, t', hpack, h⟩ := h
  obtain ⟨hloop, rfl⟩ := exec_ofExcept _ hpack
  by_cases hpos : p.pos > PACK_CAP
  · rw [if_pos hpos] at h
    cases h
  rw [if_neg hpos, exec_bind, bind_eq_ok] at h
  obtain ⟨r, t'', hintern, hret⟩ := h
  cases hret
  rw [exec_intern] at hintern
  cases hcase : t'.toHeap.intern (p.out.take p.pos) with
  | error m =>
    rw [hcase] at hintern
    cases hintern
  | ok q =>
    rw [hcase] at hintern
    cases hintern
    exact ⟨p, _, hloop, not_lt.mp hpos, hcase, rfl⟩

/-- **`string.packsize` predicts `string.pack`**: where both have a result for a format, the packed string has the
length that the size says, whatever the values are. -/
theorem packsize_predicts_pack (hbits : bits = 32 ∨ bits = 64) (hs : s.toHeap.Sound) {s' t' : LuaState} {f' : StrRef}
    {y : ExecResult} (hfmt : s'.strBytes f' = s.strBytes f)
    (hsize : R.exec (stringPacksize bits [.str f']) s' = .ok y t')
    (hpack : R.exec (stringPack bits (.str f :: vals)) s = .ok x t) :
    ∃ n r, y = .ret (.num n) ∧ x = .ret (.str r) ∧ ((t.strBytes r).length : ℤ) = n.toInt := by
  obtain ⟨n, hloop, rfl⟩ := exec_stringPacksize hsize
  obtain ⟨p, r, hpacked, hle, hintern, rfl⟩ := exec_stringPack hpack
  have hcap : PACK_CAP < 2 ^ bits := by rcases hbits with rfl | rfl <;> decide
  rw [hfmt] at hloop
  obtain ⟨rfl, hout⟩ := sizeLoop_eq hcap List.length_replicate hpacked hloop
  have hlen : (t.strBytes r).length = p.pos := by
    rw [show t.strBytes r = p.out.take p.pos from (hs.intern hintern).2, List.length_take, hout]
    exact min_eq_left hle
  have hsmall : PACK_CAP < 2 ^ 63 := by decide
  refine ⟨_, r, rfl, rfl, ?_⟩
  rw [hlen, Int64.toInt_ofNat_of_lt (hle.trans_lt hsmall)]

end

/-- A state with the format `h` in the arena. -/
def holdsFormat : LuaState := { strregs := [(0, bytesOf "h")], strNext := 1 }

/-- The same state with the packed number 7 behind the format. -/
def holdsPacked : LuaState := { strregs := [(0, bytesOf "h"), (1, [7, 0])], strNext := 3 }

theorem packsize_of_short : ∃ n r, ExecResult.ret (.num 2) = .ret (.num n) ∧
    ExecResult.ret (.str (strref 1 2)) = .ret (.str r) ∧ ((holdsPacked.strBytes r).length : ℤ) = n.toInt := by
  have hbytes : holdsFormat.strBytes (strref 0 1) = [104] := by decide +kernel
  have hread : readOption 64 104 [] = .ok ⟨(.field (.int 2 true), []), le_rfl⟩ := rfl
  have hopts : options 64 [104] = [.ok (.field (.int 2 true))] := by
    rw [options, hread]
    dsimp only
    rw [options]
  have hsound : holdsFormat.toHeap.Sound := by
    have hfirst : Heap.intern {} (bytesOf "h") = .ok (strref 0 1, holdsFormat.toHeap) := by rfl
    exact ((Heap.sound_empty rfl rfl).intern hfirst).1
  have hloop : sizeLoop 64 [104] 0 1 = .ok 2 := by
    rw [sizeLoop, if_neg (by decide), hread]
    change sizeLoop 64 [] 2 1 = _
    rw [sizeLoop]
  have hput : ∀ out : List UInt8, out.length = PACK_CAP →
      putAll 64 [[7, 0]] (out, 0) = .ok (writeAt out 0 [7, 0], 2) := by
    intro out hout
    have hcap : ¬ (0 + [(7 : UInt8), 0].length) % 2 ^ 64 > PACK_CAP := by decide
    have hcap' : ¬ 0 + [(7 : UInt8), 0].length > PACK_CAP := by decide
    rw [putAll, put, hout, if_neg hcap, if_neg hcap']
    rfl
  have hpacked : ∀ out : List UInt8, out.length = PACK_CAP →
      packLoop 64 holdsFormat.toHeap [.ok (.field (.int 2 true))] ⟨out, 0, true, 1, [.num 7]⟩ =
        .ok ⟨writeAt out 0 [7, 0], 2, true, 1, []⟩ := by
    intro out hout
    have hstep : packStep 64 holdsFormat.toHeap (.field (.int 2 true)) ⟨out, 0, true, 1, [.num 7]⟩ =
        putAll 64 [[7, 0]] (out, 0) >>= fun at_ => .ok ⟨at_.1, at_.2, true, 1, []⟩ := rfl
    rw [packLoop, hstep, hput out hout]
    rfl
  have hsize : Rec.stuck.exec (stringPacksize 64 [.str (strref 0 1)]) holdsFormat =
      .ok (.ret (.num 2)) holdsFormat := by
    rw [stringPacksize, exec_bind, exec_get, bind_ok (getMachine_apply holdsFormat)]
    dsimp only
    rw [hbytes, if_neg (by decide), hloop]
    rfl
  have hpack : Rec.stuck.exec (stringPack 64 [.str (strref 0 1), .num 7]) holdsFormat =
      .ok (.ret (.str (strref 1 2))) holdsPacked := by
    have hout := hpacked _ (List.length_replicate (a := (0 : UInt8)) (n := PACK_CAP))
    rw [stringPack, exec_bind, exec_get, bind_ok (getMachine_apply holdsFormat)]
    dsimp only
    rw [hbytes, if_neg (by decide), hopts, hout]
    change Rec.stuck.exec (intern [7, 0] >>= fun r => pure (ExecResult.ret (.str r))) holdsFormat = _
    rfl
  exact packsize_predicts_pack (.inr rfl) hsound rfl hsize hpack

end Pack
end Lua
end Rustrapper

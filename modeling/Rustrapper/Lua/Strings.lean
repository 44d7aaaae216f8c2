/-
# The searches of the string library

`string.find`, `string.match`, `string.gmatch` with the step of its iterator,
and `string.gsub`, as programs of the interpreter. A slice of the subject
checks its ends, as in the source; out of range is a fault.

`usize` has `bits` bits; a start position is cut to it.
-/
import Rustrapper.Lua.Captures
import Rustrapper.Lua.Lists

namespace Rustrapper
namespace Lua
namespace Pattern

/-! ### Arguments -/

/-- `integer_index`. -/
def integerIndex (v : Value) : LuaM Int64 :=
  match wholeOf v with
  | some n => pure n
  | none => err "string index must be an integer"

/-- The start position, counted from 1 or from the end; the first argument left, if there is one. -/
def initArg : List Value → LuaM Int64
  | [] => pure 1
  | v :: _ => integerIndex v

/-- `(start - 1) as usize`. -/
def startOf (bits : ℕ) (init : Int64) (len : ℕ) : ℕ :=
  let start := if init ≥ 0 then init.toInt else len + init.toInt + 1
  (((if start < 1 then 1 else start) - 1) % 2 ^ bits).toNat

/-- `&b[i..j]`. -/
def slice (b : List UInt8) (i j : ℕ) : LuaM (List UInt8) :=
  if i ≤ j ∧ j ≤ b.length then pure ((b.take j).drop i) else fault .index

/-- A slice as a string. -/
def internSlice (b : List UInt8) (span : ℕ × ℕ) : LuaM Value := do
  let bytes ← slice b span.1 span.2
  let r ← intern bytes
  pure (.str r)

/-- Push slices as strings. -/
def pushSlices (b : List UInt8) : List (ℕ × ℕ) → LuaM Unit
  | [] => pure ()
  | span :: spans => do
    let v ← internSlice b span
    pushVal v
    pushSlices b spans

/-- The spans of the values a match yields: the captures, or the whole match. -/
def GmatchMatch.values (m : GmatchMatch) : List (ℕ × ℕ) := if m.caps = [] then [(m.mstart, m.mend)] else m.caps

/-! ### `string.find` -/

/-- The search of `string.find`. -/
def findFrom (subject pattern : List UInt8) (s0 : ℕ) (plain : Bool) : LuaM ExecResult := do
  if s0 > subject.length then pure (.ret .nil)
  else
    match stringFind subject pattern s0 plain with
    | .error f => fault f
    | .ok none => pure (.ret .nil)
    | .ok (some (a, b)) => do
      pushVal (.num (.ofNat a))
      pushVal (.num (.ofNat b))
      pure (.ret2 (.num (.ofNat a)) (.num (.ofNat b)))

/-- The argument `plain`. -/
def plainArg : List Value → Bool
  | [_, v] => truthy v
  | _ => false

/-- `string.find(s, pattern [, init [, plain]])`. -/
def stringFindF (bits : ℕ) : List Value → LuaM ExecResult
  | .str r :: .str p :: more => do
    if more.length > 2 then err "string.find expects 2 to 4 arguments"
    else do
      let s ← get
      let init ← initArg more
      findFrom (s.strBytes r) (s.strBytes p) (startOf bits init (s.strBytes r).length) (plainArg more)
  | args =>
    if args.length < 2 ∨ args.length > 4 then err "string.find expects 2 to 4 arguments"
    else match args with
      | .str _ :: _ => err "string.find expects a string pattern"
      | _ => err "string.find expects a string subject"

/-! ### `string.match` -/

/-- The search of `string.match`. -/
def matchFromPos (subject pattern : List UInt8) (pos : ℕ) : LuaM ExecResult := do
  match gmFind subject pattern pos with
  | none => pure (.ret .nil)
  | some m =>
    match m.values with
    | [a] => do
      let a ← internSlice subject a
      pure (.ret a)
    | [a, b] => do
      let a ← internSlice subject a
      let b ← internSlice subject b
      pure (.ret2 a b)
    | vs => do
      pushSlices subject vs
      pure (.retN vs.length)

/-- `string.match(s, pattern [, init])`. -/
def stringMatchF (bits : ℕ) : List Value → LuaM ExecResult
  | .str r :: .str p :: more => do
    if more.length > 1 then err "string.match expects 2 or 3 arguments"
    else do
      let s ← get
      let init ← initArg more
      if !validGmatchPattern (s.strBytes p) then err "malformed pattern (unfinished capture)"
      else if (s.strBytes r).length > STR_CAP ∨ (s.strBytes p).length > STR_CAP then err "string too long"
      else matchFromPos (s.strBytes r) (s.strBytes p) (startOf bits init (s.strBytes r).length)
  | args =>
    if args.length < 2 ∨ args.length > 3 then err "string.match expects 2 or 3 arguments"
    else match args with
      | .str _ :: _ => err "string.match expects a string pattern"
      | _ => err "string.match expects a string subject"

/-! ### `string.gmatch` -/

def MAX_GMATCH : ℕ := 8

/-- `alloc_gmatch`. -/
def allocGmatch (subject pattern : StrRef) (pos : ℕ) : LuaM ℕ := do
  let s ← get
  if s.gmatches.length ≥ MAX_GMATCH then err "too many gmatch iterators"
  else do
    set { s with gmatches := s.gmatches ++ [GmatchState.mk subject pattern pos false] }
    pure s.gmatches.length

/-- `string.gmatch(s, pattern [, init])`. -/
def stringGmatchF (bits : ℕ) : List Value → LuaM ExecResult
  | .str r :: .str p :: more => do
    if more.length > 1 then err "string.gmatch expects 2 or 3 arguments"
    else do
      let s ← get
      let init ← initArg more
      if !validGmatchPattern (s.strBytes p) then err "malformed pattern (unfinished capture)"
      else do
        let id ← allocGmatch r p (startOf bits init (s.strBytes r).length)
        pure (.ret (.gmatch id))
  | args =>
    if args.length < 2 ∨ args.length > 3 then err "string.gmatch expects 2 or 3 arguments"
    else match args with
      | .str _ :: _ => err "string.gmatch expects a string pattern"
      | _ => err "string.gmatch expects a string subject"

/-- Write an iterator. -/
def setGmatch (id : ℕ) (st : GmatchState) : LuaM Unit := modify fun s => { s with gmatches := s.gmatches.set id st }

/-- The iterator behind a match: an empty match moves it on by one, and at the end of the subject it is done. -/
def behind (st : GmatchState) (m : GmatchMatch) (len : ℕ) : GmatchState :=
  if m.mend > m.mstart then { st with pos := m.mend }
  else if m.mstart + 1 > len then { st with done := true }
  else { st with pos := m.mstart + 1 }

/-- `gmatch_advance`: the number of values pushed, 0 at the end. -/
def gmatchAdvance (id : ℕ) : LuaM ℕ := do
  let s ← get
  let st ← orFault .index s.gmatches[id]?
  if st.done then pure 0
  else
    let subject := s.strBytes st.subject
    let pattern := s.strBytes st.pattern
    if subject.length > STR_CAP ∨ pattern.length > STR_CAP then do
      setGmatch id { st with done := true }
      pure 0
    else
      match gmFind subject pattern st.pos with
      | none => do
        setGmatch id { st with done := true }
        pure 0
      | some m => do
        setGmatch id (behind st m subject.length)
        pushSlices subject m.values
        pure m.values.length

/-! ### `string.gsub` -/

def REPL_CAP : ℕ := 4096

/-- Append to a buffer of `cap` bytes. -/
def appendTo (cap : ℕ) (out b : List UInt8) : LuaM (List UInt8) :=
  if out.length + b.length > cap then err "string.gsub result too long" else pure (out ++ b)

/-- The span `%0` .. `%9` stands for. -/
def capRef (m : GmatchMatch) (d : UInt8) : Option (ℕ × ℕ) :=
  if d = 48 then some (m.mstart, m.mend) else m.caps[d.toNat - 49]?

/-- A replacement string, written for a match. -/
def expandRepl (subject : List UInt8) (m : GmatchMatch) : List UInt8 → List UInt8 → LuaM (List UInt8)
  | [], out => pure out
  | [b], out => if b = 37 then err "invalid capture index" else appendTo REPL_CAP out [b]
  | b :: d :: rest, out =>
    if b = 37 then do
      if d = 37 then do
        let out ← appendTo REPL_CAP out [37]
        expandRepl subject m rest out
      else if !isDigit d then err "invalid capture index"
      else
        match capRef m d with
        | none => err "invalid capture index"
        | some span => do
          let src ← slice subject span.1 span.2
          let out ← appendTo REPL_CAP out src
          expandRepl subject m rest out
    else do
      let out ← appendTo REPL_CAP out [b]
      expandRepl subject m (d :: rest) out

/-- A replacement value: `nil` and `false` keep the match. -/
def replBytes (L : Lib) (v : Value) : LuaM (Option (List UInt8)) :=
  match v with
  | .nil | .bool false => pure none
  | .str _ | .num _ | .float _ => do
    let r ← valueToString L v
    let b ← appendTo REPL_CAP [] ((← get).strBytes r)
    pure (some b)
  | _ => err "invalid replacement value"

/-- The number of values of a result, when it is one a replacement may have. -/
def resultCount : ExecResult → Option ℕ
  | .ret _ => some 1
  | .ret2 _ _ => some 2
  | .retN n => some n
  | .normal => some 0
  | _ => none

/-- A replacement function, called with the captures or the whole match. -/
def callRepl (L : Lib) (subject : List UInt8) (f : Value) (m : GmatchMatch) : LuaM (Option (List UInt8)) := do
  let base := (← get).vsp
  pushSlices subject m.values
  let r ← dispatchMM (callValue f m.values.length)
  match resultCount r with
  | none => err "invalid replacement value"
  | some 0 => pure none
  | some (_ + 1) => do
    let v := (at? (← get).vstack base).getD .nil
    setVsp base
    replBytes L v

/-- What a match is replaced by; nothing keeps it. -/
def replacement (L : Lib) (subject : List UInt8) (repl : Value) (m : GmatchMatch) : LuaM (Option (List UInt8)) :=
  match repl with
  | .str r => do
    let b ← expandRepl subject m ((← get).strBytes r) []
    pure (some b)
  | .table tid => do
    let b ← slice subject (m.values.headD (0, 0)).1 (m.values.headD (0, 0)).2
    let key ← intern b
    let v ← rawGet tid (.str key)
    replBytes L v
  | .func _ | .closure _ => callRepl L subject repl m
  | .num _ | .float _ => replBytes L repl
  | _ => err "invalid replacement value"

/-- The variables of the loop of `string.gsub`. -/
structure Gsub where
  pos : ℕ
  count : ℕ
  out : List UInt8

/-- A match replaced, or kept. -/
def putAnswer (subject : List UInt8) (m : GmatchMatch) (out : List UInt8) : Option (List UInt8) → LuaM (List UInt8)
  | some b => appendTo STR_CAP out b
  | none => do
    let b ← slice subject m.mstart m.mend
    appendTo STR_CAP out b

/-- One match of `string.gsub`. An empty one takes the byte at its place with it. -/
def gsubStep (ask : GmatchMatch → LuaM (Option (List UInt8))) (subject : List UInt8) (g : Gsub) (m : GmatchMatch) :
    LuaM Gsub := do
  let before ← slice subject g.pos m.mstart
  let out ← appendTo STR_CAP g.out before
  let answer ← ask m
  let out ← putAnswer subject m out answer
  let count := if answer.isSome then g.count + 1 else g.count
  if m.mend > m.mstart then pure ⟨m.mend, count, out⟩
  else do
    let out ← appendTo STR_CAP out ((subject.drop m.mstart).take 1)
    pure ⟨m.mstart + 1, count, out⟩

/-- The loop of `string.gsub`. -/
def gsubLoop (ask : GmatchMatch → LuaM (Option (List UInt8))) (subject pattern : List UInt8) (maxN : ℕ) :
    ℕ → Gsub → LuaM Gsub
  | 0, g => pure g
  | fuel + 1, g =>
    if g.count < maxN ∧ g.pos ≤ subject.length then
      match gmFind subject pattern g.pos with
      | none => pure g
      | some m => do
        let g ← gsubStep ask subject g m
        gsubLoop ask subject pattern maxN fuel g
    else pure g

/-- The argument `n`. -/
def limitArg (bits : ℕ) : List Value → LuaM ℕ
  | [] => pure (asUsize bits Int64.maxValue)
  | v :: _ => do
    let n ← toIntegerForFormat v
    pure (if n < 0 then 0 else asUsize bits n)

/-- `string.gsub`, its arguments checked. -/
def gsubAll (ask : GmatchMatch → LuaM (Option (List UInt8))) (subject pattern : List UInt8) (maxN : ℕ) :
    LuaM ExecResult := do
  let g ← gsubLoop ask subject pattern maxN (subject.length + 2) ⟨0, 0, []⟩
  let out ← appendTo STR_CAP g.out (subject.drop g.pos)
  let r ← intern out
  pushVal (.str r)
  pushVal (.num (.ofNat g.count))
  pure (.ret2 (.str r) (.num (.ofNat g.count)))

/-- `string.gsub(s, pattern, repl [, n])`. -/
def stringGsubF (L : Lib) (bits : ℕ) : List Value → LuaM ExecResult
  | .str r :: .str p :: repl :: more => do
    if more.length > 1 then err "string.gsub expects 3 or 4 arguments"
    else do
      let s ← get
      let maxN ← limitArg bits more
      if !validGmatchPattern (s.strBytes p) then err "malformed pattern (unfinished capture)"
      else if (s.strBytes r).length > STR_CAP ∨ (s.strBytes p).length > STR_CAP then err "string too long"
      else gsubAll (replacement L (s.strBytes r) repl) (s.strBytes r) (s.strBytes p) maxN
  | args =>
    if args.length < 3 ∨ args.length > 4 then err "string.gsub expects 3 or 4 arguments"
    else match args with
      | .str _ :: _ => err "string.gsub expects a string pattern"
      | _ => err "string.gsub expects a string subject"

end Pattern
end Lua
end Rustrapper

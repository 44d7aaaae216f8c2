/-
# The lexer

`lex.rs`: a byte list to tokens, one `nextToken` at a time. The state of the
lexer is the rest of the source; a token carries the bytes the source's token
points at (`Name`) or leaves in the lexer's buffer (`Str`). An error leaves
the rest where the source's `pos` stands.
-/
import Rustrapper.Lua.State

namespace Rustrapper
namespace Lua

/-- A lexical token. -/
inductive Tok where
  | eof
  | num (n : Int64)
  | float (f : Float)
  | str (b : List UInt8)
  | name (b : List UInt8)
  | and | or | not | if_ | then_ | elseif | else_ | end_ | while_ | do_ | for_ | in_
  | break_ | repeat_ | until_ | goto | function | local_ | global | return_
  | true_ | false_ | nil
  | plus | minus | star | slash | percent
  | lParen | rParen | lBracket | rBracket | lBrace | rBrace
  | comma | dot | dotDot | semi | colon | colonColon
  | equals | eqEq | neq | lt | le | gt | ge
deriving DecidableEq, Inhabited

/-- What `next_token` yields: the token or the error, and the rest. -/
abbrev LexResult := Except String Tok × List UInt8

def isDigit (c : UInt8) : Bool := 48 ≤ c && c ≤ 57
def isAlpha (c : UInt8) : Bool := (97 ≤ c && c ≤ 122) || (65 ≤ c && c ≤ 90) || c = 95
def isNameByte (c : UInt8) : Bool := isAlpha c || isDigit c
def isBlank (c : UInt8) : Bool := c = 32 || c = 9 || c = 13 || c = 10

/-- Skip whitespace and `--` comments; the flag tells whether a comment is
being skipped. -/
def skipBlank : Bool → List UInt8 → List UInt8
  | _, [] => []
  | true, c :: cs => if c = 10 then skipBlank false cs else skipBlank true cs
  | false, c :: cs =>
    if isBlank c then skipBlank false cs
    else match c, cs with
      | 45, 45 :: cs' => skipBlank true cs'
      | _, _ => c :: cs

/-- The value of a run of decimal digits. -/
def decValue (ds : List UInt8) : ℕ := ds.foldl (fun n d => n * 10 + (d.toNat - 48)) 0

/-- `text.parse::<f64>()` of the literal `ip.fp` with exponent `ep`. -/
def parseF64 (ip fp : List UInt8) (ep : Option (Bool × List UInt8)) : Float :=
  let m := decValue (ip ++ fp)
  let e : ℤ := match ep with
    | none => 0
    | some (neg, ds) => if neg then -(decValue ds : ℤ) else decValue ds
  let e := e - fp.length
  Float.ofScientific m (e < 0) e.natAbs

/-- The exponent of a literal, when `e`/`E`, an optional sign and at least one
digit come next. -/
def lexExponent (cs : List UInt8) : Option ((Bool × List UInt8) × List UInt8) :=
  match cs with
  | c :: cs' =>
    if c = 101 || c = 69 then
      let (neg, ds) := match cs' with
        | 43 :: t => (false, t)
        | 45 :: t => (true, t)
        | t => (false, t)
      match ds with
      | d :: _ => if isDigit d then some ((neg, ds.takeWhile isDigit), ds.dropWhile isDigit) else none
      | [] => none
    else none
  | [] => none

/-- The tail of `lex_number`: the exponent, then the conversion. -/
def lexNumberTail (isFloat : Bool) (ip fp rest : List UInt8) : LexResult :=
  match lexExponent rest with
  | some (ep, rest') => (.ok (.float (parseF64 ip fp (some ep))), rest')
  | none =>
    if isFloat then (.ok (.float (parseF64 ip fp none)), rest)
    else if decValue ip < 2 ^ 63 then (.ok (.num (Int64.ofNat (decValue ip))), rest)
    else (.error "malformed number", rest)

/-- `lex_number`: a `.` is the decimal point unless another one follows. -/
def lexNumber (cs : List UInt8) : LexResult :=
  match cs with
  | 46 :: cs' => lexNumberTail true [] (cs'.takeWhile isDigit) (cs'.dropWhile isDigit)
  | _ =>
    let ip := cs.takeWhile isDigit
    match cs.dropWhile isDigit with
    | 46 :: 46 :: t => lexNumberTail false ip [] (46 :: 46 :: t)
    | 46 :: t => lexNumberTail true ip (t.takeWhile isDigit) (t.dropWhile isDigit)
    | t => lexNumberTail false ip [] t

/-- The reserved words. -/
def keywords : List (List UInt8 × Tok) :=
  [(bytesOf "and", .and), (bytesOf "break", .break_), (bytesOf "or", .or), (bytesOf "not", .not),
   (bytesOf "if", .if_), (bytesOf "then", .then_), (bytesOf "elseif", .elseif),
   (bytesOf "else", .else_), (bytesOf "end", .end_), (bytesOf "while", .while_),
   (bytesOf "do", .do_), (bytesOf "for", .for_), (bytesOf "in", .in_),
   (bytesOf "repeat", .repeat_), (bytesOf "until", .until_), (bytesOf "goto", .goto),
   (bytesOf "function", .function), (bytesOf "local", .local_), (bytesOf "global", .global),
   (bytesOf "return", .return_), (bytesOf "true", .true_), (bytesOf "false", .false_),
   (bytesOf "nil", .nil)]

/-- `lex_name`: a keyword or an identifier, whose length is kept in 16 bits. -/
def lexName (cs : List UInt8) : LexResult :=
  let w := cs.takeWhile isNameByte
  (.ok ((keywords.lookup w).getD (.name (w.take (w.length % 65536)))), cs.dropWhile isNameByte)

/-- The byte an escape stands for. -/
def unescape : UInt8 → Option UInt8
  | 110 => some 10
  | 116 => some 9
  | 114 => some 13
  | 92 => some 92
  | 34 => some 34
  | 39 => some 39
  | 48 => some 0
  | _ => none

/-- The body of `lex_string`, after the opening quote; `acc` is the buffer,
last byte first. A NUL byte ends the string as the end of the source does. -/
def lexStringBody (quote : UInt8) : List UInt8 → List UInt8 → LexResult
  | [], _ => (.error "unterminated string", [])
  | c :: cs, acc =>
    if c = 0 ∨ c = 10 then (.error "unterminated string", cs)
    else if c = quote then (.ok (.str acc.reverse), cs)
    else if c = 92 then
      match cs with
      | [] => (.error "bad escape sequence", [])
      | d :: cs' =>
        match unescape d with
        | none => (.error "bad escape sequence", cs')
        | some x =>
          if acc.length ≥ 256 then (.error "string too long", cs')
          else lexStringBody quote cs' (x :: acc)
    else if acc.length ≥ 256 then (.error "string too long", cs)
    else lexStringBody quote cs (c :: acc)

/-- The symbols and the errors of `next_token`; `cs` is not empty. -/
def lexSymbol : List UInt8 → LexResult
  | 43 :: t => (.ok .plus, t)
  | 45 :: t => (.ok .minus, t)
  | 42 :: t => (.ok .star, t)
  | 47 :: t => (.ok .slash, t)
  | 37 :: t => (.ok .percent, t)
  | 40 :: t => (.ok .lParen, t)
  | 41 :: t => (.ok .rParen, t)
  | 91 :: t => (.ok .lBracket, t)
  | 93 :: t => (.ok .rBracket, t)
  | 123 :: t => (.ok .lBrace, t)
  | 125 :: t => (.ok .rBrace, t)
  | 44 :: t => (.ok .comma, t)
  | 59 :: t => (.ok .semi, t)
  | 46 :: 46 :: t => (.ok .dotDot, t)
  | 46 :: t => (.ok .dot, t)
  | 58 :: 58 :: t => (.ok .colonColon, t)
  | 58 :: t => (.ok .colon, t)
  | 61 :: 61 :: t => (.ok .eqEq, t)
  | 61 :: t => (.ok .equals, t)
  | 126 :: 61 :: t => (.ok .neq, t)
  | 126 :: t => (.error "unexpected character '~'", 126 :: t)
  | 60 :: 61 :: t => (.ok .le, t)
  | 60 :: t => (.ok .lt, t)
  | 62 :: 61 :: t => (.ok .ge, t)
  | 62 :: t => (.ok .gt, t)
  | cs => (.error "unexpected character", cs)

/-- `next_token`. -/
def nextToken (src : List UInt8) : LexResult :=
  match skipBlank false src with
  | [] => (.ok .eof, [])
  | c :: cs =>
    if isDigit c then lexNumber (c :: cs)
    else if c = 34 ∨ c = 39 then lexStringBody c cs []
    else if isAlpha c then lexName (c :: cs)
    else if c = 46 ∧ (cs.head?.map isDigit) = some true then lexNumber (c :: cs)
    else lexSymbol (c :: cs)

end Lua
end Rustrapper

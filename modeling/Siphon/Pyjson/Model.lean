/-
# The JSON reader and writer of the chat template

`pyjson` writes values as Python's `json.dumps(v, ensure_ascii=False)` and
`str(v)` do, and reads JSON documents back. A text is a list of characters.
The reader of the source goes over the bytes of the text; it stands between
two characters whenever it looks at a byte, and every byte it tests for is
ASCII, so here it goes over the characters and counts the bytes for the
positions in its errors.

Rust's formatter for `{:e}` is a parameter of the writer; its `f64::from_str`
gives the nearest number of the format.
-/
import Siphon.Lib.Binary64
import Siphon.Lib.Fallible
import Siphon.Lib.Utf8

namespace Siphon
namespace Pyjson

open Fallible

/-- A value; an object keeps the order its keys were written in. An integer
of the source is an `i128`. -/
inductive Value where
  | null
  | bool (b : Bool)
  | int (i : ℤ)
  | float (x : Binary64)
  | str (s : List Char)
  | array (vs : List Value)
  | object (kvs : List (List Char × Value))

/-- `get` -/
def Value.get (key : String) : Value → Option Value
  | object kvs => (kvs.find? fun kv => kv.1 = key.toList).map (·.2)
  | _ => none

/-- `as_str` -/
def Value.asStr? : Value → Option (List Char)
  | str s => some s
  | _ => none

/-- `as_array` -/
def Value.asArray? : Value → Option (List Value)
  | array vs => some vs
  | _ => none

/-- `as_usize` -/
def Value.asUsize? : Value → Option ℕ
  | int i => if 0 ≤ i ∧ i < 2 ^ 64 then some i.toNat else none
  | _ => none

/-! ### Writing -/

/-- A natural number in decimal. -/
def showNat (n : ℕ) : List Char := Nat.toDigits 10 n

/-- An integer in decimal. -/
def showInt (i : ℤ) : List Char := if i < 0 then '-' :: showNat i.natAbs else showNat i.natAbs

/-- Rust's formatter: the text of `{:e}`. -/
abbrev LowerExp := Binary64 → List Char

section Write

variable (lowerExp : LowerExp)

/-- `i32::from_str` on the exponent. -/
def parseExp : List Char → ℤ
  | '-' :: ds => -(Nat.ofDigitChars 10 ds 0 : ℤ)
  | ds => Nat.ofDigitChars 10 ds 0

/-- The parts of the text of `{:e}`: the sign, the digits without the point,
and the exponent. -/
def splitExp (s : List Char) : Bool × List Char × ℤ :=
  let mant := s.takeWhile (· ≠ 'e')
  let exp := parseExp (s.dropWhile (· ≠ 'e')).tail
  match mant with
  | '-' :: m => (true, m.filter (· ≠ '.'), exp)
  | m => (false, m.filter (· ≠ '.'), exp)

/-- The layout of the digits, with the decimal point at `decpt`. -/
def layout (digits : List Char) (decpt : ℤ) : List Char :=
  if decpt ≤ -4 ∨ 16 < decpt then
    let e := decpt - 1
    digits.headD '0' :: (if 1 < digits.length then '.' :: digits.tail else []) ++
      ['e', if e < 0 then '-' else '+'] ++ (if e.natAbs < 10 then ['0'] else []) ++ showNat e.natAbs
  else if decpt ≤ 0 then
    '0' :: '.' :: List.replicate (-decpt).toNat '0' ++ digits
  else if digits.length ≤ decpt.toNat then
    digits ++ List.replicate (decpt.toNat - digits.length) '0' ++ ['.', '0']
  else
    digits.take decpt.toNat ++ '.' :: digits.drop decpt.toNat

/-- `py_repr_f64`. -/
def pyReprF64 : Binary64 → List Char
  | .nan => ['N', 'a', 'N']
  | .infinite false => ['I', 'n', 'f', 'i', 'n', 'i', 't', 'y']
  | .infinite true => ['-', 'I', 'n', 'f', 'i', 'n', 'i', 't', 'y']
  | x@(.finite _ _) =>
    let (neg, digits, exp) := splitExp (lowerExp x)
    (if neg then ['-'] else []) ++ layout digits (exp + 1)

/-- A hexadecimal digit in lower case. -/
def hexDigit (n : ℕ) : Char := Nat.digitChar n

/-- `json_escape_into` on one character. -/
def jsonEscape (c : Char) : List Char :=
  if c = '"' then ['\\', '"']
  else if c = '\\' then ['\\', '\\']
  else if c = '\n' then ['\\', 'n']
  else if c = '\r' then ['\\', 'r']
  else if c = '\t' then ['\\', 't']
  else if c = '\x08' then ['\\', 'b']
  else if c = '\x0c' then ['\\', 'f']
  else if c.toNat < 0x20 then ['\\', 'u', '0', '0', hexDigit (c.toNat / 16), hexDigit (c.toNat % 16)]
  else [c]

/-- A text in double quotes. -/
def quoted (s : List Char) : List Char := '"' :: s.flatMap jsonEscape ++ ['"']

mutual

/-- `dumps_into`. -/
def dumps : Value → List Char
  | .null => ['n', 'u', 'l', 'l']
  | .bool true => ['t', 'r', 'u', 'e']
  | .bool false => ['f', 'a', 'l', 's', 'e']
  | .int i => showInt i
  | .float x => pyReprF64 lowerExp x
  | .str s => quoted s
  | .array vs => '[' :: dumpsElements vs ++ [']']
  | .object kvs => '{' :: dumpsMembers kvs ++ ['}']

/-- The elements of an array, with a comma and a space between. -/
def dumpsElements : List Value → List Char
  | [] => []
  | [v] => dumps v
  | v :: v' :: vs => dumps v ++ [',', ' '] ++ dumpsElements (v' :: vs)

/-- The members of an object. -/
def dumpsMembers : List (List Char × Value) → List Char
  | [] => []
  | [(k, v)] => quoted k ++ [':', ' '] ++ dumps v
  | (k, v) :: kv :: kvs => quoted k ++ [':', ' '] ++ dumps v ++ [',', ' '] ++ dumpsMembers (kv :: kvs)

end

/-- `py_repr_str`. -/
def pyReprStr (s : List Char) : List Char :=
  let quote := if '\'' ∈ s ∧ '"' ∉ s then '"' else '\''
  let escape (c : Char) : List Char :=
    if c = '\\' then ['\\', '\\']
    else if c = '\n' then ['\\', 'n']
    else if c = '\r' then ['\\', 'r']
    else if c = '\t' then ['\\', 't']
    else if c = quote then ['\\', c]
    else if c.toNat < 0x20 ∨ c.toNat = 0x7f then
      ['\\', 'x', hexDigit (c.toNat / 16), hexDigit (c.toNat % 16)]
    else [c]
  quote :: s.flatMap escape ++ [quote]

/-- `py_repr`, from `py_str`: a string is quoted. -/
def pyReprOf : Value → List Char → List Char
  | .str s, _ => pyReprStr s
  | _, text => text

mutual

/-- `py_str`. -/
def pyStr : Value → List Char
  | .null => ['N', 'o', 'n', 'e']
  | .bool true => ['T', 'r', 'u', 'e']
  | .bool false => ['F', 'a', 'l', 's', 'e']
  | .int i => showInt i
  | .float x => pyReprF64 lowerExp x
  | .str s => s
  | .array vs => '[' :: reprElements vs ++ [']']
  | .object kvs => '{' :: reprMembers kvs ++ ['}']

def reprElements : List Value → List Char
  | [] => []
  | [v] => pyReprOf v (pyStr v)
  | v :: v' :: vs => pyReprOf v (pyStr v) ++ [',', ' '] ++ reprElements (v' :: vs)

def reprMembers : List (List Char × Value) → List Char
  | [] => []
  | [(k, v)] => pyReprStr k ++ [':', ' '] ++ pyReprOf v (pyStr v)
  | (k, v) :: kv :: kvs =>
    pyReprStr k ++ [':', ' '] ++ pyReprOf v (pyStr v) ++ [',', ' '] ++ reprMembers (kv :: kvs)

end

end Write

/-! ### Reading -/

/-- The errors of the reader; a position is a byte of the text, and a byte
that is printed is printed as the character of its value. -/
inductive ParseError where
  | trailing (i : ℕ)
  | expected (c : Char) (i : ℕ) (found : Option UInt8)
  | literal (s : List Char) (i : ℕ)
  | unexpected (b : UInt8) (i : ℕ)
  | endOfInput
  | objectSeparator (i : ℕ)
  | arraySeparator (i : ℕ)
  | unterminatedString
  | unterminatedEscape
  | highSurrogate
  | badPair
  | notCharacter (hi : ℕ)
  | unknownEscape (b : UInt8)
  | truncatedHex
  | hexUtf8
  | notHex (s : List Char)
  | leadingZero (i : ℕ)
  | fractionDigits (i : ℕ)
  | exponentDigits (i : ℕ)
  | notNumber (s : List Char)
  | notFloat (s : List Char)
  | notInt (s : List Char)
  deriving DecidableEq, Repr

/-- The first byte of a character. -/
def firstByte (c : Char) : UInt8 := (String.utf8EncodeChar c).headD 0

/-- The bytes of a text. -/
def bytes (cs : List Char) : ℕ := (Utf8.encode cs).length

/-- `ws`. -/
def isWs (c : Char) : Bool := c = ' ' ∨ c = '\t' ∨ c = '\n' ∨ c = '\r'

def isDigit (c : Char) : Bool := '0' ≤ c ∧ c ≤ '9'

/-- What one letter after a backslash stands for. -/
def escapeOf : Char → Option Char
  | '"' => some '"'
  | '\\' => some '\\'
  | '/' => some '/'
  | 'b' => some '\x08'
  | 'f' => some '\x0c'
  | 'n' => some '\n'
  | 'r' => some '\r'
  | 't' => some '\t'
  | _ => none

/-- The value of a hexadecimal digit. -/
def hexVal (c : Char) : Option ℕ :=
  if '0' ≤ c ∧ c ≤ '9' then some (c.toNat - '0'.toNat)
  else if 'a' ≤ c ∧ c ≤ 'f' then some (c.toNat - 'a'.toNat + 10)
  else if 'A' ≤ c ∧ c ≤ 'F' then some (c.toNat - 'A'.toNat + 10)
  else none

/-- The number that hexadecimal digits write, after what `acc` has. -/
def hexDigits (acc : ℕ) : List Char → Option ℕ
  | [] => some acc
  | c :: cs => (hexVal c).bind fun d => hexDigits (acc * 16 + d) cs

/-- `u32::from_str_radix(s, 16)`, which takes a sign `+`. -/
def fromStrRadix : List Char → Option ℕ
  | [] => none
  | ['+'] => none
  | '+' :: cs => hexDigits 0 cs
  | cs => hexDigits 0 cs

/-- `char::from_u32`. -/
def charFromU32 (n : ℕ) : Option Char := if h : n.isValidChar then some (Char.ofNatAux n h) else none

/-- The first `n` bytes of a text as a text of their own, and the rest; none
if they end inside a character. -/
def takeBytes : ℕ → List Char → Option (List Char × List Char)
  | 0, cs => some ([], cs)
  | _ + 1, [] => none
  | n + 1, c :: cs =>
    if c.utf8Size ≤ n + 1 then (takeBytes (n + 1 - c.utf8Size) cs).map fun p => (c :: p.1, p.2) else none

section Read

-- the bytes of the whole text
variable (n : ℕ)

/-- The position before a rest of the text. -/
def pos (cs : List Char) : ℕ := n - bytes cs

def ws (cs : List Char) : List Char := cs.dropWhile isWs

/-- `eat`. -/
def eat (c : Char) : List Char → Except ParseError (List Char)
  | [] => .error (.expected c n none)
  | d :: cs => if d = c then .ok cs else .error (.expected c (pos n (d :: cs)) (some (firstByte d)))

/-- `lit`. -/
def lit (s cs : List Char) : Except ParseError (List Char) :=
  if s <+: cs then .ok (cs.drop s.length) else .error (.literal s (pos n cs))

/-- `hex4`. -/
def hex4 (cs : List Char) : Except ParseError (ℕ × List Char) :=
  if bytes cs < 4 then .error .truncatedHex
  else
    match takeBytes 4 cs with
    | none => .error .hexUtf8
    | some (s, rest) =>
      match fromStrRadix s with
      | none => .error (.notHex s)
      | some v => .ok (v, rest)

/-- The character of a surrogate pair. -/
def surrogatePair (hi lo : ℕ) : Except ParseError Char :=
  if 0xdc00 ≤ lo ∧ lo < 0xe000 then
    orElse .badPair (charFromU32 (0x10000 + (hi - 0xd800) * 1024 + (lo - 0xdc00)))
  else .error .highSurrogate

/-- The escape of a low surrogate, which has to follow that of a high one. -/
def lowSurrogate (hi : ℕ) (cs : List Char) : Except ParseError (Char × List Char) := do
  let cs ← lit n ['\\', 'u'] cs
  let (lo, cs) ← hex4 cs
  let c ← surrogatePair hi lo
  .ok (c, cs)

/-- The escape after `\u`. -/
def unicodeEscape (cs : List Char) : Except ParseError (Char × List Char) := do
  let (hi, cs) ← hex4 cs
  if 0xd800 ≤ hi ∧ hi < 0xdc00 then lowSurrogate n hi cs
  else do
    let c ← orElse (.notCharacter hi) (charFromU32 hi)
    .ok (c, cs)

/-- The loop of `string`. Each pass takes a character or more. -/
def stringLoop : ℕ → List Char → List Char → Except ParseError (List Char × List Char)
  | 0, _, _ => .error .unterminatedString
  | _ + 1, _, [] => .error .unterminatedString
  | fuel + 1, out, c :: cs =>
    if c = '"' then .ok (out, cs)
    else if c = '\\' then
      match cs with
      | [] => .error .unterminatedEscape
      | e :: cs =>
        if e = 'u' then do
          let (d, cs) ← unicodeEscape n cs
          stringLoop fuel (out ++ [d]) cs
        else
          match escapeOf e with
          | some d => stringLoop fuel (out ++ [d]) cs
          | none => .error (.unknownEscape (firstByte e))
    else stringLoop fuel (out ++ [c]) cs

/-- `string`. -/
def string (cs : List Char) : Except ParseError (List Char × List Char) := do
  let cs ← eat n '"' cs
  stringLoop n (cs.length + 1) [] cs

/-- The fraction of a number: its digits, if there is a point. -/
def fraction : List Char → Except ParseError (Option (List Char) × List Char)
  | '.' :: cs =>
    if cs.takeWhile isDigit = [] then .error (.fractionDigits (pos n cs))
    else .ok (some (cs.takeWhile isDigit), cs.dropWhile isDigit)
  | cs => .ok (none, cs)

/-- The sign and the digits of an exponent. -/
def exponentDigits (e : Char) (sign : List Char) (cs : List Char) :
    Except ParseError (Option (Char × List Char × List Char) × List Char) :=
  if cs.takeWhile isDigit = [] then .error (.exponentDigits (pos n cs))
  else .ok (some (e, sign, cs.takeWhile isDigit), cs.dropWhile isDigit)

/-- The exponent of a number, if there is one: its letter, sign and digits. -/
def exponent : List Char → Except ParseError (Option (Char × List Char × List Char) × List Char)
  | e :: cs =>
    if e = 'e' ∨ e = 'E' then
      match cs with
      | '+' :: cs => exponentDigits n e ['+'] cs
      | '-' :: cs => exponentDigits n e ['-'] cs
      | cs => exponentDigits n e [] cs
    else .ok (none, e :: cs)
  | [] => .ok (none, [])

/-- The number an exponent stands for. -/
def exponentValue : Option (Char × List Char × List Char) → ℤ
  | some (_, ['-'], ds) => -(Nat.ofDigitChars 10 ds 0 : ℤ)
  | some (_, _, ds) => Nat.ofDigitChars 10 ds 0
  | none => 0

/-- A number as it is written: the sign, and the three parts. -/
structure NumberText where
  neg : Bool
  int : List Char
  frac : Option (List Char)
  exp : Option (Char × List Char × List Char)
  deriving DecidableEq

def NumberText.text (t : NumberText) : List Char :=
  (if t.neg then ['-'] else []) ++ t.int ++ (t.frac.elim [] fun ds => '.' :: ds) ++
    t.exp.elim [] fun x => x.1 :: x.2.1 ++ x.2.2

/-- `f64::from_str` on a text of digits with a point or an exponent: the
nearest number, if there is a digit before the exponent. -/
def NumberText.toFloat (t : NumberText) : Option Binary64 :=
  let frac := t.frac.getD []
  if t.int = [] ∧ frac = [] then none
  else some (.nearest t.neg
    (Binary64.decimal (Nat.ofDigitChars 10 (t.int ++ frac) 0) (exponentValue t.exp - frac.length)))

/-- `i128::from_str` on a text of digits with or without a sign. -/
def NumberText.toInt (t : NumberText) : Option ℤ :=
  let v : ℤ := if t.neg then -(Nat.ofDigitChars 10 t.int 0 : ℤ) else Nat.ofDigitChars 10 t.int 0
  if t.int = [] ∨ v < -2 ^ 127 ∨ 2 ^ 127 ≤ v then none else some v

/-- The value of a scanned number. -/
def numberValue (t : NumberText) : Except ParseError Value :=
  let isFloat := t.frac.isSome ∨ t.exp.isSome
  if t.int = [] ∧ ¬isFloat then .error (.notNumber t.text)
  else if isFloat then
    match t.toFloat with
    | some x => .ok (.float x)
    | none => .error (.notFloat t.text)
  else
    match t.toInt with
    | some i => .ok (.int i)
    | none => .error (.notInt t.text)

/-- `number`, after the sign. -/
def numberDigits (neg : Bool) (cs : List Char) : Except ParseError (Value × List Char) := do
  let int := cs.takeWhile isDigit
  if 1 < int.length ∧ int.head? = some '0' then .error (.leadingZero (pos n cs))
  else do
    let (frac, cs) ← fraction n (cs.dropWhile isDigit)
    let (exp, cs) ← exponent n cs
    let v ← numberValue { neg, int, frac, exp }
    .ok (v, cs)

/-- `number`. -/
def number : List Char → Except ParseError (Value × List Char)
  | '-' :: cs => numberDigits n true cs
  | cs => numberDigits n false cs

mutual

/-- `value`. The fuel bounds the calls of the three functions: between a call
of `value` and the next the text gets shorter, so two units for each
character are enough. -/
def value : ℕ → List Char → Except ParseError (Value × List Char)
  | 0, _ => .error .endOfInput
  | _ + 1, [] => .error .endOfInput
  | fuel + 1, c :: cs =>
    if c = '{' then
      match ws cs with
      | '}' :: cs => .ok (.object [], cs)
      | cs => object fuel [] cs
    else if c = '[' then
      match ws cs with
      | ']' :: cs => .ok (.array [], cs)
      | cs => array fuel [] cs
    else if c = '"' then do
      let (s, cs) ← string n (c :: cs)
      .ok (.str s, cs)
    else if c = 't' then do
      let cs ← lit n ['t', 'r', 'u', 'e'] (c :: cs)
      .ok (.bool true, cs)
    else if c = 'f' then do
      let cs ← lit n ['f', 'a', 'l', 's', 'e'] (c :: cs)
      .ok (.bool false, cs)
    else if c = 'n' then do
      let cs ← lit n ['n', 'u', 'l', 'l'] (c :: cs)
      .ok (.null, cs)
    else if c = '-' ∨ isDigit c then number n (c :: cs)
    else .error (.unexpected (firstByte c) (pos n (c :: cs)))

/-- The loop of `object`, with the members so far. -/
def object : ℕ → List (List Char × Value) → List Char → Except ParseError (Value × List Char)
  | 0, _, _ => .error .endOfInput
  | fuel + 1, kv, cs => do
    let (k, cs) ← string n (ws cs)
    let cs ← eat n ':' (ws cs)
    let (v, cs) ← value fuel (ws cs)
    match ws cs with
    | ',' :: cs => object fuel (kv ++ [(k, v)]) cs
    | '}' :: cs => .ok (.object (kv ++ [(k, v)]), cs)
    | cs => .error (.objectSeparator (pos n cs))

/-- The loop of `array`, with the elements so far. -/
def array : ℕ → List Value → List Char → Except ParseError (Value × List Char)
  | 0, _, _ => .error .endOfInput
  | fuel + 1, a, cs => do
    let (v, cs) ← value fuel (ws cs)
    match ws cs with
    | ',' :: cs => array fuel (a ++ [v]) cs
    | ']' :: cs => .ok (.array (a ++ [v]), cs)
    | cs => .error (.arraySeparator (pos n cs))

end

end Read

/-- `parse`. -/
def parse (src : List Char) : Except ParseError Value := do
  let n := bytes src
  let (v, cs) ← value n (2 * src.length + 1) (ws src)
  match ws cs with
  | [] => .ok v
  | cs => .error (.trailing (pos n cs))

end Pyjson
end Siphon

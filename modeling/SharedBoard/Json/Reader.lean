import SharedBoard.Json.Basic
import SharedBoard.Json.Double
import SharedBoard.Text.Decimal
import SharedBoard.Text.Hex

/-!
Reading strict JSON from characters. A reader takes what it reads off the front of the text and gives
the rest back. The first fault in the order of the text is the one that counts: `truncated` where the
text ends while something must follow, and `malformed` where the next character cannot follow.
-/

namespace SharedBoard.Json

abbrev Reader (α : Type) := List Char → Except Fault (α × List Char)

def isBlank (c : Char) : Bool := c == ' ' || c == '\t' || c == '\n' || c == '\r'

def skipBlanks (cs : List Char) : List Char := cs.dropWhile isBlank

/-! ## Strings -/

def byteCount : List Char → Nat
  | [] => 0
  | c :: cs => c.utf8Size + byteCount cs

/-- Reads the four digits of an escaped code unit. Too few bytes are a truncation, whatever they are. -/
def readUnit : Reader Nat := fun cs =>
  if byteCount (cs.take 4) < 4 then .error .truncated
  else
    match Hex.number? (cs.take 4) with
    | some u => .ok (u, cs.drop 4)
    | none => .error .malformed

def isHighSurrogate (u : Nat) : Bool := 0xD800 ≤ u && u < 0xDC00

def isLowSurrogate (u : Nat) : Bool := 0xDC00 ≤ u && u < 0xE000

/-- Reads an escaped code unit as a character, together with the second escape where the first is the
high half of a surrogate pair. -/
def readCodePoint : Reader Char := fun cs => do
  let (u, rest) ← readUnit cs
  if isLowSurrogate u then throw .malformed
  else if isHighSurrogate u then
    match rest with
    | [] | ['\\'] => throw .truncated
    | '\\' :: 'u' :: rest =>
      let (v, rest) ← readUnit rest
      if isLowSurrogate v then
        return (Char.ofNat (0x10000 + (u - 0xD800) * 0x400 + (v - 0xDC00)), rest)
      else throw .malformed
    | _ => throw .malformed
  else return (Char.ofNat u, rest)

/-- The characters that are escaped by one letter, and that letter. -/
def shortEscapes : List (Char × Char) :=
  [('"', '"'), ('\\', '\\'), ('/', '/'), ('b', '\x08'), ('f', '\x0c'), ('n', '\n'), ('r', '\r'),
    ('t', '\t')]

def readEscape : Reader Char
  | [] => .error .truncated
  | c :: rest =>
    match shortEscapes.lookup c with
    | some e => .ok (e, rest)
    | none => if c = 'u' then readCodePoint rest else .error .malformed

/-- Reads up to the closing quote. A turn takes a character at least, so a budget of as many turns as
there are characters lasts to the end of the text. -/
def readChars : (budget : List Char) → (read : List Char) → Reader (List Char)
  | [], _, _ | _ :: _, _, [] => .error .truncated
  | _ :: budget, read, c :: rest =>
    if c = '"' then .ok (read.reverse, rest)
    else if c = '\\' then
      match readEscape rest with
      | .ok (e, rest) => readChars budget (e :: read) rest
      | .error f => .error f
    else if c < ' ' then .error .malformed
    else readChars budget (c :: read) rest

/-- Reads a string after its opening quote. -/
def readString : Reader String := fun cs => do
  let (chars, rest) ← readChars cs [] cs
  return (String.ofList chars, rest)

/-! ## Numbers -/

/-- Takes digits into a significand for as long as it has 64 bits, and tells how many are left over. -/
def takeDigits (n : Nat) : List Char → Nat × Nat
  | [] => (n, 0)
  | c :: cs =>
    let next := 10 * n + Decimal.value c
    if next < UInt64.size then takeDigits next cs else (n, cs.length + 1)

def readDigits : Reader (List Char) := fun cs =>
  match cs.takeWhile Char.isDigit with
  | [] => .error (if cs.isEmpty then .truncated else .malformed)
  | digits => .ok (digits, cs.dropWhile Char.isDigit)

/-- The digits before the point: no other digit follows a leading zero. -/
def readWhole : Reader (List Char) := fun cs => do
  let (digits, rest) ← readDigits cs
  if digits.head? = some '0' && digits.length > 1 then throw .malformed else return (digits, rest)

/-- The digits after the point, if there is one. -/
def readFraction : Reader (Option (List Char))
  | '.' :: rest => do
    let (digits, rest) ← readDigits rest
    return (some digits, rest)
  | cs => .ok (none, cs)

def readSign : List Char → Bool × List Char
  | '+' :: rest => (false, rest)
  | '-' :: rest => (true, rest)
  | cs => (false, cs)

def readExponent : Reader (Option Int)
  | c :: rest =>
    if c = 'e' || c = 'E' then do
      let (isNegative, rest) := readSign rest
      let (digits, rest) ← readDigits rest
      let n : Int := Nat.ofDigitChars 10 digits 0
      return (some (if isNegative then -n else n), rest)
    else .ok (none, c :: rest)
  | [] => .ok (none, [])

/-- The value of a number without fraction and exponent that fits in 64 bits; minus zero does not, as
whole numbers have no signed zero. -/
def wholeValue? (isNegative : Bool) (n : Nat) : Option Int :=
  if isNegative then (if 0 < n && n ≤ 1 <<< 63 then some (-n) else none) else some n

/-- Reads a number after its sign. -/
def readNumber (isNegative : Bool) : Reader Json := fun cs => do
  let (whole, rest) ← readWhole cs
  let (fraction, rest) ← readFraction rest
  let (exponent, rest) ← readExponent rest
  let (n, dropped) := takeDigits 0 whole
  let asReal (n : Nat) (e : Int) : Except Fault (Json × List Char) :=
    if Double.overflows n e then .error .malformed else .ok (.real isNegative n e, rest)
  match fraction, exponent with
  | none, none =>
    match if dropped = 0 then wholeValue? isNegative n else none with
    | some i => return (.int i, rest)
    | none => asReal n dropped
  | _, _ =>
    let digits := fraction.getD []
    let (m, beyond) := takeDigits n digits
    asReal m (dropped - (digits.length - beyond : Nat) + exponent.getD 0)

/-! ## Values -/

def readLiteral (value : Json) : List Char → Reader Json
  | [], cs => .ok (value, cs)
  | _ :: _, [] => .error .truncated
  | e :: expected, c :: cs => if c = e then readLiteral value expected cs else .error .malformed

/-- Reads items with commas between them up to the closing bracket, each into the state so far. A turn
takes a comma or a bracket at least, which bounds the turns by the characters. -/
def readItems {σ : Type} (close : Char) (item : σ → Reader σ) : (budget : List Char) → σ → Reader σ
  | [], _, _ => .error .truncated
  | _ :: budget, s, cs =>
    match item s cs with
    | .error f => .error f
    | .ok (s, cs) =>
      match skipBlanks cs with
      | [] => .error .truncated
      | c :: rest =>
        if c = close then .ok (s, rest)
        else if c = ',' then
          match skipBlanks rest with
          | [] => .error .truncated
          | d :: rest =>
            if d = close then .error .malformed else readItems close item budget s (d :: rest)
        else .error .malformed

/-- Reads all items of an array or an object, after its opening bracket. -/
def readSequence {σ : Type} (close : Char) (item : σ → Reader σ) (init : σ) : Reader σ := fun cs =>
  match skipBlanks cs with
  | [] => .error .truncated
  | c :: rest =>
    if c = close then .ok (init, rest)
    else readItems close item (c :: rest) init (c :: rest)

def readName : Reader String := fun cs =>
  match skipBlanks cs with
  | [] => .error .truncated
  | c :: rest => if c = '"' then readString rest else .error .malformed

def readColon (cs : List Char) : Except Fault (List Char) :=
  match skipBlanks cs with
  | [] => .error .truncated
  | c :: rest => if c = ':' then .ok rest else .error .malformed

inductive Bracket where
  | square
  | curly
  deriving DecidableEq

def Bracket.close : Bracket → Char
  | square => ']'
  | curly => '\x7d'

def bracket? (c : Char) : Option Bracket :=
  if c = '[' then some .square else if c = '\x7b' then some .curly else none

/-- Reads a value with a reader for what stands in brackets. -/
def readShallow (nested : Bracket → Reader Json) : Reader Json := fun cs =>
  match skipBlanks cs with
  | [] => .error .truncated
  | c :: rest =>
    match bracket? c with
    | some b => nested b rest
    | none =>
      if c = '"' then do
        let (s, rest) ← readString rest
        return (.str s, rest)
      else if c = '-' then readNumber true rest
      else if c.isDigit then readNumber false (c :: rest)
      else if c = 'n' then readLiteral .null ['u', 'l', 'l'] rest
      else if c = 't' then readLiteral (.bool true) ['r', 'u', 'e'] rest
      else if c = 'f' then readLiteral (.bool false) ['a', 'l', 's', 'e'] rest
      else .error .malformed

def element (read : Reader Json) : List Json → Reader (List Json) := fun es cs => do
  let (v, cs) ← read cs
  return (v :: es, cs)

def member (read : Reader Json) : List (String × Json) → Reader (List (String × Json)) :=
  fun ms cs => do
    let (name, cs) ← readName cs
    let cs ← readColon cs
    let (v, cs) ← read cs
    return ((name, v) :: ms, cs)

/-- Reads a value in which brackets are nested at most `depth` deep. -/
def readValue : (depth : Nat) → Reader Json
  | 0 => readShallow fun _ _ => .error .malformed
  | depth + 1 => readShallow fun
    | .square => fun cs => do
      let (es, cs) ← readSequence ']' (element (readValue depth)) [] cs
      return (.arr es.reverse, cs)
    | .curly => fun cs => do
      let (ms, cs) ← readSequence '\x7d' (member (readValue depth)) [] cs
      return (.obj ms.reverse, cs)

def maxDepth : Nat := 127

/-- Reads a whole text, in which blanks alone may follow what is read. -/
def readAll {α : Type} (read : Reader α) (text : String) : Except Fault α := do
  let (v, rest) ← read text.toList
  if (skipBlanks rest).isEmpty then return v else throw .malformed

def ofText (text : String) : Except Fault Json := readAll (readValue maxDepth) text

end SharedBoard.Json

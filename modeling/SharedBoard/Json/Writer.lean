import SharedBoard.Json.Basic
import SharedBoard.Text.Decimal
import SharedBoard.Text.Hex

/-!
Writing JSON, in one line or spread over indented lines. In strings only quotes, backslashes and
control characters are escaped.
-/

namespace SharedBoard.Json

/-- The control characters that have a letter of their own. -/
def letterEscapes : List (Char × Char) :=
  [('"', '"'), ('\\', '\\'), ('\x08', 'b'), ('\t', 't'), ('\n', 'n'), ('\x0c', 'f'), ('\r', 'r')]

def escape (c : Char) : List Char :=
  match letterEscapes.lookup c with
  | some letter => ['\\', letter]
  | none => if c < ' ' then '\\' :: 'u' :: Hex.digits 4 c.toNat else [c]

def quote (s : String) : List Char := '"' :: s.toList.flatMap escape ++ ['"']

def realChars (isNegative : Bool) (significand : Nat) (exponent : Int) : List Char :=
  (if isNegative then ['-'] else []) ++ Decimal.ofNat significand ++ 'e' :: Decimal.ofInt exponent

mutual

/-- A value in one line, without blanks. -/
def compactChars : Json → List Char
  | null => ['n', 'u', 'l', 'l']
  | bool true => ['t', 'r', 'u', 'e']
  | bool false => ['f', 'a', 'l', 's', 'e']
  | int i => Decimal.ofInt i
  | real isNegative significand exponent => realChars isNegative significand exponent
  | str s => quote s
  | arr es => '[' :: compactElements es
  | obj ms => '\x7b' :: compactMembers ms

def compactElements : List Json → List Char
  | [] => [']']
  | [e] => compactChars e ++ [']']
  | e :: es => compactChars e ++ ',' :: compactElements es

def compactMembers : List (String × Json) → List Char
  | [] => ['\x7d']
  | [(name, v)] => quote name ++ ':' :: compactChars v ++ ['\x7d']
  | (name, v) :: ms => quote name ++ ':' :: compactChars v ++ ',' :: compactMembers ms

end

/-- A new line at a level of two blanks each. -/
def newLine (level : Nat) : List Char := '\n' :: List.replicate (2 * level) ' '

mutual

/-- A value over indented lines; empty brackets stay together. -/
def prettyChars (level : Nat) : Json → List Char
  | arr [] => ['[', ']']
  | arr (e :: es) => '[' :: prettyElements level (e :: es)
  | obj [] => ['\x7b', '\x7d']
  | obj (m :: ms) => '\x7b' :: prettyMembers level (m :: ms)
  | v => compactChars v

/-- Elements on lines of their own, and the closing bracket. -/
def prettyElements (level : Nat) : List Json → List Char
  | [] => newLine level ++ [']']
  | e :: es => newLine (level + 1) ++ prettyChars (level + 1) e ++
      (if es.isEmpty then [] else [',']) ++ prettyElements level es

/-- Members on lines of their own, and the closing bracket. -/
def prettyMembers (level : Nat) : List (String × Json) → List Char
  | [] => newLine level ++ ['\x7d']
  | (name, v) :: ms => newLine (level + 1) ++ quote name ++ ':' :: ' ' ::
      prettyChars (level + 1) v ++ (if ms.isEmpty then [] else [',']) ++ prettyMembers level ms

end

def compact (v : Json) : String := String.ofList v.compactChars

def pretty (v : Json) : String := String.ofList (v.prettyChars 0)

end SharedBoard.Json

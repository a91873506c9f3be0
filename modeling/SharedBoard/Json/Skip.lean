import SharedBoard.Json.Reader

/-!
Passing over a value that nobody asks for. Its brackets must match, at any depth, and its strings and
numbers must be well formed, but they are not evaluated: escapes need not pair up to characters and no
number is too large. A number that is cut short is malformed, even where the text ends.
-/

namespace SharedBoard.Json

def skipEscape : List Char → Except Fault (List Char)
  | [] => .error .truncated
  | c :: rest =>
    if (shortEscapes.lookup c).isSome then .ok rest
    else if c = 'u' then (readUnit rest).map Prod.snd
    else .error .malformed

/-- Passes over the rest of a string; a turn takes a character at least. -/
def skipChars : (budget : List Char) → List Char → Except Fault (List Char)
  | [], _ | _ :: _, [] => .error .truncated
  | _ :: budget, c :: rest =>
    if c = '"' then .ok rest
    else if c = '\\' then
      match skipEscape rest with
      | .ok rest => skipChars budget rest
      | .error f => .error f
    else if c < ' ' then .error .malformed
    else skipChars budget rest

/-- Passes over a string after its opening quote. -/
def skipString (cs : List Char) : Except Fault (List Char) := skipChars cs cs

/-- Passes over a number after its sign. -/
def skipNumber (cs : List Char) : Except Fault (List Char) :=
  let read : Except Fault (List Char) := do
    let (_, rest) ← readWhole cs
    let (_, rest) ← readFraction rest
    let (_, rest) ← readExponent rest
    return rest
  read.mapError fun _ => .malformed

/-- Passes over a value without brackets that starts with `c`. -/
def skipScalar (c : Char) (rest : List Char) : Except Fault (List Char) :=
  if c = '"' then skipString rest
  else if c = '-' then skipNumber rest
  else if c.isDigit then skipNumber (c :: rest)
  else (readShallow (fun _ _ => .error .malformed) (c :: rest)).map Prod.snd

/-- Passes over what stands before an item's value: the name and the colon of a member. -/
def skipItemStart : Bracket → List Char → Except Fault (List Char)
  | .square, cs => .ok cs
  | .curly, cs =>
    match skipBlanks cs with
    | [] => .error .truncated
    | c :: rest => if c = '"' then skipString rest >>= readColon else .error .malformed

/-- Where a walk over a value stands: before a value, or after one. -/
inductive Spot where
  | before
  | after
  deriving DecidableEq

/-- Walks over a value with the brackets that are still open, the innermost first. A turn takes a
scalar, a bracket or a comma, which bounds the turns by the characters. -/
def walk : (budget : List Char) → List Bracket → Spot → List Char → Except Fault (List Char)
  | _, [], .after, cs => .ok cs
  | [], _, _, _ => .error .truncated
  | _ :: budget, due, .before, cs =>
    match skipBlanks cs with
    | [] => .error .truncated
    | c :: rest =>
      match bracket? c with
      | none =>
        match skipScalar c rest with
        | .ok rest => walk budget due .after rest
        | .error f => .error f
      | some b =>
        match skipBlanks rest with
        | [] => .error .truncated
        | d :: rest =>
          if d = b.close then walk budget due .after rest
          else
            match skipItemStart b (d :: rest) with
            | .ok rest => walk budget (b :: due) .before rest
            | .error f => .error f
  | _ :: budget, b :: due, .after, cs =>
    match skipBlanks cs with
    | [] => .error .truncated
    | c :: rest =>
      if c = b.close then walk budget due .after rest
      else if c = ',' then
        match skipItemStart b rest with
        | .ok rest => walk budget (b :: due) .before rest
        | .error f => .error f
      else .error .malformed

def skipValue (cs : List Char) : Except Fault (List Char) := walk cs [] .before cs

end SharedBoard.Json

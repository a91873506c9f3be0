import SharedBoard.Json.Reader
import SharedBoard.Wire.Fields

/-!
Records of several kinds. A tag among the members, or the first element of an array, names the kind,
and what is left is the body of that kind's record. A tag is judged where it is met, the other fields
only when the whole record has been read.
-/

namespace SharedBoard.Wire

open Json (Misfit Fault Reader)

/-- The kinds of a record: the name of the tag, and the fields of each kind by its name. -/
structure Variants (α : Type) where
  tag : String
  kinds : List (String × Fields α)

namespace Variants

variable {α : Type}

def find (t : Variants α) (name : String) : Except Misfit (Fields α) :=
  match t.kinds.lookup name with
  | some f => .ok f
  | none => .error (.unknownVariant name (t.kinds.map Prod.fst))

def byName (t : Variants α) : Json → Except Misfit (Fields α)
  | .str name => t.find name
  | _ => .error .invalidType

/-- The kind that a tag names or, inside another such record, gives by its number. -/
def byNameOrNumber (t : Variants α) : Json → Except Misfit (Fields α)
  | .str name => t.find name
  | .int i =>
    if i < 0 then .error .invalidType
    else
      match t.kinds[i.toNat]? with
      | some kind => .ok kind.2
      | none => .error .invalidValue
  | _ => .error .invalidType

/-- Reads a record from a value, its kind by a rule for tags. -/
def decodeBy (t : Variants α) (kindOf : Json → Except Misfit (Fields α)) : Json → Except Misfit α
  | .obj ms => do
    let kind ← (Fields.required t.tag kindOf).decode (.members ms)
    kind.decode (.members (ms.filter fun m => m.1 != t.tag))
  | .arr [] => .error (.missingField t.tag)
  | .arr (v :: es) => do (← kindOf v).decode (.elements es)
  | _ => .error .invalidType

def ofJson (t : Variants α) : Json → Except Misfit α := t.decodeBy t.byName

/-- Reads a record inside another one of several kinds. -/
def ofInner (t : Variants α) : Json → Except Misfit α := t.decodeBy t.byNameOrNumber

end Variants

/-! ## Reading from text -/

def fit {α : Type} (e : Except Misfit α) : Except Fault α := e.mapError .misfit

/-- What stands here is of the wrong type, which shows only after a scalar has been read. -/
def readWrongType {α : Type} : Reader α := fun cs =>
  match Json.skipBlanks cs with
  | c :: rest =>
    if (Json.bracket? c).isSome then throw (.misfit .invalidType)
    else do
      let _ ← Json.readValue 0 (c :: rest)
      throw (.misfit .invalidType)
  | [] => throw .truncated

def readText : Reader String := fun cs =>
  match Json.skipBlanks cs with
  | '"' :: rest => Json.readString rest
  | cs => readWrongType cs

namespace Variants

variable {α : Type}

/-- A record read in part: its kind, once the tag has been met, and the rest in reverse. -/
structure Draft (α κ : Type) where
  kind : Option (Fields α)
  rest : List κ

def readTag (t : Variants α) {κ : Type} (d : Draft α κ) : Reader (Draft α κ) := fun cs => do
  let (name, cs) ← readText cs
  let kind ← fit (t.find name)
  return ({ d with kind := some kind }, cs)

def readMember (t : Variants α) (depth : Nat) (d : Draft α (String × Json)) :
    Reader (Draft α (String × Json)) := fun cs => do
  let (name, cs) ← Json.readName cs
  if name = t.tag then
    if d.kind.isSome then throw (.misfit (.duplicateField t.tag))
    else t.readTag d (← Json.readColon cs)
  else
    let (v, cs) ← Json.readValue depth (← Json.readColon cs)
    return ({ d with rest := (name, v) :: d.rest }, cs)

def readElement (t : Variants α) (depth : Nat) (d : Draft α Json) : Reader (Draft α Json) := fun cs =>
  if d.kind.isNone then t.readTag d cs
  else do
    let (v, cs) ← Json.readValue depth cs
    return ({ d with rest := v :: d.rest }, cs)

/-- Judges the fields of a record that has been read to its end. -/
def finish (t : Variants α) {κ : Type} (d : Draft α κ) (body : List κ → Body) : Except Fault α :=
  fit <| match d.kind with
    | some kind => kind.decode (body d.rest.reverse)
    | none => .error (.missingField t.tag)

/-- Reads a record from text; brackets within it are nested at most `depth` deep. -/
def read (t : Variants α) (depth : Nat) : Reader α := fun cs =>
  match Json.skipBlanks cs with
  | '\x7b' :: rest => do
    let (d, rest) ← Json.readSequence '\x7d' (t.readMember depth) ⟨none, []⟩ rest
    return (← t.finish d .members, rest)
  | '[' :: rest => do
    let (d, rest) ← Json.readSequence ']' (t.readElement depth) ⟨none, []⟩ rest
    return (← t.finish d .elements, rest)
  | cs => readWrongType cs

def ofText (t : Variants α) (text : String) : Except Fault α :=
  Json.readAll (t.read (Json.maxDepth - 1)) text

end Variants

end SharedBoard.Wire

import SharedBoard.Action
import SharedBoard.Json.Skip
import SharedBoard.Wire.Variants

/-!
The wire forms of entities, actions and updates, read from JSON values and from text.
-/

namespace SharedBoard.Wire

open Json (Misfit Fault Reader)

def string : Json → Except Misfit String
  | .str s => .ok s
  | _ => .error .invalidType

def uuidOfText (s : String) : Except Misfit Uuid :=
  match Uuid.ofText? s with
  | some u => .ok u
  | none => .error .invalidUuid

def uuid (v : Json) : Except Misfit Uuid := string v >>= uuidOfText

def intBetween (lo hi : Int) : Json → Except Misfit Int
  | .int i => if lo ≤ i && i ≤ hi then .ok i else .error .invalidValue
  | _ => .error .invalidType

/-- An unsigned number of 64 bits. -/
def nat64 (v : Json) : Except Misfit Nat := (intBetween 0 (UInt64.size - 1) v).map Int.toNat

/-- A coordinate: a signed number of 32 bits. -/
def int32 (v : Json) : Except Misfit Int32 :=
  (intBetween Int32.minValue.toInt Int32.maxValue.toInt v).map Int32.ofInt

def boolean : Json → Except Misfit Bool
  | .bool b => .ok b
  | _ => .error .invalidType

def list {α : Type} (decode : Json → Except Misfit α) : Json → Except Misfit (List α)
  | .arr es => es.mapM decode
  | _ => .error .invalidType

open Fields (required optional nullable)

def cellFields : Fields Cell := Cell.mk <$> required "x" int32 <*> required "y" int32

def cell : Json → Except Misfit Cell := cellFields.ofJson

def positionFields : Fields Position :=
  Position.mk <$> required "x" int32 <*> required "y" int32 <*> required "z" int32

def position : Json → Except Misfit Position := positionFields.ofJson

def contents : Variants Contents where
  tag := "type"
  kinds :=
    [("icon", Contents.icon <$> required "icon" string),
      ("text", Contents.text <$> required "text" string)]

def characterFields : Fields Character :=
  Character.mk <$> required "id" uuid <*> required "pos" position <*>
    required "contents" contents.ofInner <*> optional "color" string

def floorFields : Fields Floor :=
  Floor.mk <$> required "id" uuid <*> required "pos" position <*>
    required "contents" contents.ofInner

def pingFields : Fields Ping := Ping.mk <$> required "id" uuid <*> required "pos" cell

def entity : Variants Entity where
  tag := "kind"
  kinds :=
    [("character", Entity.character <$> characterFields), ("floor", Entity.floor <$> floorFields),
      ("ping", Entity.ping <$> pingFields)]

def action : Variants Action where
  tag := "type"
  kinds :=
    [("upsert", Action.upsert <$> required "entity" entity.ofInner),
      ("delete", Action.delete <$> required "entity_id" uuid),
      ("ping", Action.ping <$> required "ping" pingFields.ofJson)]

/-! ## Updates

An update has no kinds, so its fields are judged one by one as the text is read. -/

structure UpdateDraft where
  id : Option UpdateId := none
  actions : Option (List Action) := none

def readUuid : Reader Uuid := fun cs => do
  let (s, cs) ← readText cs
  return (← fit (uuidOfText s), cs)

/-- Actions stand in an array within an update, which leaves three levels of brackets less. -/
def readActions : Reader (List Action) := fun cs =>
  match Json.skipBlanks cs with
  | '[' :: rest => do
    let read (as : List Action) : Reader (List Action) := fun cs => do
      let (a, cs) ← action.read (Json.maxDepth - 3) cs
      return (a :: as, cs)
    let (as, rest) ← Json.readSequence ']' read [] rest
    return (as.reverse, rest)
  | cs => readWrongType cs

def readUpdateMember (d : UpdateDraft) : Reader UpdateDraft := fun cs => do
  let (name, cs) ← Json.readName cs
  if name = "update_id" then
    if d.id.isSome then throw (.misfit (.duplicateField name))
    else
      let (id, cs) ← readUuid (← Json.readColon cs)
      return ({ d with id := some id }, cs)
  else if name = "actions" then
    if d.actions.isSome then throw (.misfit (.duplicateField name))
    else
      let (actions, cs) ← readActions (← Json.readColon cs)
      return ({ d with actions := some actions }, cs)
  else return (d, ← Json.skipValue (← Json.readColon cs))

def UpdateDraft.finish : UpdateDraft → Except Misfit Update
  | ⟨some id, some actions⟩ => .ok ⟨id, actions⟩
  | ⟨none, _⟩ => .error (.missingField "update_id")
  | ⟨some _, none⟩ => .error (.missingField "actions")

/-- Moves on to the next element of an array that must have one. -/
def nextElement (isFirst : Bool) (cs : List Char) : Except Fault (List Char) :=
  match Json.skipBlanks cs with
  | [] => .error .truncated
  | ']' :: _ => .error (.misfit .invalidLength)
  | c :: rest =>
    if isFirst then .ok (c :: rest)
    else if c = ',' then
      match Json.skipBlanks rest with
      | [] => .error .truncated
      | ']' :: _ => .error .malformed
      | rest => .ok rest
    else .error .malformed

def endOfArray (cs : List Char) : Except Fault (List Char) :=
  match Json.skipBlanks cs with
  | [] => .error .truncated
  | c :: rest => if c = ']' then .ok rest else .error .malformed

def readUpdate : Reader Update := fun cs =>
  match Json.skipBlanks cs with
  | '\x7b' :: rest => do
    let (d, rest) ← Json.readSequence '\x7d' readUpdateMember {} rest
    return (← fit d.finish, rest)
  | '[' :: rest => do
    let (id, rest) ← readUuid (← nextElement true rest)
    let (actions, rest) ← readActions (← nextElement false rest)
    return (⟨id, actions⟩, ← endOfArray rest)
  | cs => readWrongType cs

end SharedBoard.Wire

namespace SharedBoard

open Json (Fault)

def Entity.ofText (text : String) : Except Fault Entity := Wire.entity.ofText text

def Action.ofText (text : String) : Except Fault Action := Wire.action.ofText text

def Update.ofText (text : String) : Except Fault Update := Json.readAll Wire.readUpdate text

end SharedBoard

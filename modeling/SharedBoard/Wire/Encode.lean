import SharedBoard.Action
import SharedBoard.Json.Writer

/-!
The wire forms of entities, actions and updates, as JSON values: the tag first, then the fields in
their declared order. A character without a colour has no colour field.
-/

namespace SharedBoard

def Uuid.toJson (u : Uuid) : Json := .str u.text

def Cell.toJson (c : Cell) : Json := .obj [("x", .int c.x.toInt), ("y", .int c.y.toInt)]

def Position.toJson (p : Position) : Json :=
  .obj [("x", .int p.x.toInt), ("y", .int p.y.toInt), ("z", .int p.z.toInt)]

def Contents.toJson : Contents → Json
  | icon name => .obj [("type", .str "icon"), ("icon", .str name)]
  | text label => .obj [("type", .str "text"), ("text", .str label)]

def Ping.members (p : Ping) : List (String × Json) := [("id", p.id.toJson), ("pos", p.pos.toJson)]

def Entity.toJson : Entity → Json
  | character c =>
    .obj ([("kind", .str "character"), ("id", c.id.toJson), ("pos", c.pos.toJson),
      ("contents", c.contents.toJson)] ++ c.color.toList.map fun color => ("color", .str color))
  | floor f =>
    .obj [("kind", .str "floor"), ("id", f.id.toJson), ("pos", f.pos.toJson),
      ("contents", f.contents.toJson)]
  | ping p => .obj (("kind", .str "ping") :: p.members)

def Action.toJson : Action → Json
  | upsert e => .obj [("type", .str "upsert"), ("entity", e.toJson)]
  | delete id => .obj [("type", .str "delete"), ("entity_id", id.toJson)]
  | ping p => .obj [("type", .str "ping"), ("ping", .obj p.members)]

def Update.toJson (u : Update) : Json :=
  .obj [("update_id", u.id.toJson), ("actions", .arr (u.actions.map Action.toJson))]

end SharedBoard

import SharedBoard.Board.Basic

/-!
Colours tell characters of one appearance apart. A group of two or more is coloured from a fixed
palette: its uncoloured members, in group order, take the palette entries that no member holds, in
palette order, for as long as there are any. Colours once given stay.
-/

namespace SharedBoard.Board

/-- The colours that are given out, in the order in which they are: red, blue, green, amber, violet,
teal, pink and slate. -/
def palette : List String :=
  ["#D94B4B", "#3C7DD9", "#3FA66B", "#E0A030", "#8E5BC8", "#2BB3B1", "#E06FA8", "#6B6B6B"]

theorem nodup_palette : palette.Nodup := by decide

/-- Walks a group and gives each uncoloured character the next colour at hand. -/
def handOut : List EntityId → List String → SortedMap EntityId Entity → SortedMap EntityId Entity
  | [], _, entities => entities
  | _ :: _, [], entities => entities
  | id :: ids, color :: colors, entities =>
    match entities.find? id with
    | some (.character c) =>
      if c.color.isSome then handOut ids (color :: colors) entities
      else handOut ids colors (entities.insert id (.character { c with color := some color }))
    | _ => handOut ids (color :: colors) entities

def usedColors (b : Board) (fingerprint : String) : List String :=
  (b.group fingerprint).filterMap fun id => (b.get? id).bind Entity.color?

def freeColors (b : Board) (fingerprint : String) : List String :=
  palette.filter fun color => !(b.usedColors fingerprint).contains color

/-- Colours a group, if it has two members or more. -/
def colorGroup (b : Board) (fingerprint : String) : Board :=
  if (b.group fingerprint).length > 1 then
    { b with entities := handOut (b.group fingerprint) (b.freeColors fingerprint) b.entities }
  else b

end SharedBoard.Board

import SharedBoard.Board.Basic

/-!
A check that the filled positions and the groups are what the entities say. It tests that each entity
is found where it should be and compares sizes, which leaves no room for anything else.
-/

namespace SharedBoard.Board

/-- An entity stands under its own id, fills its position and is in its group. -/
def isIndexed (b : Board) (id : EntityId) (e : Entity) : Bool :=
  e.id == id && e.position?.all (fun p => b.occupants.find? p == some id) &&
    e.fingerprint?.all (fun f => (b.group f).contains id)

def isConsistent (b : Board) : Bool :=
  b.entities.entries.all (fun entry => b.isIndexed entry.1 entry.2) &&
    (b.entities.values.filterMap Entity.position?).length == b.occupants.size &&
    (b.entities.values.filterMap Entity.fingerprint?).length ==
      b.groups.values.flatten.length &&
    b.groups.values.all (!·.isEmpty)

end SharedBoard.Board

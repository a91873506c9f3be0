import SharedBoard.Entity
import SharedBoard.SortedMap

/-!
The board: its entities by id, and two maps that follow from them, the filled positions and the groups
of characters that look the same. `unlink` and `link` take one entity out of the three maps and put
one in; every change of a board is made of them.
-/

namespace SharedBoard

structure Board where
  entities : SortedMap EntityId Entity
  /-- Who fills a position; pings fill none. -/
  occupants : SortedMap Position EntityId
  /-- The characters of one appearance, by fingerprint, in the order in which they came. -/
  groups : SortedMap String (List EntityId)
  deriving DecidableEq

namespace Board

def empty : Board := ⟨∅, ∅, ∅⟩

instance : Inhabited Board := ⟨empty⟩

def get? (b : Board) (id : EntityId) : Option Entity := b.entities.find? id

def contains (b : Board) (id : EntityId) : Bool := b.entities.contains id

def group (b : Board) (fingerprint : String) : List EntityId :=
  (b.groups.find? fingerprint).getD []

/-- Takes an id out of a group, and the group away with its last member. -/
def leaveGroup (groups : SortedMap String (List EntityId)) (fingerprint : String) (id : EntityId) :
    SortedMap String (List EntityId) :=
  match groups.find? fingerprint with
  | none => groups
  | some members =>
    match members.filter (· != id) with
    | [] => groups.erase fingerprint
    | rest => groups.insert fingerprint rest

/-- Frees a position, unless another id fills it. -/
def vacate (occupants : SortedMap Position EntityId) (p : Position) (id : EntityId) :
    SortedMap Position EntityId :=
  if occupants.find? p = some id then occupants.erase p else occupants

/-- Takes an entity that stands under an id out of the three maps. -/
def unlink (b : Board) (id : EntityId) (e : Entity) : Board where
  entities := b.entities.erase id
  occupants := e.position?.elim b.occupants fun p => vacate b.occupants p id
  groups := e.fingerprint?.elim b.groups fun f => leaveGroup b.groups f id

/-- Puts an entity into the three maps, last in its group. -/
def link (b : Board) (e : Entity) : Board where
  entities := b.entities.insert e.id e
  occupants := e.position?.elim b.occupants fun p => b.occupants.insert p e.id
  groups := e.fingerprint?.elim b.groups fun f => b.groups.insert f (b.group f ++ [e.id])

/-- Removes what stands under an id, and hands it out; there may be nothing. -/
def remove (b : Board) (id : EntityId) : Board × Option Entity :=
  match b.get? id with
  | none => (b, none)
  | some e => (b.unlink id e, some e)

def delete (b : Board) (id : EntityId) : Board := (b.remove id).1

@[simp] theorem get?_empty (id : EntityId) : empty.get? id = none := rfl

theorem get?_unlink (b : Board) (id : EntityId) (e : Entity) (k : EntityId) :
    (b.unlink id e).get? k = if k = id then none else b.get? k :=
  SortedMap.find?_erase b.entities id k

theorem get?_link (b : Board) (e : Entity) (k : EntityId) :
    (b.link e).get? k = if k = e.id then some e else b.get? k :=
  SortedMap.find?_insert b.entities e.id k e

theorem remove_snd (b : Board) (id : EntityId) : (b.remove id).2 = b.get? id := by
  cases h : b.get? id <;> simp [remove, h]

theorem delete_eq (b : Board) (id : EntityId) : b.delete id = (b.get? id).elim b (b.unlink id) := by
  cases h : b.get? id <;> simp [delete, remove, h]

theorem get?_delete (b : Board) (id k : EntityId) :
    (b.delete id).get? k = if k = id then none else b.get? k := by
  cases h : b.get? id with
  | none => by_cases hk : k = id <;> simp [delete_eq, hk, h]
  | some e => simp [delete_eq, h, get?_unlink]

end Board

end SharedBoard

import SharedBoard.Board.Coloring

/-!
Creating and replacing entities. A position belongs to whoever filled it first, so an entity that
would stand on another's position is left out. Only confirmed changes hand out colours: a guess that
may still be taken back gives none.
-/

namespace SharedBoard

/-- Whether a change is settled by the server or still a guess of this participant. -/
inductive Standing where
  | confirmed
  | optimistic
  deriving DecidableEq, Inhabited

namespace Board

/-- An entity has room when its position is free or its own; a ping always has. -/
def hasRoomFor (b : Board) (e : Entity) : Bool :=
  (e.position?.bind b.occupants.find?).all (· == e.id)

/-- Puts an entity in place of what stood under its id. -/
def replace (b : Board) (s : Standing) (e : Entity) : Board :=
  let removed := b.remove e.id
  let next := e.inheritColor removed.2
  let placed := removed.1.link next
  match s, next.fingerprint? with
  | .confirmed, some f => placed.colorGroup f
  | _, _ => placed

/-- Creates or replaces an entity if there is room for it, and else changes nothing. The reply tells
which. -/
def place (b : Board) (s : Standing) (e : Entity) : Board × Bool :=
  if b.hasRoomFor e then (b.replace s e, true) else (b, false)

def upsert (b : Board) (s : Standing) (e : Entity) : Board := (b.place s e).1

/-- The board that holds a list of entities, each confirmed in turn. -/
def ofEntities (es : List Entity) : Board := es.foldl (fun b e => b.upsert .confirmed e) empty

theorem place_snd (b : Board) (s : Standing) (e : Entity) : (b.place s e).2 = b.hasRoomFor e := by
  cases h : b.hasRoomFor e <;> simp [place, h]

theorem upsert_eq (b : Board) (s : Standing) (e : Entity) :
    b.upsert s e = if b.hasRoomFor e then b.replace s e else b := by
  unfold upsert place
  split <;> rfl

end Board

end SharedBoard

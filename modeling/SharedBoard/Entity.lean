import SharedBoard.Grid
import SharedBoard.Uuid

/-!
What stands on the board. Characters and floors each fill one position; pings are short-lived markers
that only name a cell and fill nothing.
-/

namespace SharedBoard

abbrev EntityId := Uuid

/-- What a token shows: a named icon or a short label. -/
inductive Contents where
  | icon (name : String)
  | text (label : String)
  deriving DecidableEq, Inhabited

namespace Contents

/-- One text per appearance: equal for two tokens exactly when they look the same. -/
def fingerprint : Contents → String
  | icon name => "icon:" ++ name
  | text label => "text:" ++ label

theorem fingerprint_inj {a b : Contents} : a.fingerprint = b.fingerprint ↔ a = b := by
  refine ⟨fun h => ?_, fun h => h ▸ rfl⟩
  have h := congrArg String.toList h
  cases a <;> cases b <;> simp_all [fingerprint, String.ext_iff]

end Contents

/-- A movable token, with a colour once it has to be told apart from its likes. -/
structure Character where
  id : EntityId
  pos : Position
  contents : Contents
  color : Option String := none
  deriving DecidableEq, Inhabited

structure Floor where
  id : EntityId
  pos : Position
  contents : Contents
  deriving DecidableEq, Inhabited

structure Ping where
  id : EntityId
  pos : Cell
  deriving DecidableEq, Inhabited

inductive Entity where
  | character (c : Character)
  | floor (f : Floor)
  | ping (p : Ping)
  deriving DecidableEq, Inhabited

namespace Entity

def id : Entity → EntityId
  | character c => c.id
  | floor f => f.id
  | ping p => p.id

/-- The position an entity fills; a ping fills none. -/
def position? : Entity → Option Position
  | character c => some c.pos
  | floor f => some f.pos
  | ping _ => none

def cell : Entity → Cell
  | character c => c.pos.cell
  | floor f => f.pos.cell
  | ping p => p.pos

def isPing : Entity → Bool
  | ping _ => true
  | _ => false

def character? : Entity → Option Character
  | character c => some c
  | _ => none

/-- The appearance that groups a character with its likes; other kinds join no group. -/
def fingerprint? (e : Entity) : Option String := e.character?.map fun c => c.contents.fingerprint

def color? (e : Entity) : Option String := e.character?.bind Character.color

/-- A character that comes without a colour takes over that of the character it replaces, as long as
both look the same. -/
def inheritColor : Entity → Option Entity → Entity
  | character next, some (character prev) =>
    if next.color = none ∧ next.contents = prev.contents then
      character { next with color := prev.color }
    else character next
  | e, _ => e

@[simp] theorem id_inheritColor (e : Entity) (prev : Option Entity) : (e.inheritColor prev).id = e.id := by
  unfold inheritColor; split <;> (try split) <;> rfl

@[simp] theorem position?_inheritColor (e : Entity) (prev : Option Entity) :
    (e.inheritColor prev).position? = e.position? := by
  unfold inheritColor; split <;> (try split) <;> rfl

@[simp] theorem fingerprint?_inheritColor (e : Entity) (prev : Option Entity) :
    (e.inheritColor prev).fingerprint? = e.fingerprint? := by
  unfold inheritColor; split <;> (try split) <;> rfl

theorem position?_eq_none_iff (e : Entity) : e.position? = none ↔ e.isPing := by
  cases e <;> simp [position?, isPing]

end Entity

end SharedBoard

import SharedBoard.Board.Basic

/-!
What can be asked of a board: who fills a position, the stack on a cell from bottom to top, and the
pings that point at a cell.
-/

namespace SharedBoard.Board

/-- All entities by increasing id. -/
def toList (b : Board) : List Entity := b.entities.values

def size (b : Board) : Nat := b.entities.size

def isEmpty (b : Board) : Bool := b.entities.isEmpty

def occupant? (b : Board) (p : Position) : Option Entity := (b.occupants.find? p).bind b.get?

/-- The stack on a cell, from bottom to top: one stretch of the filled positions. -/
def column (b : Board) (c : Cell) : List Entity :=
  (b.occupants.range (c.atHeight Int32.minValue) (c.atHeight Int32.maxValue)).filterMap
    fun e => b.get? e.2

def topmost? (b : Board) (c : Cell) : Option Entity := (b.column c).getLast?

/-- The lowest character on a cell, whatever floors it stands on. -/
def bottommostCharacter? (b : Board) (c : Cell) : Option Entity :=
  (b.column c).find? fun e => e.character?.isSome

/-- The ping with the lowest id among those on a cell. -/
def pingAt? (b : Board) (c : Cell) : Option Entity :=
  b.toList.find? fun e => e.isPing && e.cell == c

/-- Whether two boards hold the same entities, whatever the order within their groups. -/
def sameEntities (a b : Board) : Bool := a.entities == b.entities

end SharedBoard.Board

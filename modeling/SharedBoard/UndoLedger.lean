import SharedBoard.Action

/-!
The undo ledger. Entries say what local actions did, seen from the board before them, and are grouped
into sets that are undone and redone as one. A cursor points at the current set: the sets before it
are in force, and the set at it is the open one when it is the last, and else the set undone last.
-/

namespace SharedBoard

inductive UndoEntry where
  | create (e : Entity)
  | delete (e : Entity)
  | move (old new : Entity)
  deriving DecidableEq, Inhabited

namespace UndoEntry

/-- The entry for an action about to be taken on a board. Pings leave none, and neither does the
delete of nothing. -/
def ofAction? (b : Board) : Action → Option UndoEntry
  | .ping _ => none
  | .delete id =>
    match b.get? id with
    | some e => if e.isPing then none else some (delete e)
    | none => none
  | .upsert e =>
    if e.isPing then none
    else
      match b.get? e.id with
      | some old => if old.isPing then none else some (move old e)
      | none => some (create e)

def inverse : UndoEntry → Action
  | create e => .delete e.id
  | delete e => .upsert e
  | move old _ => .upsert old

def forward : UndoEntry → Action
  | create e => .upsert e
  | delete e => .delete e.id
  | move _ new => .upsert new

end UndoEntry

structure UndoLedger where
  sets : List (List UndoEntry)
  cursor : Nat
  /-- How many sealed sets are kept. -/
  limit : Nat
  deriving DecidableEq, Inhabited

namespace UndoLedger

/-- An empty ledger that keeps `limit` sealed sets, and one at the least. -/
def empty (limit : Nat) : UndoLedger := ⟨[[]], 0, max limit 1⟩

def canUndo (l : UndoLedger) : Bool := l.cursor > 0

def canRedo (l : UndoLedger) : Bool := l.cursor + 1 < l.sets.length

def appendToLast (entry : UndoEntry) : List (List UndoEntry) → List (List UndoEntry)
  | [] => []
  | [last] => [last ++ [entry]]
  | set :: sets => set :: appendToLast entry sets

/-- Records an entry in the open set. Undone sets, and what could be redone after them, give way to a
new open set. -/
def record (l : UndoLedger) (entry : UndoEntry) : UndoLedger :=
  let sets := if l.canRedo then l.sets.take l.cursor ++ [[]] else l.sets
  { l with sets := appendToLast entry sets }

/-- Seals the open set and starts another; none when it is empty or when there are undone sets. The
oldest sealed set goes when there are more than the limit. -/
def fence? (l : UndoLedger) : Option UndoLedger :=
  if l.canRedo || l.sets.getLast?.all List.isEmpty then none
  else
    let sets := l.sets ++ [[]]
    let cursor := l.cursor + 1
    if cursor > l.limit then some { l with sets := sets.tail, cursor := cursor - 1 }
    else some { l with sets := sets, cursor := cursor }

/-- Undoes the set before the cursor: its inverses, the latest entry first. -/
def stepBack? (l : UndoLedger) : Option (UndoLedger × List Action) :=
  if l.canUndo then
    (l.sets[l.cursor - 1]?).map fun set =>
      ({ l with cursor := l.cursor - 1 }, set.reverse.map UndoEntry.inverse)
  else none

/-- Redoes the set at the cursor: its forwards, in the order in which they were recorded. -/
def stepForward? (l : UndoLedger) : Option (UndoLedger × List Action) :=
  if l.canRedo then
    (l.sets[l.cursor]?).map fun set =>
      ({ l with cursor := l.cursor + 1 }, set.map UndoEntry.forward)
  else none

end UndoLedger

end SharedBoard

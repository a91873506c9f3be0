import SharedBoard.Text.Blank
import SharedBoard.Text.Decimal

/-!
Settings of a session, read from environment variables. A variable that is not set, or does not hold a
64-bit number, leaves the default.
-/

namespace SharedBoard

/-- How often unsent edits are sent, how long a ping stays, how many sealed undo sets are kept and how
many commands may wait. Times are in milliseconds. -/
structure Settings where
  batchInterval : Nat := 50
  pingLifetime : Nat := 3000
  maxUndoSets : Nat := 100
  queueCapacity : Nat := 64
  deriving DecidableEq, Inhabited

namespace Settings

/-- Reads a number below 2^64 from digits, with blanks around them and one plus sign before. -/
def number? (s : String) : Option Nat :=
  let cs := Blank.trim s.toList
  let digits := if cs.head? = some '+' then cs.tail else cs
  (Decimal.nat? digits).filter (· < UInt64.size)

def variableNames : List String :=
  ["BOARDSYNC_BATCH_INTERVAL_MS", "BOARDSYNC_PING_LIFETIME_MS", "BOARDSYNC_MAX_UNDO_SETS",
    "BOARDSYNC_COMMAND_QUEUE_CAPACITY"]

/-- The settings that an environment gives. A batch takes at least one millisecond and the queue has
at least one place. -/
def ofEnvironment (env : String → Option String) : Settings :=
  let read (name : String) (otherwise : Nat) : Nat := ((env name).bind number?).getD otherwise
  let standard : Settings := {}
  { batchInterval := max (read "BOARDSYNC_BATCH_INTERVAL_MS" standard.batchInterval) 1
    pingLifetime := read "BOARDSYNC_PING_LIFETIME_MS" standard.pingLifetime
    maxUndoSets := read "BOARDSYNC_MAX_UNDO_SETS" standard.maxUndoSets
    queueCapacity := max (read "BOARDSYNC_COMMAND_QUEUE_CAPACITY" standard.queueCapacity) 1 }

end Settings

end SharedBoard

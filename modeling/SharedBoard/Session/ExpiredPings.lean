import SharedBoard.SortedMap
import SharedBoard.Uuid

/-!
A bounded memory of the pings that expired last. It keeps the ids in the order in which they were
remembered, and a set of them to look them up.
-/

namespace SharedBoard

structure ExpiredPings where
  /-- The remembered ids, the oldest first. -/
  queue : List Uuid
  lookup : SortedSet Uuid
  deriving DecidableEq

namespace ExpiredPings

def capacity : Nat := 256

def empty : ExpiredPings := ⟨[], ∅⟩

def contains (m : ExpiredPings) (id : Uuid) : Bool := m.lookup.contains id

def forgetOldest (m : ExpiredPings) : ExpiredPings :=
  match m.queue with
  | [] => m
  | oldest :: rest => ⟨rest, m.lookup.erase oldest⟩

/-- Remembers an id that is not yet remembered, and forgets the oldest when there are too many. -/
def remember (m : ExpiredPings) (id : Uuid) : ExpiredPings :=
  if m.contains id then m
  else
    let next : ExpiredPings := ⟨m.queue ++ [id], m.lookup.insert id ()⟩
    if next.queue.length > capacity then next.forgetOldest else next

end ExpiredPings

end SharedBoard

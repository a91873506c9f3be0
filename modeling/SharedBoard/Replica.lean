import SharedBoard.UndoLedger

/-!
One participant's replica of a board. It holds what the server confirmed, the updates under way to the
server, the edits not yet sent, and the view that the participant sees: the confirmed board with every
pending action taken on top, in order. What does not apply any more, such as a delete of nothing or an
unknown update id, is a race with other participants and is passed over.
-/

namespace SharedBoard

structure Replica where
  confirmed : Board
  view : Board
  inFlight : List Update
  unsent : List Action
  ledger : UndoLedger
  deriving DecidableEq

/-- What a call reports besides the new state. -/
inductive Reply where
  | done
  | changed (b : Bool)
  | update (u : Option Update)
  | expired (ids : List EntityId)
  deriving DecidableEq

namespace Replica

def empty (undoLimit : Nat) : Replica := ⟨.empty, .empty, [], [], .empty undoLimit⟩

/-- The actions that the server has not confirmed: those under way, then those not yet sent. -/
def pending (r : Replica) : List Action := r.inFlight.flatMap Update.actions ++ r.unsent

def pendingCount (r : Replica) : Nat :=
  (r.inFlight.flatMap Update.actions).length + r.unsent.length

theorem length_pending (r : Replica) : r.pending.length = r.pendingCount := by
  rw [pending, pendingCount, List.length_append]

/-- The view from the start: every pending action taken on the confirmed board. -/
def replay (r : Replica) : Board := r.confirmed.applyAll .optimistic r.pending

def refresh (r : Replica) : Replica := { r with view := r.replay }

/-- Takes an update out of those under way, and tells whether it was there. -/
def settle (r : Replica) (id : UpdateId) : Replica × Bool :=
  let inFlight := r.inFlight.filter (·.id != id)
  ({ r with inFlight }, inFlight.length != r.inFlight.length)

/-- Confirmed actions come in. An id that names an update under way completes its round trip. -/
def receive (r : Replica) (actions : List Action) (id : Option UpdateId) : Replica :=
  let r := { r with confirmed := r.confirmed.applyAll .confirmed actions }
  (id.elim r fun id => (r.settle id).1).refresh

def load (r : Replica) (es : List Entity) : Replica :=
  { r with confirmed := .ofEntities es }.refresh

def reject (r : Replica) (id : UpdateId) : Replica × Bool :=
  match r.settle id with
  | (r, true) => (r.refresh, true)
  | (r, false) => (r, false)

/-- Takes a ping out of the confirmed board and out of the pending actions, in which updates that
become empty stay. -/
def expirePing (r : Replica) (id : EntityId) : Replica × Bool :=
  let isConfirmed := (r.confirmed.get? id).any Entity.isPing
  let stays (a : Action) : Bool := a.createdPing? != some id
  let next : Replica :=
    { r with
      confirmed := if isConfirmed then r.confirmed.delete id else r.confirmed
      inFlight := r.inFlight.map fun u => { u with actions := u.actions.filter stays }
      unsent := r.unsent.filter stays }
  if isConfirmed || next.pendingCount != r.pendingCount then (next.refresh, true) else (next, false)

/-- Takes an edit on the view and keeps it for sending, without a trace in the ledger. -/
def push (r : Replica) (a : Action) : Replica :=
  { r with view := r.view.apply .optimistic a, unsent := r.unsent ++ [a] }

/-- A local edit, recorded in the ledger as seen from the view before it. -/
def edit (r : Replica) (a : Action) : Replica :=
  let r := (UndoEntry.ofAction? r.view a).elim r fun entry => { r with ledger := r.ledger.record entry }
  r.push a

/-- Sends the unsent edits as one update; nothing is sent when there are none. -/
def collect (r : Replica) (id : UpdateId) : Replica × Option Update :=
  if r.unsent.isEmpty then (r, none)
  else
    let u : Update := ⟨id, r.unsent⟩
    ({ r with unsent := [], inFlight := r.inFlight ++ [u] }, some u)

def fence (r : Replica) : Replica × Bool :=
  r.ledger.fence?.elim (r, false) fun ledger => ({ r with ledger }, true)

/-- Moves the ledger and pushes the actions that this asks for. -/
def step (r : Replica) (move : Option (UndoLedger × List Action)) : Replica × Bool :=
  move.elim (r, false) fun (ledger, actions) => (actions.foldl push { r with ledger }, true)

def undo (r : Replica) : Replica × Bool := r.step r.ledger.stepBack?

def redo (r : Replica) : Replica × Bool := r.step r.ledger.stepForward?

inductive Call where
  | receive (actions : List Action) (id : Option UpdateId)
  | load (es : List Entity)
  | reject (id : UpdateId)
  | expirePing (id : EntityId)
  | edit (a : Action)
  | collect (id : UpdateId)
  | fence
  | undo
  | redo
  deriving DecidableEq

def call (r : Replica) : Call → Replica × Reply
  | .receive actions id => (r.receive actions id, .done)
  | .load es => (r.load es, .done)
  | .reject id => let (r, b) := r.reject id; (r, .changed b)
  | .expirePing id => let (r, b) := r.expirePing id; (r, .changed b)
  | .edit a => (r.edit a, .done)
  | .collect id => let (r, u) := r.collect id; (r, .update u)
  | .fence => let (r, b) := r.fence; (r, .changed b)
  | .undo => let (r, b) := r.undo; (r, .changed b)
  | .redo => let (r, b) := r.redo; (r, .changed b)

def run (r : Replica) (calls : List Call) : Replica := calls.foldl (fun r c => (r.call c).1) r

end Replica

end SharedBoard

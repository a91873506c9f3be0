import SharedBoard.Replica
import SharedBoard.Session.ExpiredPings
import SharedBoard.Settings

/-!
A session joins a replica with the lifetimes of its pings. A ping is timed from when it is first
sighted; later sightings do not prolong it. An id that expired a short while ago is remembered, and a
late echo of it from the server is passed over. Instants are whole milliseconds on the caller's clock.
-/

namespace SharedBoard

abbrev Instant := Int

structure Session where
  replica : Replica
  pingLifetime : Nat
  /-- When each timed ping expires. -/
  deadlines : SortedMap EntityId Instant
  expired : ExpiredPings
  deriving DecidableEq

namespace Session

def ofSettings (settings : Settings) : Session :=
  ⟨.empty settings.maxUndoSets, settings.pingLifetime, ∅, .empty⟩

def view (s : Session) : Board := s.replica.view

/-- Starts the lifetime of a ping that is not timed yet. -/
def track (s : Session) (now : Instant) (id : EntityId) : Session :=
  if s.deadlines.contains id then s
  else { s with deadlines := s.deadlines.insert id (now + s.pingLifetime) }

def trackAll (s : Session) (now : Instant) (ids : List EntityId) : Session :=
  ids.foldl (·.track now) s

/-- A snapshot from the server, on connecting or connecting again. -/
def initialState (s : Session) (now : Instant) (es : List Entity) : Session :=
  let es := es.filter fun e => !(e.isPing && s.expired.contains e.id)
  let s := s.trackAll now ((es.filter Entity.isPing).map Entity.id)
  { s with replica := s.replica.load es }

/-- Confirmed actions from the server: an update of ours that comes back, or one of another. -/
def confirmed (s : Session) (now : Instant) (id : UpdateId) (actions : List Action) : Session :=
  let actions := actions.filter fun a => !a.createdPing?.any s.expired.contains
  let s := s.trackAll now (actions.filterMap Action.createdPing?)
  { s with replica := s.replica.receive actions (some id) }

def rejected (s : Session) (id : UpdateId) : Session × Bool :=
  let (replica, known) := s.replica.reject id
  ({ s with replica }, known)

def collect (s : Session) (id : UpdateId) : Session × Option Update :=
  let (replica, update) := s.replica.collect id
  ({ s with replica }, update)

def edit (s : Session) (a : Action) : Session := { s with replica := s.replica.edit a }

def ping (s : Session) (now : Instant) (id : EntityId) (c : Cell) : Session :=
  (s.track now id).edit (.ping ⟨id, c⟩)

def fence (s : Session) : Session × Bool :=
  let (replica, sealed) := s.replica.fence
  ({ s with replica }, sealed)

/-- Undoes the edits since the last fence, or the set before it when there are none. -/
def undo (s : Session) : Session × Bool :=
  let (replica, undone) := s.replica.fence.1.undo
  ({ s with replica }, undone)

def redo (s : Session) : Session × Bool :=
  let (replica, redone) := s.replica.redo
  ({ s with replica }, redone)

def nextDeadline? (s : Session) : Option Instant := s.deadlines.values.min?

/-- Removes a timed ping and remembers it. -/
def expire (s : Session) (id : EntityId) : Session :=
  { s with
    deadlines := s.deadlines.erase id
    replica := (s.replica.expirePing id).1
    expired := s.expired.remember id }

/-- Removes the pings whose deadline is not later than `now`, by increasing id, and tells which. -/
def expirePings (s : Session) (now : Instant) : Session × List EntityId :=
  let ids := (s.deadlines.entries.filter fun e => e.2 ≤ now).map Prod.fst
  (ids.foldl expire s, ids)

inductive Call where
  | initialState (es : List Entity)
  | confirmed (id : UpdateId) (actions : List Action)
  | rejected (id : UpdateId)
  | collect (id : UpdateId)
  | upsert (e : Entity)
  | delete (id : EntityId)
  | ping (id : EntityId) (c : Cell)
  | undo
  | redo
  | fence
  | expirePings (now : Instant)
  deriving DecidableEq

def call (s : Session) (now : Instant) : Call → Session × Reply
  | .initialState es => (s.initialState now es, .done)
  | .confirmed id actions => (s.confirmed now id actions, .done)
  | .rejected id => let (s, known) := s.rejected id; (s, .changed known)
  | .collect id => let (s, update) := s.collect id; (s, .update update)
  | .upsert e => (s.edit (.upsert e), .done)
  | .delete id => (s.edit (.delete id), .done)
  | .ping id c => (s.ping now id c, .done)
  | .undo => let (s, undone) := s.undo; (s, .changed undone)
  | .redo => let (s, redone) := s.redo; (s, .changed redone)
  | .fence => let (s, sealed) := s.fence; (s, .changed sealed)
  | .expirePings now => let (s, ids) := s.expirePings now; (s, .expired ids)

def run (s : Session) (calls : List (Instant × Call)) : Session :=
  calls.foldl (fun s c => (s.call c.1 c.2).1) s

end Session

end SharedBoard

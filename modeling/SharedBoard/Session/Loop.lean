import SharedBoard.Session.Basic

/-!
The loop that owns a running session. Callers put commands into its mailbox and read the view that it
published last. At every tick it removes expired pings and sends the unsent edits as an update. It
stops when nobody receives its updates any more, or when nobody can send it a command any more; then
it sends what is left first. `fresh` supplies new ids by number.
-/

namespace SharedBoard

inductive Command where
  | initialState (es : List Entity)
  | confirmed (id : UpdateId) (actions : List Action)
  | rejected (id : UpdateId)
  | upsert (e : Entity)
  | delete (id : EntityId)
  | ping (c : Cell)
  | undo
  | redo
  | fence
  deriving DecidableEq

def Command.toCall (newId : Uuid) : Command → Session.Call
  | initialState es => .initialState es
  | confirmed id actions => .confirmed id actions
  | rejected id => .rejected id
  | upsert e => .upsert e
  | delete id => .delete id
  | ping c => .ping newId c
  | undo => .undo
  | redo => .redo
  | fence => .fence

def Command.takesId : Command → Bool
  | ping _ => true
  | _ => false

structure Loop where
  session : Session
  published : Board
  mailbox : List Command
  /-- Whether anyone can still send a command. -/
  hasSender : Bool
  outbox : List Update
  /-- Whether anyone still receives updates. -/
  hasReceiver : Bool
  running : Bool
  now : Instant
  nextTick : Instant
  interval : Nat
  /-- How many new ids were taken. -/
  taken : Nat
  deriving DecidableEq

namespace Loop

/-- The longest time between two ticks: thirty years of 365 days, in milliseconds. -/
def longestInterval : Nat := 30 * 365 * 86400000

/-- A loop about to start at time 0, where its first tick is due. Ticks are at least one millisecond
apart, and at most the longest interval. -/
def ofSettings (settings : Settings) : Loop where
  session := .ofSettings settings
  published := .empty
  mailbox := []
  hasSender := true
  outbox := []
  hasReceiver := true
  running := true
  now := 0
  nextTick := 0
  interval := min (max settings.batchInterval 1) longestInterval
  taken := 0

def publish (l : Loop) : Loop := { l with published := l.session.view }

/-- Collects the unsent edits under a new id and sends them. The result tells whether they could be
sent, or there were none. -/
def flush (fresh : Nat → Uuid) (l : Loop) : Loop × Bool :=
  let (session, update) := l.session.collect (fresh l.taken)
  let l := { l with session, taken := l.taken + 1 }
  match update with
  | none => (l, true)
  | some u => if l.hasReceiver then ({ l with outbox := l.outbox ++ [u] }, true) else (l, false)

def handle (fresh : Nat → Uuid) (l : Loop) (c : Command) : Loop :=
  let session := (l.session.call l.now (c.toCall (fresh l.taken))).1
  { l with session, taken := if c.takesId then l.taken + 1 else l.taken }.publish

/-- One turn at the mailbox: the next command, or the end when none can come any more. -/
def receive (fresh : Nat → Uuid) (l : Loop) : Loop :=
  if !l.running then l
  else
    match l.mailbox with
    | c :: rest => { l with mailbox := rest }.handle fresh c
    | [] => if l.hasSender then l else { (l.flush fresh).1 with running := false }

def isTickDue (l : Loop) : Bool := l.running && l.nextTick ≤ l.now

/-- By how many milliseconds a tick can be late and count as in time. -/
def tolerance : Nat := 5

/-- When the tick after one that is taken now is due. Ticks that were in time come an interval apart,
so that they catch up one by one. After a longer delay those that were missed are skipped, up to the
first multiple of the interval after now. -/
def tickAfter (l : Loop) : Instant :=
  if l.now ≤ l.nextTick + tolerance then l.nextTick + l.interval
  else l.now + l.interval - (l.now - l.nextTick) % l.interval

/-- One tick, if it is due. A clock that is set back later does not bring the next one forward. -/
def tick (fresh : Nat → Uuid) (l : Loop) : Loop :=
  if l.isTickDue then
    let (session, expired) := l.session.expirePings l.now
    let l := { l with session, nextTick := l.tickAfter }
    let (l, sent) := (if expired.isEmpty then l else l.publish).flush fresh
    { l with running := sent }
  else l

/-- Takes every tick that is due, which are no more than the tolerance allows, and then every turn at
the mailbox, until there is nothing to do. -/
def settle (fresh : Nat → Uuid) (l : Loop) : Loop :=
  (l.mailbox.length + 1).repeat (receive fresh) ((tolerance + 1).repeat (tick fresh) l)

def closedMessage : String := "board session closed"

inductive Event where
  | send (c : Command)
  /-- The clock moves, back if `ms` is negative. -/
  | advance (ms : Int)
  | dropReceiver
  | dropSender
  deriving DecidableEq

/-- Commands to a stopped loop are lost. -/
def occur (l : Loop) : Event → Loop
  | .send c => if l.running && l.hasSender then { l with mailbox := l.mailbox ++ [c] } else l
  | .advance ms => { l with now := l.now + ms }
  | .dropReceiver => { l with hasReceiver := false }
  | .dropSender => { l with hasSender := false }

/-- The loop at rest after an event. -/
def step (fresh : Nat → Uuid) (l : Loop) (e : Event) : Loop := (l.occur e).settle fresh

def start (fresh : Nat → Uuid) (settings : Settings) : Loop := (ofSettings settings).settle fresh

end Loop

end SharedBoard

import SharedBoard.Board.Query
import SharedBoard.Session.Loop
import SharedBoard.Text.Blank
import SharedBoard.Wire.Decode
import SharedBoard.Wire.Encode

/-!
Session scripts. A script has one JSON event on a line; blank lines and lines that start with a number
sign are passed over, but counted. Playing a script takes its events in order on a new session, in
which no ping expires, and prints the entities of one of its boards. A script with a line that is no
event prints nothing.
-/

namespace SharedBoard.Script

open Json (Fault Misfit)
open Wire (Variants)
open Wire.Fields (required nullable)

inductive Event where
  | command (c : Command)
  /-- Sends the unsent edits under an id, or under a new one. -/
  | collect (id : Option UpdateId)
  deriving DecidableEq

def event : Variants Event where
  tag := "event"
  kinds :=
    [("initial_state",
        (fun es => .command (.initialState es)) <$> required "entities" (Wire.list Wire.entity.ofInner)),
      ("confirmed",
        (fun id as => .command (.confirmed id as)) <$> required "update_id" Wire.uuid <*>
          required "actions" (Wire.list Wire.action.ofInner)),
      ("rejected", (fun id => .command (.rejected id)) <$> required "update_id" Wire.uuid),
      ("upsert", (fun e => .command (.upsert e)) <$> required "entity" Wire.entity.ofInner),
      ("delete", (fun id => .command (.delete id)) <$> required "entity_id" Wire.uuid),
      ("ping", (fun c => .command (.ping c)) <$> required "cell" Wire.cell),
      ("undo", pure (.command .undo)),
      ("redo", pure (.command .redo)),
      ("fence", pure (.command .fence)),
      ("collect", Event.collect <$> nullable "update_id" Wire.uuid)]

def Event.ofText (text : String) : Except Fault Event := event.ofText text

/-! ## Lines -/

/-- Puts a character before the first line, or starts a new line before it. -/
def consChar (c : Char) : List (List Char) → List (List Char)
  | [] => if c = '\n' then [[], []] else [[c]]
  | line :: lines => if c = '\n' then [] :: line :: lines else (c :: line) :: lines

def lines (cs : List Char) : List (List Char) := cs.foldr consChar [[]]

/-- Lines put together again give the text. -/
theorem intercalate_lines (cs : List Char) : List.intercalate ['\n'] (lines cs) = cs := by
  induction cs with
  | nil => rfl
  | cons c cs ih =>
    show List.intercalate ['\n'] (consChar c (lines cs)) = c :: cs
    rw [consChar.eq_def]
    split
    case h_1 h => simp [h] at ih; split <;> simp_all
    case h_2 line rest h =>
      rw [h] at ih
      split
      case isTrue hc => simp [List.intercalate_cons_cons, ih, hc]
      case isFalse =>
        cases rest <;> simp_all [List.intercalate_cons_cons]

def isSignificant (line : List Char) : Bool := !line.isEmpty && line.head? != some '#'

/-- The lines that hold events, trimmed, with their numbers counted from 1. -/
def significantLines (text : String) : List (List Char × Nat) :=
  (((lines text.toList).map Blank.trim).zipIdx 1).filter fun l => isSignificant l.1

/-- A line that is no event. -/
structure BadLine where
  number : Nat
  fault : Fault
  deriving DecidableEq

def readLine (line : List Char × Nat) : Except BadLine Event :=
  (Event.ofText (String.ofList line.1)).mapError (⟨line.2, ·⟩)

/-- The events of a script, or the first bad line. -/
def events (text : String) : Except BadLine (List Event) := (significantLines text).mapM readLine

/-! ## Playing -/

structure Playback where
  session : Session
  taken : Nat
  deriving DecidableEq

def Playback.step (fresh : Nat → Uuid) (p : Playback) : Event → Playback
  | .command c =>
    { session := (p.session.call 0 (c.toCall (fresh p.taken))).1
      taken := if c.takesId then p.taken + 1 else p.taken }
  | .collect (some id) => { p with session := (p.session.collect id).1 }
  | .collect none => { session := (p.session.collect (fresh p.taken)).1, taken := p.taken + 1 }

def play (fresh : Nat → Uuid) (settings : Settings) (es : List Event) : Session :=
  (es.foldl (Playback.step fresh) ⟨.ofSettings settings, 0⟩).session

/-- The boards of a session that can be printed. -/
inductive Layer where
  | view
  | confirmed
  deriving DecidableEq, Inhabited

def Layer.board : Layer → Session → Board
  | .view, s => s.view
  | .confirmed, s => s.replica.confirmed

/-- A board's entities by increasing id, as indented JSON. -/
def render (b : Board) : String := (Json.arr (b.toList.map Entity.toJson)).pretty ++ "\n"

def run (fresh : Nat → Uuid) (settings : Settings) (layer : Layer) (text : String) :
    Except BadLine String :=
  (events text).map fun es => render (layer.board (play fresh settings es))

end SharedBoard.Script

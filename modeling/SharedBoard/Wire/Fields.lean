import SharedBoard.Json.Basic

/-!
Records in JSON. A record is an object with its fields as members, in any order and with others among
them, or an array of its fields in their declared order. Each fault has a place, the index of the
member or element that shows it, and the fault at the earliest place counts; a missing field shows
only after the last member.
-/

namespace SharedBoard.Wire

open Json (Misfit)

inductive Body where
  | members (ms : List (String × Json))
  | elements (es : List Json)

/-- The body of a record; nothing but an object or an array has one. -/
def bodyOf : Json → Except Misfit Body
  | .obj ms => .ok (.members ms)
  | .arr es => .ok (.elements es)
  | _ => .error .invalidType

/-- A value, or a fault and its place. -/
abbrev Placed (α : Type) := Except (Nat × Misfit) α

/-- Both values, or the fault at the earlier place, the first of two at the same one. -/
def Placed.both {α β : Type} : Placed α → Placed β → Placed (α × β)
  | .ok a, .ok b => .ok (a, b)
  | .error p, .ok _ => .error p
  | .ok _, .error q => .error q
  | .error p, .error q => .error (if q.1 < p.1 then q else p)

structure Fields (α : Type) where
  count : Nat
  /-- Reads the fields from a body in which `start` other fields are declared before them. -/
  read : (start : Nat) → Body → Placed α

namespace Fields

def map {α β : Type} (g : α → β) (f : Fields α) : Fields β :=
  ⟨f.count, fun start body => (f.read start body).map g⟩

/-- Two groups of fields, the second declared after the first. -/
def both {α β : Type} (f : Fields α) (g : Fields β) : Fields (α × β) :=
  ⟨f.count + g.count, fun start body => (f.read start body).both (g.read (start + f.count) body)⟩

def constant {α : Type} (a : α) : Fields α := ⟨0, fun _ _ => .ok a⟩

instance : Applicative Fields where
  pure := constant
  map := map
  seq f x := (f.both (x ())).map fun p => p.1 p.2

/-- Where the members of a name stand, and their values. -/
def occurrences (name : String) (ms : List (String × Json)) : List (Json × Nat) :=
  (ms.zipIdx.filter fun m => m.1.1 == name).map fun m => (m.1.2, m.2)

/-- One field. `absent` stands in for a member that is not there, `beyond` for an element that is not
there. A second member of its name is a fault, at its own place. -/
def one {α : Type} (name : String) (decode : Json → Except Misfit α) (absent beyond : Except Misfit α) :
    Fields α where
  count := 1
  read start
    | .members ms =>
      match occurrences name ms with
      | [] => absent.mapError (ms.length, ·)
      | (v, i) :: more => do
        let a ← (decode v).mapError (i, ·)
        match more with
        | [] => return a
        | (_, j) :: _ => throw (j, .duplicateField name)
    | .elements es =>
      match es[start]? with
      | some v => (decode v).mapError (start, ·)
      | none => beyond.mapError (start, ·)

def required {α : Type} (name : String) (decode : Json → Except Misfit α) : Fields α :=
  one name decode (.error (.missingField name)) (.error .invalidLength)

/-- Null stands for nothing. -/
def orNull {α : Type} (decode : Json → Except Misfit α) : Json → Except Misfit (Option α)
  | .null => .ok none
  | v => (decode v).map some

/-- A field that an object may leave out, and an array at its end. -/
def optional {α : Type} (name : String) (decode : Json → Except Misfit α) : Fields (Option α) :=
  one name (orNull decode) (.ok none) (.ok none)

/-- A field that an object may leave out, but an array may not. -/
def nullable {α : Type} (name : String) (decode : Json → Except Misfit α) : Fields (Option α) :=
  one name (orNull decode) (.ok none) (.error .invalidLength)

/-- Reads a whole record. Elements after the last field are a fault, and the last to show. -/
def decode {α : Type} (f : Fields α) (body : Body) : Except Misfit α :=
  match f.read 0 body, body with
  | .error p, _ => .error p.2
  | .ok a, .members _ => .ok a
  | .ok a, .elements es => if es.length > f.count then .error .invalidLength else .ok a

def ofJson {α : Type} (f : Fields α) (v : Json) : Except Misfit α := bodyOf v >>= f.decode

end Fields

end SharedBoard.Wire

import SharedBoard.Board.Upsert

/-!
Actions are the unit of change, of local edits and of server data alike. An update is a batch of them
that travels under one id.
-/

namespace SharedBoard

abbrev UpdateId := Uuid

inductive Action where
  | upsert (e : Entity)
  | delete (id : EntityId)
  | ping (p : Ping)
  deriving DecidableEq, Inhabited

structure Update where
  id : UpdateId
  actions : List Action
  deriving DecidableEq, Inhabited

namespace Action

def target : Action → EntityId
  | upsert e => e.id
  | delete id => id
  | ping p => p.id

/-- The ping that an action puts on the board, in either of the two ways. -/
def createdPing? : Action → Option EntityId
  | ping p => some p.id
  | upsert (.ping p) => some p.id
  | _ => none

end Action

namespace Board

/-- Takes an action. The reply tells whether it had an effect: deletes of nothing and upserts without
room have none. -/
def perform (b : Board) (s : Standing) : Action → Board × Bool
  | .upsert e => b.place s e
  | .delete id =>
    let removed := b.remove id
    (removed.1, removed.2.isSome)
  | .ping p => b.place s (.ping p)

def apply (b : Board) (s : Standing) (a : Action) : Board := (b.perform s a).1

@[simp] theorem apply_upsert (b : Board) (s : Standing) (e : Entity) :
    b.apply s (.upsert e) = b.upsert s e := rfl

@[simp] theorem apply_delete (b : Board) (s : Standing) (id : EntityId) :
    b.apply s (.delete id) = b.delete id := rfl

/-- What the reply depends on, for a guess and a confirmed action alike. -/
def takes (b : Board) : Action → Bool
  | .upsert e => b.hasRoomFor e
  | .delete id => b.contains id
  | .ping p => b.hasRoomFor (.ping p)

theorem perform_snd (b : Board) (s : Standing) (a : Action) : (b.perform s a).2 = b.takes a := by
  cases a with
  | upsert e => exact b.place_snd s e
  | delete id => exact congrArg Option.isSome (b.remove_snd id)
  | ping p => exact b.place_snd s (.ping p)

def applyAll (b : Board) (s : Standing) (actions : List Action) : Board :=
  actions.foldl (fun b a => b.apply s a) b

@[simp] theorem applyAll_nil (b : Board) (s : Standing) : b.applyAll s [] = b := rfl

@[simp] theorem applyAll_cons (b : Board) (s : Standing) (a : Action) (as : List Action) :
    b.applyAll s (a :: as) = (b.apply s a).applyAll s as := rfl

theorem applyAll_append (b : Board) (s : Standing) (as bs : List Action) :
    b.applyAll s (as ++ bs) = (b.applyAll s as).applyAll s bs := List.foldl_append

end Board

end SharedBoard

import SharedBoard.Proofs.Replica.Acknowledgement
import SharedBoard.Proofs.Replica.Histories

/-! What participants share. The confirmed board is a function of what came from the server and of
the pings that expired; the calls that a participant makes on its own leave no trace in it, so
participants who were sent the same agree on it. -/
namespace SharedBoard

/-- What reaches the confirmed board. -/
inductive Input where
  | actions (as : List Action)
  | snapshot (es : List Entity)
  | expiry (id : EntityId)
  deriving DecidableEq

/-- A board after an input. -/
def Board.absorb (b : Board) : Input → Board
  | .actions as => b.applyAll .confirmed as
  | .snapshot es => .ofEntities es
  | .expiry id => if (b.get? id).any Entity.isPing then b.delete id else b

namespace Replica

/-- The input that a call brings. Which update it acknowledges is not part of it. -/
def Call.input? : Call → Option Input
  | .receive actions _ => some (.actions actions)
  | .load es => some (.snapshot es)
  | .expirePing id => some (.expiry id)
  | _ => none

/-- All inputs of a run, in order. -/
def inputs (calls : List Call) : List Input := calls.filterMap Call.input?

theorem confirmed_call_input (r : Replica) (c : Call) :
    (r.call c).1.confirmed = c.input?.elim r.confirmed r.confirmed.absorb := by
  cases c with
  | receive actions id => exact confirmed_receive r actions id
  | load es => rfl
  | expirePing id => exact confirmed_expirePing r id
  | reject id => exact confirmed_reject r id
  | edit a => exact confirmed_edit r a
  | collect id => exact confirmed_collect r id
  | fence => exact confirmed_fence r
  | undo => exact confirmed_step r _
  | redo => exact confirmed_step r _

theorem confirmed_run_inputs (r : Replica) (calls : List Call) :
    (r.run calls).confirmed = (inputs calls).foldl Board.absorb r.confirmed := by
  induction calls generalizing r with
  | nil => rfl
  | cons c cs ih =>
    rw [run_cons, ih, confirmed_call_input]
    cases hc : c.input? with
    | none => rw [inputs, inputs, List.filterMap_cons_none hc, Option.elim_none]
    | some i => rw [inputs, inputs, List.filterMap_cons_some hc, Option.elim_some, List.foldl_cons]

/-- With nothing pending there is nothing to take on the confirmed board. -/
theorem Reachable.view_eq_confirmed {r : Replica} (h : r.Reachable) (hpending : r.pending = []) :
    r.view = r.confirmed := by
  rw [h.inStep, replay, hpending, Board.applyAll_nil]

/-- Two participants with the same inputs have the same confirmed board, down to the order within
its groups, whatever each of them edits, sends, takes back and has refused in between. With nothing
pending they see the same. -/
theorem boards_eq_of_inputs_eq (undoLimit undoLimit' : Nat) {cs ds : List Call}
    (h : inputs cs = inputs ds) :
    let r := (empty undoLimit).run cs
    let s := (empty undoLimit').run ds
    r.confirmed = s.confirmed ∧ (r.pending = [] → s.pending = [] → r.view = s.view) := by
  intro r s
  have hconfirmed : r.confirmed = s.confirmed := by
    rw [confirmed_run_inputs, confirmed_run_inputs, h]
    rfl
  refine ⟨hconfirmed, ?_⟩
  intro hr hs
  rw [(reachable_run undoLimit cs).view_eq_confirmed hr, hconfirmed,
    (reachable_run undoLimit' ds).view_eq_confirmed hs]

/-- Places two orcs and then moves the first, in two updates that come back while a ping comes and
goes. -/
def sendsOrcs : List Call :=
  [.edit (.upsert (orcAt 1 0)), .edit (.upsert (orcAt 2 1)), .collect (.ofNat 8),
    .receive [.upsert (orcAt 1 0), .upsert (orcAt 2 1)] (some (.ofNat 8)), .fence,
    .receive [.ping ⟨.ofNat 9, ⟨0, 0⟩⟩] none, .expirePing (.ofNat 9), .edit (.upsert (orcAt 1 3)),
    .collect (.ofNat 7), .receive [.upsert (orcAt 1 3)] (some (.ofNat 7))]

/-- Sees the same orcs come, and has edits of its own refused, of which it took one back. -/
def watchesOrcs : List Call :=
  [.edit (.upsert (orcAt 5 1)), .collect (.ofNat 6),
    .receive [.upsert (orcAt 1 0), .upsert (orcAt 2 1)] none,
    .receive [.ping ⟨.ofNat 9, ⟨0, 0⟩⟩] (some (.ofNat 4)), .reject (.ofNat 6), .fence,
    .edit (.delete (.ofNat 1)), .fence, .undo, .expirePing (.ofNat 9), .redo, .collect (.ofNat 3),
    .receive [.upsert (orcAt 1 3)] none, .reject (.ofNat 3)]

theorem boards_eq_of_inputs_eq_orcs :
    inputs sendsOrcs = inputs watchesOrcs ∧
      (let r := (empty 1).run sendsOrcs
        let s := (empty 3).run watchesOrcs
        r.confirmed = s.confirmed ∧ (r.pending = [] ∧ s.pending = []) ∧ r.view = s.view ∧
          r.view.color? (.ofNat 1) = some "#D94B4B") := by
  have hinputs : inputs sendsOrcs = inputs watchesOrcs := by decide
  have hpending : ((empty 1).run sendsOrcs).pending = [] ∧
      ((empty 3).run watchesOrcs).pending = [] := by decide
  obtain ⟨hconfirmed, hview⟩ := boards_eq_of_inputs_eq 1 3 hinputs
  exact ⟨hinputs, hconfirmed, hpending, hview hpending.1 hpending.2, by decide⟩

end Replica

end SharedBoard

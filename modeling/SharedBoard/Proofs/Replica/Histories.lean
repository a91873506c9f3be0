import SharedBoard.Proofs.Board.Changes
import SharedBoard.Proofs.Replica.Replay

/-! The histories of a replica's two boards. What the server sends makes the confirmed board; the
pending actions come on top of that in the view. Both boards are coherent along their histories. -/
namespace SharedBoard.Replica

@[simp] theorem confirmed_pushAll (r : Replica) (as : List Action) :
    (as.foldl push r).confirmed = r.confirmed := by
  induction as generalizing r with
  | nil => rfl
  | cons a as ih => exact ih (r.push a)

@[simp] theorem confirmed_step (r : Replica) (move : Option (UndoLedger × List Action)) :
    (r.step move).1.confirmed = r.confirmed := by
  cases move with
  | none => rfl
  | some move => exact confirmed_pushAll _ move.2

@[simp] theorem confirmed_edit (r : Replica) (a : Action) : (r.edit a).confirmed = r.confirmed := by
  unfold edit
  cases UndoEntry.ofAction? r.view a <;> rfl

@[simp] theorem confirmed_collect (r : Replica) (id : UpdateId) :
    (r.collect id).1.confirmed = r.confirmed := by
  unfold collect
  split <;> rfl

@[simp] theorem confirmed_fence (r : Replica) : r.fence.1.confirmed = r.confirmed := by
  unfold fence
  cases r.ledger.fence? <;> rfl

@[simp] theorem confirmed_reject (r : Replica) (id : UpdateId) :
    (r.reject id).1.confirmed = r.confirmed := by
  rw [reject_eq]
  split <;> rfl

@[simp] theorem confirmed_expirePing (r : Replica) (id : EntityId) :
    (r.expirePing id).1.confirmed = (r.withoutPing id).confirmed := by
  rw [expirePing_eq]
  split <;> rfl

@[simp] theorem confirmed_receive (r : Replica) (actions : List Action) (id : Option UpdateId) :
    (r.receive actions id).confirmed = r.confirmed.applyAll .confirmed actions := by
  cases id <;> rfl

/-- The changes behind the confirmed board after a call, from those before it. -/
def pastAfter (r : Replica) (past : List Change) : Call → List Change
  | .receive actions _ => past ++ actions.map (Change.ofAction .confirmed)
  | .load es => es.map (Change.upsert .confirmed)
  | .expirePing id =>
    if (r.confirmed.get? id).any Entity.isPing then past ++ [.delete id] else past
  | _ => past

def history (r : Replica) (past : List Change) : List Call → List Change
  | [] => past
  | c :: cs => history (r.call c).1 (r.pastAfter past c) cs

theorem confirmed_call {r : Replica} {past : List Change}
    (h : r.confirmed = Board.empty.changeAll past) (c : Call) :
    (r.call c).1.confirmed = Board.empty.changeAll (r.pastAfter past c) := by
  cases c with
  | receive actions id =>
    simp only [call, pastAfter, confirmed_receive]
    rw [Board.changeAll_append, ← h, Board.applyAll_eq_changeAll]
  | load es => exact Board.ofEntities_eq_changeAll es
  | reject id => simpa [call, pastAfter] using h
  | expirePing id =>
    simp only [call, pastAfter, confirmed_expirePing, withoutPing]
    split
    · rw [Board.changeAll_concat, ← h]
      rfl
    · exact h
  | edit a => simpa [call, pastAfter] using h
  | collect id => simpa [call, pastAfter] using h
  | fence => simpa [call, pastAfter] using h
  | undo => simpa [call, pastAfter, undo] using h
  | redo => simpa [call, pastAfter, redo] using h

theorem confirmed_run {r : Replica} {past : List Change}
    (h : r.confirmed = Board.empty.changeAll past) (calls : List Call) :
    (r.run calls).confirmed = Board.empty.changeAll (r.history past calls) := by
  induction calls generalizing r past with
  | nil => exact h
  | cons c cs ih => exact ih (confirmed_call h c)

theorem InStep.view_eq {r : Replica} (h : r.InStep) {past : List Change}
    (hpast : r.confirmed = Board.empty.changeAll past) :
    r.view = Board.empty.changeAll (past ++ r.pending.map (Change.ofAction .optimistic)) := by
  rw [h, replay, hpast, Board.applyAll_eq_changeAll, Board.changeAll_append]

theorem Reachable.indexed {r : Replica} (h : r.Reachable) :
    r.confirmed.Indexed ∧ r.view.Indexed := by
  have hstep := h.inStep
  obtain ⟨n, calls, rfl⟩ := h
  have hconfirmed : ((empty n).run calls).confirmed =
      Board.empty.changeAll ((empty n).history [] calls) := confirmed_run rfl calls
  refine ⟨hconfirmed ▸ Board.indexed_empty.changeAll _, ?_⟩
  rw [hstep.view_eq hconfirmed]
  exact Board.indexed_empty.changeAll _

/-- Every history leaves a coherent board, and so do the histories of the confirmed board and of the
view in every run of a replica. -/
theorem boards_coherent :
    (∀ cs : List Change, (Board.empty.changeAll cs).Coherent cs) ∧
    ∀ (undoLimit : Nat) (calls : List Call),
      let r := (empty undoLimit).run calls
      let past := (empty undoLimit).history [] calls
      let all := past ++ r.pending.map (Change.ofAction .optimistic)
      (r.confirmed = Board.empty.changeAll past ∧ r.confirmed.Coherent past) ∧
        r.view = Board.empty.changeAll all ∧ r.view.Coherent all := by
  refine ⟨Board.coherent_changeAll, ?_⟩
  intro undoLimit calls r past all
  have hconfirmed : r.confirmed = Board.empty.changeAll past := confirmed_run rfl calls
  have hview : r.view = Board.empty.changeAll all :=
    (reachable_run undoLimit calls).inStep.view_eq hconfirmed
  refine ⟨⟨hconfirmed, ?_⟩, hview, ?_⟩
  · rw [hconfirmed]
    exact Board.coherent_changeAll past
  · rw [hview]
    exact Board.coherent_changeAll all

end SharedBoard.Replica

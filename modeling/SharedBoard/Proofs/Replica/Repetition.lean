import SharedBoard.Proofs.Board.Repetition
import SharedBoard.Proofs.Replica.Acknowledgement

/-! A confirmation that comes in twice. The queue and the unsent edits are the same after the second
time as after the first; the boards are, exactly if confirming the batch again leaves the confirmed
board alone. It need not: an action that found no room may find some the second time. -/
namespace SharedBoard.Replica

theorem inFlight_receive_again (r : Replica) (actions : List Action) (id : Option UpdateId) :
    ((r.receive actions id).receive actions id).inFlight = (r.receive actions id).inFlight := by
  cases id with
  | none => rfl
  | some id => simp only [inFlight_receive, List.filter_filter, Bool.and_self]

theorem pending_receive_again (r : Replica) (actions : List Action) (id : Option UpdateId) :
    ((r.receive actions id).receive actions id).pending = (r.receive actions id).pending := by
  rw [pending, pending, inFlight_receive_again, unsent_receive]

/-- Over confirmed boards that hold the same, the same pending actions build the same view. -/
theorem view_receive_again {r : Replica} (hr : r.confirmed.Indexed) {actions : List Action}
    {id : Option UpdateId}
    (h : ∀ k, ((r.receive actions id).receive actions id).confirmed.get? k =
      (r.receive actions id).confirmed.get? k) (k : EntityId) :
    ((r.receive actions id).receive actions id).view.get? k =
      (r.receive actions id).view.get? k := by
  have honce : (r.receive actions id).confirmed.Indexed := by
    rw [confirmed_receive]
    exact hr.applyAll .confirmed actions
  have htwice : ((r.receive actions id).receive actions id).confirmed.Indexed := by
    rw [confirmed_receive]
    exact honce.applyAll .confirmed actions
  rw [view_receive, view_receive, replay, replay, pending_receive_again]
  exact Board.get?_applyAll_congr htwice honce h _ k

/-- In every run, a confirmation that comes in twice leaves the updates under way and the unsent
edits as after the first time. It leaves both boards as they were then exactly if under every id the
same action of the batch has the last word both times, and every character that was left uncoloured
the first time, or is renewed the second time, ends in the colour that it had. -/
theorem receive_again (undoLimit : Nat) (calls : List Call) (actions : List Action)
    (id : Option UpdateId) :
    let r := (empty undoLimit).run calls
    let once := r.receive actions id
    let twice := once.receive actions id
    twice.inFlight = once.inFlight ∧ twice.unsent = once.unsent ∧
      (twice.confirmed.sameEntities once.confirmed = true ∧
          twice.view.sameEntities once.view = true ↔
        (∀ k n, r.confirmed.LastWordAt actions n k ↔ once.confirmed.LastWordAt actions n k) ∧
          ∀ k, once.confirmed.color? k = none ∨ once.confirmed.RenewedIn actions k →
            twice.confirmed.color? k = once.confirmed.color? k) := by
  intro r once twice
  have hboard : r.confirmed.Indexed := (reachable_run undoLimit calls).indexed.1
  have honce : r.confirmed.applyAll .confirmed actions = once.confirmed :=
    (confirmed_receive r actions id).symm
  have htwice : once.confirmed.applyAll .confirmed actions = twice.confirmed :=
    (confirmed_receive once actions id).symm
  have hagain := Board.get?_again_iff hboard honce
  rw [htwice] at hagain
  refine ⟨inFlight_receive_again r actions id, unsent_receive once actions id, ?_⟩
  rw [← hagain, Board.sameEntities_iff, Board.sameEntities_iff]
  constructor
  · exact And.left
  · intro hconfirmed
    exact ⟨hconfirmed, view_receive_again hboard hconfirmed⟩

/-- Two confirmed orcs, in two colours. -/
def coloredOrcs : Replica :=
  (empty 1).run [.receive [.upsert (orcAt 1 0), .upsert (orcAt 2 1)] none]

/-- The first orc goes and comes back while the second one is there to be told apart from; then the
second one goes. -/
def comeback : List Action := [.delete (.ofNat 1), .upsert (orcAt 1 0), .delete (.ofNat 2)]

/-- A third orc finds no room, and then the one in its place goes. -/
def handover : List Action := [.upsert (orcAt 3 0), .delete (.ofNat 1)]

/-- A repeated confirmation can take away the colour that the first one gave, and can place what the
first one held back. -/
theorem receive_again_changes_boards :
    (let once := coloredOrcs.receive comeback none
      let twice := once.receive comeback none
      once.confirmed.get? (.ofNat 1) =
          some (.character ⟨.ofNat 1, ⟨0, 0, 0⟩, .icon "orc", some "#D94B4B"⟩) ∧
        twice.confirmed.get? (.ofNat 1) = some (orcAt 1 0) ∧
        twice.confirmed.sameEntities once.confirmed = false ∧
        twice.view.sameEntities once.view = false) ∧
    (let once := coloredOrcs.receive handover none
      let twice := once.receive handover none
      once.confirmed.get? (.ofNat 3) = none ∧
        (twice.confirmed.get? (.ofNat 3)).isSome = true ∧
        twice.confirmed.sameEntities once.confirmed = false ∧
        twice.view.sameEntities once.view = false) := by
  decide

end SharedBoard.Replica

import SharedBoard.Proofs.Replica.Delivery
import SharedBoard.Proofs.Replica.Journal
import SharedBoard.Proofs.Session.Calls
import SharedBoard.Proofs.Undo.History

/-! The undo ledger of a session is a bounded history of two stacks. Whatever else happens between
them, the edits, fences, undos and redos of a session move its ledger as they move the history, and
are answered as the history says. -/
namespace SharedBoard

namespace Replica

/-- A call is answered with what a history yields: it tells whether there was anything to do, and
the actions are taken on the view and kept for sending. -/
structure Follows (r : Replica) (answer : Replica × Bool) (yielded : Option (List Action)) :
    Prop where
  reply_eq : answer.2 = yielded.isSome
  view_eq : answer.1.view = r.view.applyAll .optimistic (yielded.getD [])
  unsent_eq : answer.1.unsent = r.unsent ++ yielded.getD []

section Answers

variable (r : Replica)

theorem follows_step (move : Option (UndoLedger × List Action)) :
    r.Follows (r.step move) (move.map Prod.snd) := by
  cases move with
  | none => exact ⟨rfl, rfl, (List.append_nil _).symm⟩
  | some move => exact ⟨rfl, view_pushAll _ move.2, unsent_pushAll _ move.2⟩

theorem follows_undo : r.Follows r.undo (r.ledger.stepBack?.map Prod.snd) := follows_step r _

theorem follows_redo : r.Follows r.redo (r.ledger.stepForward?.map Prod.snd) := follows_step r _

theorem follows_fence : r.Follows r.fence (r.ledger.fence?.map fun _ => []) := by
  unfold fence
  cases r.ledger.fence? <;> exact ⟨rfl, rfl, (List.append_nil _).symm⟩

/-- What is answered after a fence is answered on the same view, with the same unsent actions. -/
theorem Follows.of_fence {r : Replica} {answer : Replica × Bool} {yielded : Option (List Action)}
    (h : r.fence.1.Follows answer yielded) : r.Follows answer yielded := by
  have hview : r.fence.1.view = r.view := by
    rw [(follows_fence r).view_eq]
    cases r.ledger.fence? <;> rfl
  exact ⟨h.reply_eq, by rw [h.view_eq, hview], by rw [h.unsent_eq, unsent_fence]⟩

theorem ledger_step (move : Option (UndoLedger × List Action)) :
    (r.step move).1.ledger = (move.map Prod.fst).getD r.ledger := by
  cases move with
  | none => rfl
  | some move => exact ledger_pushAll _ move.2

theorem ledger_fence : r.fence.1.ledger = r.ledger.fence?.getD r.ledger := by
  unfold fence
  cases r.ledger.fence? <;> rfl

end Answers

/-- A replica's ledger is a history, written down under a limit. -/
structure Keeps (r : Replica) (h : History) (limit : Nat) : Prop where
  ledger_eq : r.ledger = h.toLedger limit
  wellFormed : h.WellFormed limit

theorem keeps_empty (undoLimit : Nat) : (empty undoLimit).Keeps .empty (max undoLimit 1) where
  ledger_eq := rfl
  wellFormed := History.wellFormed_empty (Nat.le_max_right _ _)

namespace Keeps

variable {r : Replica} {h : History} {limit : Nat} (hk : r.Keeps h limit)
include hk

theorem of_ledger_eq {s : Replica} (hs : s.ledger = r.ledger) : s.Keeps h limit :=
  ⟨hs.trans hk.ledger_eq, hk.wellFormed⟩

theorem edit (a : Action) :
    (r.edit a).Keeps ((UndoEntry.ofAction? r.view a).elim h h.record) limit := by
  have hledger := ledger_edit r a
  cases ho : UndoEntry.ofAction? r.view a with
  | none => exact hk.of_ledger_eq (by rw [hledger, ho, Option.elim_none])
  | some entry =>
    rw [ho, Option.elim_some, hk.ledger_eq, hk.wellFormed.toLedger_record] at hledger
    exact ⟨hledger, hk.wellFormed.record entry⟩

theorem fence : r.fence.1.Keeps (h.step limit .fence).1 limit := by
  refine ⟨?_, hk.wellFormed.step .fence⟩
  rw [ledger_fence, hk.ledger_eq, hk.wellFormed.toLedger_fence?, History.step]
  cases h.fence? limit <;> rfl

theorem follows_fence : r.Follows r.fence (h.step limit .fence).2 := by
  have hfence := Replica.follows_fence r
  rw [hk.ledger_eq, hk.wellFormed.toLedger_fence?, Option.map_map] at hfence
  exact hfence

theorem stepBack?_fence :
    r.fence.1.ledger.stepBack? =
      ((h.fence? limit).getD h).undo?.map fun x => (x.1.toLedger limit, x.2) := by
  rw [hk.fence.ledger_eq, hk.fence.wellFormed.toLedger_stepBack?]
  rfl

/-- Fencing and then undoing is one event of the history. -/
theorem undo : r.fence.1.undo.1.Keeps (h.step limit .undo).1 limit := by
  refine ⟨?_, hk.wellFormed.step .undo⟩
  rw [Replica.undo, ledger_step, hk.stepBack?_fence, hk.fence.ledger_eq, History.step,
    History.step]
  cases ((h.fence? limit).getD h).undo? <;> rfl

theorem follows_undo : r.Follows r.fence.1.undo (h.step limit .undo).2 := by
  have hundo := (Replica.follows_undo r.fence.1).of_fence
  rwa [hk.stepBack?_fence, Option.map_map] at hundo

theorem redo : r.redo.1.Keeps (h.step limit .redo).1 limit := by
  refine ⟨?_, hk.wellFormed.step .redo⟩
  rw [Replica.redo, ledger_step, hk.ledger_eq, hk.wellFormed.toLedger_stepForward?, History.step]
  cases h.redo? <;> rfl

theorem follows_redo : r.Follows r.redo (h.step limit .redo).2 := by
  have hredo := Replica.follows_redo r
  rwa [hk.ledger_eq, hk.wellFormed.toLedger_stepForward?, Option.map_map] at hredo

end Keeps

end Replica

namespace Session

/-- What a call means to the history. An edit that leaves no entry means nothing to it, and neither
does what comes from the network or a timer. -/
def event? (s : Session) : Call → Option History.Event
  | .fence => some .fence
  | .undo => some .undo
  | .redo => some .redo
  | c => (c.action?.bind (UndoEntry.ofAction? s.view)).map .record

/-- The events of a list of calls, each as seen at the time of its call. -/
def events (s : Session) : List (Instant × Call) → List History.Event
  | [] => []
  | c :: cs => (s.event? c.2).toList ++ (s.call c.1 c.2).1.events cs

/-- A session answers a call as a history says. -/
def Follows (s : Session) (answer : Session × Bool) (yielded : Option (List Action)) : Prop :=
  s.replica.Follows (answer.1.replica, answer.2) yielded

theorem ledger_expireAll (s : Session) (ids : List EntityId) :
    (ids.foldl expire s).replica.ledger = s.replica.ledger := by
  induction ids generalizing s with
  | nil => rfl
  | cons id ids ih => exact (ih (s.expire id)).trans (Replica.ledger_expirePing s.replica id)

theorem keeps_call {s : Session} {h : History} {limit : Nat} (hk : s.replica.Keeps h limit)
    (now : Instant) (c : Call) :
    (s.call now c).1.replica.Keeps (h.run limit (s.event? c).toList) limit := by
  have hedit : ∀ a, (s.replica.edit a).Keeps
      (h.run limit ((UndoEntry.ofAction? s.view a).map .record).toList) limit := by
    intro a
    have hk' := hk.edit a
    unfold view
    cases ho : UndoEntry.ofAction? s.replica.view a with
    | none => simpa [ho] using hk'
    | some entry => simpa [ho, History.step] using hk'
  cases c with
  | initialState es =>
    refine hk.of_ledger_eq (?_ : (s.trackAll now _).replica.ledger = _)
    rw [replica_trackAll]
  | confirmed id actions =>
    refine hk.of_ledger_eq ((Replica.ledger_receive _ _ _).trans ?_)
    rw [replica_trackAll]
  | rejected id => exact hk.of_ledger_eq (Replica.ledger_reject _ id)
  | collect id => exact hk.of_ledger_eq (Replica.ledger_collect _ id)
  | upsert e => exact hedit _
  | delete id => exact hedit _
  | ping id c =>
    refine hk.of_ledger_eq ((Replica.ledger_edit _ _).trans ?_)
    rw [replica_track]
    rfl
  | undo => exact hk.undo
  | redo => exact hk.redo
  | fence => exact hk.fence
  | expirePings t => exact hk.of_ledger_eq (ledger_expireAll s _)

theorem keeps_run {s : Session} {h : History} {limit : Nat} (hk : s.replica.Keeps h limit)
    (calls : List (Instant × Call)) :
    (s.run calls).replica.Keeps (h.run limit (s.events calls)) limit := by
  induction calls generalizing s h with
  | nil => exact hk
  | cons c cs ih =>
    rw [run_cons, events, History.run_append]
    exact ih (keeps_call hk c.1 c.2)

/-- In every run the ledger is the history of the entries recorded, the fences, undos and redos so
far: groups in force, of which none is empty and no more are kept than the limit, an open group, and
groups to redo. The next fence, undo or redo is answered as the history says, and the actions that
it asks for are taken. -/
theorem ledger_run (settings : Settings) (calls : List (Instant × Call)) :
    let start := ofSettings settings
    let s := start.run calls
    let limit := max settings.maxUndoSets 1
    let h := History.empty.run limit (start.events calls)
    s.replica.ledger = h.toLedger limit ∧
      (h.past.length ≤ limit ∧ ∀ group ∈ h.past, group ≠ []) ∧
      (s.Follows s.fence (h.step limit .fence).2 ∧ s.Follows s.undo (h.step limit .undo).2 ∧
        s.Follows s.redo (h.step limit .redo).2) ∧
      s.replica.ledger.sets ≠ [] ∧ s.replica.ledger.cursor < s.replica.ledger.sets.length ∧
      s.replica.ledger.cursor ≤ limit ∧ s.replica.ledger.sets.length ≤ limit + 1 := by
  intro start s limit h
  have hk : s.replica.Keeps h limit := keeps_run (Replica.keeps_empty settings.maxUndoSets) calls
  have hle := hk.wellFormed.length_le
  have hpast : ∀ group ∈ h.past, group ≠ [] := fun group hgroup =>
    hk.wellFormed.group_nonempty group (List.mem_append_left _ hgroup)
  refine ⟨hk.ledger_eq, ⟨by omega, hpast⟩, ⟨hk.follows_fence, hk.follows_undo, hk.follows_redo⟩, ?_⟩
  rw [hk.ledger_eq]
  simp only [History.toLedger, List.length_append, List.length_singleton]
  refine ⟨by simp, by omega, by omega, by omega⟩

end Session

end SharedBoard

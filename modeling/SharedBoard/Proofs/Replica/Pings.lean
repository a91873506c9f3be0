import SharedBoard.Proofs.Board.Pings
import SharedBoard.Proofs.Replica.Delivery
import SharedBoard.Proofs.Replica.Journal

/-! Where the pings of a replica come from. A ping in the view stands on the confirmed board or is
created by a pending action, and both come from the server or from an edit: the ledger brings none. -/
namespace SharedBoard

namespace UndoLedger

/-- All entries of a ledger, undone ones included. -/
def entries (l : UndoLedger) : List UndoEntry := l.sets.flatten

variable {l l' : UndoLedger} {entry e : UndoEntry}

theorem mem_flatten_appendToLast {sets : List (List UndoEntry)}
    (h : e ∈ (appendToLast entry sets).flatten) : e = entry ∨ e ∈ sets.flatten := by
  induction sets with
  | nil => cases h
  | cons set sets ih =>
    cases sets with
    | nil => simpa [appendToLast, or_comm] using h
    | cons next sets =>
      simp only [appendToLast, List.flatten_cons (l := set), List.mem_append] at h ⊢
      rcases h with h | h
      · exact .inr (.inl h)
      · exact (ih h).imp_right .inr

theorem mem_entries_record (h : e ∈ (l.record entry).entries) : e = entry ∨ e ∈ l.entries := by
  refine (mem_flatten_appendToLast h).imp_right fun h => ?_
  split at h
  next =>
    rw [List.flatten_append, List.mem_append] at h
    obtain ⟨set, hset, he⟩ := List.mem_flatten.1 (h.resolve_right (by simp))
    exact List.mem_flatten.2 ⟨set, List.mem_of_mem_take hset, he⟩
  next => exact h

theorem mem_entries_fence? (hfence : l.fence? = some l') (h : e ∈ l'.entries) : e ∈ l.entries := by
  unfold fence? at hfence
  split at hfence
  next => cases hfence
  next =>
    have hsets : (l.sets ++ [[]]).flatten = l.entries := by simp [entries]
    rw [← hsets]
    obtain ⟨set, hset, he⟩ := List.mem_flatten.1 h
    dsimp only at hfence
    split at hfence <;> cases hfence
    · exact List.mem_flatten.2 ⟨set, List.mem_of_mem_tail hset, he⟩
    · exact List.mem_flatten.2 ⟨set, hset, he⟩

theorem mem_entries_of_getElem? {i : Nat} {set : List UndoEntry} (hset : l.sets[i]? = some set)
    (he : e ∈ set) : e ∈ l.entries :=
  List.mem_flatten.2 ⟨set, List.mem_of_getElem? hset, he⟩

theorem entries_stepBack? {as : List Action} (h : l.stepBack? = some (l', as)) :
    l'.entries = l.entries ∧ ∀ a ∈ as, ∃ e ∈ l.entries, a = e.inverse := by
  unfold stepBack? at h
  split at h
  next =>
    obtain ⟨set, hset, heq⟩ := Option.map_eq_some_iff.1 h
    cases heq
    refine ⟨rfl, fun a ha => ?_⟩
    obtain ⟨e, he, rfl⟩ := List.mem_map.1 ha
    exact ⟨e, mem_entries_of_getElem? hset (List.mem_reverse.1 he), rfl⟩
  next => cases h

theorem entries_stepForward? {as : List Action} (h : l.stepForward? = some (l', as)) :
    l'.entries = l.entries ∧ ∀ a ∈ as, ∃ e ∈ l.entries, a = e.forward := by
  unfold stepForward? at h
  split at h
  next =>
    obtain ⟨set, hset, heq⟩ := Option.map_eq_some_iff.1 h
    cases heq
    refine ⟨rfl, fun a ha => ?_⟩
    obtain ⟨e, he, rfl⟩ := List.mem_map.1 ha
    exact ⟨e, mem_entries_of_getElem? hset he, rfl⟩
  next => cases h

end UndoLedger

namespace Replica

/-- No entry in the ledger creates a ping, when it is undone or redone. -/
def RecordsNoPings (r : Replica) : Prop :=
  ∀ e ∈ r.ledger.entries, e.inverse.createdPing? = none ∧ e.forward.createdPing? = none

theorem RecordsNoPings.call {r : Replica} (h : r.RecordsNoPings) (c : Call) :
    (r.call c).1.RecordsNoPings := by
  rcases ledger_call_cases r c with
    hsame | ⟨a, entry, hentry, hrecord⟩ | hfence | ⟨as, hback⟩ | ⟨as, hforward⟩
  · rw [RecordsNoPings, hsame]
    exact h
  · intro e he
    rw [hrecord] at he
    rcases UndoLedger.mem_entries_record he with rfl | he
    · exact UndoEntry.createdPing?_of_ofAction? hentry
    · exact h e he
  · exact fun e he => h e (UndoLedger.mem_entries_fence? hfence he)
  · rw [RecordsNoPings, (UndoLedger.entries_stepBack? hback).1]
    exact h
  · rw [RecordsNoPings, (UndoLedger.entries_stepForward? hforward).1]
    exact h

theorem Reachable.recordsNoPings {r : Replica} (h : r.Reachable) : r.RecordsNoPings :=
  h.invariant (fun _ _ he => nomatch he) fun _ c hr => hr.call c

/-- Whether a ping stands on the confirmed board, or a pending action creates it. -/
def HoldsPing (r : Replica) (id : EntityId) : Prop :=
  r.confirmed.hasPing id = true ∨ ∃ a ∈ r.pending, a.createdPing? = some id

/-- No other ping is in the view. -/
theorem InStep.holdsPing {r : Replica} (h : r.InStep) {id : EntityId}
    (hping : r.view.hasPing id = true) : r.HoldsPing id := by
  rw [h] at hping
  exact (Board.exists_created_or_hasPing hping).symm

theorem hasPing_withoutPing (r : Replica) (id k : EntityId) :
    (r.withoutPing id).confirmed.hasPing k =
      if k = id then false else r.confirmed.hasPing k := by
  simp only [withoutPing]
  split
  next => exact Board.hasPing_delete r.confirmed id k
  next hnone =>
    split
    next hk =>
      subst hk
      simpa [Board.hasPing] using hnone
    next => rfl

theorem pending_expirePing (r : Replica) (id : EntityId) :
    (r.expirePing id).1.pending = r.pending.filter (outlives id) := by
  rw [expirePing_eq, ← pending_withoutPing]
  split <;> rfl

/-- A ping that expires is held no more, and the others are as before. -/
theorem holdsPing_expirePing (r : Replica) (id k : EntityId) :
    (r.expirePing id).1.HoldsPing k ↔ k ≠ id ∧ r.HoldsPing k := by
  rw [HoldsPing, confirmed_expirePing, hasPing_withoutPing, pending_expirePing, HoldsPing]
  by_cases hk : k = id
  · subst hk
    simp [outlives]
  · simp only [hk, if_false, ne_eq, not_false_eq_true, true_and, List.mem_filter]
    apply or_congr_right
    constructor
    · rintro ⟨a, ⟨ha, -⟩, hcreated⟩
      exact ⟨a, ha, hcreated⟩
    · rintro ⟨a, ha, hcreated⟩
      exact ⟨a, ⟨ha, by simp [outlives, hcreated, hk]⟩, hcreated⟩

/-- The pings that a call brings into a replica. -/
def Call.brings : Call → List EntityId
  | .receive actions _ => actions.filterMap Action.createdPing?
  | .load es => (es.filter Entity.isPing).map Entity.id
  | .edit a => a.createdPing?.toList
  | _ => []

section Calls

variable (r : Replica)

/-- Actions that wait when updates are taken out of those under way were waiting before. -/
theorem mem_pending_of_filter {p : Update → Bool} {a : Action}
    (h : a ∈ (r.inFlight.filter p).flatMap Update.actions ++ r.unsent) : a ∈ r.pending := by
  rcases List.mem_append.1 h with h | h
  · obtain ⟨u, hu, ha⟩ := List.mem_flatMap.1 h
    exact List.mem_append_left _ (List.mem_flatMap.2 ⟨u, List.mem_of_mem_filter hu, ha⟩)
  · exact List.mem_append_right _ h

theorem mem_pending_receive {actions : List Action} {id : Option UpdateId} {a : Action}
    (h : a ∈ (r.receive actions id).pending) : a ∈ r.pending := by
  rw [pending, unsent_receive] at h
  cases id with
  | none => exact h
  | some id =>
    rw [inFlight_receive] at h
    exact mem_pending_of_filter r h

theorem mem_pending_reject {id : UpdateId} {a : Action} (h : a ∈ (r.reject id).1.pending) :
    a ∈ r.pending := by
  rw [pending, unsent_reject, inFlight_reject] at h
  exact mem_pending_of_filter r h

theorem pending_edit (a : Action) : (r.edit a).pending = r.pending ++ [a] := by
  rw [pending, inFlight_edit, unsent_edit, ← List.append_assoc]
  rfl

theorem pending_collect (id : UpdateId) : (r.collect id).1.pending = r.pending := by
  unfold collect
  split
  next => rfl
  next => simp [pending]

theorem pending_fence : r.fence.1.pending = r.pending := by
  rw [pending, inFlight_fence, unsent_fence]
  rfl

theorem pending_step (move : Option (UndoLedger × List Action)) :
    (r.step move).1.pending = r.pending ++ (move.map Prod.snd).getD [] := by
  rw [pending, inFlight_step, unsent_step, ← List.append_assoc]
  rfl

variable {r}

theorem holdsPing_of_pending {s : Replica} {as : List Action} {id : EntityId}
    (hconfirmed : s.confirmed = r.confirmed) (hpending : s.pending = r.pending ++ as)
    (h : s.HoldsPing id) : (∃ a ∈ as, a.createdPing? = some id) ∨ r.HoldsPing id := by
  rw [HoldsPing, hconfirmed, hpending] at h
  rcases h with h | ⟨a, ha, hcreated⟩
  · exact .inr (.inl h)
  · rcases List.mem_append.1 ha with ha | ha
    · exact .inr (.inr ⟨a, ha, hcreated⟩)
    · exact .inl ⟨a, ha, hcreated⟩

theorem holdsPing_step {move : Option (UndoLedger × List Action)}
    (hmove : ∀ x ∈ move, ∀ a ∈ x.2, a.createdPing? = none) {id : EntityId}
    (h : (r.step move).1.HoldsPing id) : r.HoldsPing id := by
  refine (holdsPing_of_pending (confirmed_step r move) (pending_step r move) h).resolve_left ?_
  rintro ⟨a, ha, hcreated⟩
  cases move with
  | none => cases ha
  | some x =>
    rw [hmove x rfl a ha] at hcreated
    cases hcreated

/-- A replica holds no ping that was not brought into it. -/
theorem holdsPing_call (hledger : r.RecordsNoPings) {c : Call} {id : EntityId}
    (h : (r.call c).1.HoldsPing id) : id ∈ c.brings ∨ r.HoldsPing id := by
  cases c with
  | receive actions k =>
    rcases h with h | ⟨a, ha, hcreated⟩
    · simp only [Replica.call, confirmed_receive] at h
      exact (Board.exists_created_or_hasPing h).imp List.mem_filterMap.2 .inl
    · exact .inr (.inr ⟨a, mem_pending_receive r ha, hcreated⟩)
  | load es =>
    rcases h with h | h
    · obtain ⟨e, he, hping, hid⟩ := Board.exists_of_hasPing_ofEntities h
      exact .inl (List.mem_map.2 ⟨e, List.mem_filter.2 ⟨he, hping⟩, hid⟩)
    · exact .inr (.inr h)
  | reject k =>
    rcases h with h | ⟨a, ha, hcreated⟩
    · exact .inr (.inl (by rwa [← confirmed_reject r k]))
    · exact .inr (.inr ⟨a, mem_pending_reject r ha, hcreated⟩)
  | expirePing k => exact .inr ((holdsPing_expirePing r k id).1 h).2
  | edit a =>
    refine (holdsPing_of_pending (confirmed_edit r a) (pending_edit r a) h).imp_left ?_
    rintro ⟨d, hd, hcreated⟩
    obtain rfl := List.mem_singleton.1 hd
    exact Option.mem_toList.2 hcreated
  | collect k =>
    have hpending : (r.collect k).1.pending = r.pending ++ [] := by
      rw [pending_collect, List.append_nil]
    exact .inr ((holdsPing_of_pending (confirmed_collect r k) hpending h).resolve_left (by simp))
  | fence =>
    have hpending : r.fence.1.pending = r.pending ++ [] := by rw [pending_fence, List.append_nil]
    exact .inr ((holdsPing_of_pending (confirmed_fence r) hpending h).resolve_left (by simp))
  | undo =>
    apply Or.inr
    apply holdsPing_step _ h
    rintro ⟨l, as⟩ hback a ha
    obtain ⟨e, he, rfl⟩ := (UndoLedger.entries_stepBack? hback).2 a ha
    exact (hledger e he).1
  | redo =>
    apply Or.inr
    apply holdsPing_step _ h
    rintro ⟨l, as⟩ hforward a ha
    obtain ⟨e, he, rfl⟩ := (UndoLedger.entries_stepForward? hforward).2 a ha
    exact (hledger e he).2

end Calls

theorem holdsPing_run {r : Replica} (hledger : r.RecordsNoPings) {calls : List Call}
    {id : EntityId} (h : (r.run calls).HoldsPing id) :
    id ∈ calls.flatMap Call.brings ∨ r.HoldsPing id := by
  induction calls generalizing r with
  | nil => exact .inr h
  | cons c cs ih =>
    rw [List.flatMap_cons, List.mem_append]
    rcases ih (hledger.call c) h with h | h
    · exact .inl (.inr h)
    · exact (holdsPing_call hledger h).imp_left .inl

end Replica

end SharedBoard

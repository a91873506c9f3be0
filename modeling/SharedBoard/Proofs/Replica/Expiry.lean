import SharedBoard.Proofs.Replica.Pings

/-! What the expiry of a ping takes away. The ping goes from the confirmed board and from all pending
actions, and so from the view; the rest stays where it was. The reply compares numbers of actions,
which differ only if an action was taken out. -/
namespace SharedBoard

/-- The second board is the first without the ping under an id, if there is one. -/
structure Board.LosesPing (b b' : Board) (id : EntityId) : Prop where
  get?_eq : ∀ k, b'.get? k = if k = id ∧ b.hasPing id = true then none else b.get? k
  occupants_eq : b'.occupants = b.occupants
  groups_eq : b'.groups = b.groups

/-- A ping is in neither of the derived maps. -/
theorem Board.losesPing_delete {b : Board} {id : EntityId} (h : b.hasPing id = true) :
    b.LosesPing (b.delete id) id := by
  obtain ⟨e, he, hping⟩ := (Option.any_eq_true _ _).1 h
  have hunlink : b.delete id = b.unlink id e := by rw [delete_eq, he, Option.elim_some]
  refine ⟨fun k => by simp [get?_delete, h], ?_, ?_⟩
  · rw [hunlink, unlink, e.position?_eq_none_iff.2 hping, Option.elim_none]
  · cases e with
    | ping p => rw [hunlink]; rfl
    | character c => cases hping
    | floor f => cases hping

theorem Board.losesPing_refl {b : Board} {id : EntityId} (h : b.hasPing id = false) :
    b.LosesPing b id := ⟨fun k => by simp [h], rfl, rfl⟩

namespace Replica

variable (r : Replica) (id : EntityId)

theorem losesPing_expirePing : r.confirmed.LosesPing (r.expirePing id).1.confirmed id := by
  rw [confirmed_expirePing, withoutPing]
  dsimp only
  split
  next hping => exact Board.losesPing_delete hping
  next hnone => exact Board.losesPing_refl (Bool.eq_false_iff.2 hnone)

/-- Taking out the actions that create a ping makes them fewer exactly if there are any. -/
theorem pendingCount_withoutPing_ne_iff :
    (r.withoutPing id).pendingCount ≠ r.pendingCount ↔
      ∃ a ∈ r.pending, a.createdPing? = some id := by
  rw [← length_pending, ← length_pending, pending_withoutPing, Ne,
    List.length_filter_eq_length_iff]
  simp [outlives]

theorem expirePing_eq_true_iff : (r.expirePing id).2 = true ↔ r.HoldsPing id := by
  rw [HoldsPing, ← pendingCount_withoutPing_ne_iff, Board.hasPing, expirePing_eq, ← bne_iff_ne,
    ← Bool.or_eq_true]
  split
  next h => exact iff_of_true rfl h
  next h => exact iff_of_false Bool.false_ne_true h

variable {r id}

theorem expirePing_of_not_holdsPing (h : ¬r.HoldsPing id) : (r.expirePing id).1 = r := by
  have hnone : (r.confirmed.get? id).any Entity.isPing = false :=
    Bool.eq_false_iff.2 fun hping => h (.inl hping)
  have hcount : (r.withoutPing id).pendingCount = r.pendingCount := by
    by_contra hne
    exact h (.inr ((pendingCount_withoutPing_ne_iff r id).1 hne))
  have hself := withoutPing_eq_self hnone hcount
  rw [expirePing_eq, hnone, hcount, bne_self_eq_false, Bool.or_self, if_neg Bool.false_ne_true,
    hself]

/-- An expired ping is in no part of the replica. -/
theorem not_holdsPing_expirePing : ¬(r.expirePing id).1.HoldsPing id := fun h =>
  ((holdsPing_expirePing r id id).1 h).1 rfl

theorem InStep.hasPing_expirePing (h : r.InStep) : (r.expirePing id).1.view.hasPing id = false := by
  have hstep : (r.expirePing id).1.InStep := h.call (.expirePing id)
  exact Bool.eq_false_iff.2 fun hping => not_holdsPing_expirePing (hstep.holdsPing hping)

/-- A pending action creates a ping in one of two forms. -/
theorem holdsPing_iff : r.HoldsPing id ↔
    r.confirmed.hasPing id = true ∨
      ∃ p : Ping, p.id = id ∧ (.ping p ∈ r.pending ∨ .upsert (.ping p) ∈ r.pending) := by
  apply or_congr_right
  constructor
  · rintro ⟨a, ha, hcreated⟩
    cases a with
    | ping p => exact ⟨p, Option.some.inj hcreated, .inl ha⟩
    | delete k => cases hcreated
    | upsert e =>
      cases e with
      | ping p => exact ⟨p, Option.some.inj hcreated, .inr ha⟩
      | character c => cases hcreated
      | floor f => cases hcreated
  · rintro ⟨p, rfl, ha | ha⟩
    · exact ⟨_, ha, rfl⟩
    · exact ⟨_, ha, rfl⟩

/-- The expiry of a ping reaches every part of a replica, and takes nothing else. Afterwards the ping
is neither on the confirmed board nor in the view, and no pending action creates it. The confirmed
board loses nothing else, and every other pending action stays in its update or among the unsent ones,
in the same order; updates that become empty stay. The view is what these leave, and the ledger is as
before. The reply tells whether the ping was there: if not, nothing has changed, and so it is the
second time. -/
theorem expirePing_everywhere (undoLimit : Nat) (calls : List Call) (id : EntityId) :
    let r := (empty undoLimit).run calls
    let s := (r.expirePing id).1
    (s.confirmed.hasPing id = false ∧ s.view.hasPing id = false ∧
        ∀ p : Ping, p.id = id → .ping p ∉ s.pending ∧ .upsert (.ping p) ∉ s.pending) ∧
      r.confirmed.LosesPing s.confirmed id ∧
      (s.inFlight = r.inFlight.map (fun u =>
          ⟨u.id, u.actions.filter fun a => a.createdPing? != some id⟩) ∧
        s.unsent = r.unsent.filter fun a => a.createdPing? != some id) ∧
      s.view = s.confirmed.applyAll .optimistic s.pending ∧
      s.ledger = r.ledger ∧
      ((r.expirePing id).2 = true ↔ r.confirmed.hasPing id = true ∨
        ∃ p : Ping, p.id = id ∧ (.ping p ∈ r.pending ∨ .upsert (.ping p) ∈ r.pending)) ∧
      ((r.expirePing id).2 = false → s = r) ∧
      s.expirePing id = (s, false) := by
  intro r s
  have hstep : r.InStep := (reachable_run undoLimit calls).inStep
  have hgone : ¬s.HoldsPing id := not_holdsPing_expirePing
  have hreply : (r.expirePing id).2 = true ↔ r.HoldsPing id := expirePing_eq_true_iff r id
  refine ⟨⟨?_, hstep.hasPing_expirePing, ?_⟩, losesPing_expirePing r id,
    ⟨inFlight_expirePing r id, unsent_expirePing r id⟩, hstep.call (.expirePing id),
    ledger_expirePing r id, hreply.trans holdsPing_iff, ?_, ?_⟩
  · exact Bool.eq_false_iff.2 fun hping => hgone (.inl hping)
  · rw [holdsPing_iff, not_or] at hgone
    intro p hp
    exact not_or.1 fun hpending => hgone.2 ⟨p, hp, hpending⟩
  · intro hfalse
    apply expirePing_of_not_holdsPing
    rw [← hreply, hfalse]
    exact Bool.false_ne_true
  · have hagain : (s.expirePing id).2 = false := by
      rw [Bool.eq_false_iff, Ne, expirePing_eq_true_iff]
      exact hgone
    exact Prod.ext (expirePing_of_not_holdsPing hgone) hagain

end Replica

end SharedBoard

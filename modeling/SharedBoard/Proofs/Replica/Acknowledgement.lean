import SharedBoard.Proofs.Board.Commutation
import SharedBoard.Proofs.Replica.Histories

/-! An update that is confirmed in its turn moves from the pending actions to the confirmed board.
The view goes through the same actions in the same order, some of them now confirmed, so nothing
but colours can come of it. An update that overtakes others does no more, as long as they have
nothing to do with it. -/
namespace SharedBoard.Replica

/-- Taking an id out of updates with distinct ids takes out the one update that has it. -/
theorem filter_one {before after : List Update} {u : Update}
    (hids : ((before ++ u :: after).map Update.id).Nodup) :
    (before ++ u :: after).filter (·.id != u.id) = before ++ after := by
  rw [List.map_append, List.map_cons, List.perm_middle.nodup_iff, List.nodup_cons,
    ← List.map_append] at hids
  have hothers : (before ++ after).filter (·.id != u.id) = before ++ after := by
    rw [List.filter_eq_self]
    intro v hv
    have hne : v.id ≠ u.id := by
      intro he
      exact hids.1 (he ▸ List.mem_map_of_mem hv)
    simpa using hne
  rw [List.filter_append, List.filter_cons_of_neg (by simp), ← List.filter_append, hothers]

/-- Confirming a first part of a list of actions instead of guessing it only adds colours. -/
theorem gainsColors_confirm {b : Board} (hb : b.Indexed) (as rest : List Action) :
    (b.applyAll .optimistic (as ++ rest)).GainsColors
      ((b.applyAll .confirmed as).applyAll .optimistic rest) := by
  rw [Board.applyAll_append]
  have hfirst := (Board.GainsColors.refl b).applyAll hb hb .confirmed as
  exact hfirst.applyAll (hb.applyAll .optimistic as) (hb.applyAll .confirmed as) .optimistic rest

/-- The confirmation of the first update under way takes it from the queue and leaves the view with
the same entities in the same colours, but for colours that some did not have before. -/
theorem receive_first {r : Replica} (hr : r.Reachable) {u : Update} {us : List Update}
    (hfirst : r.inFlight = u :: us) (hids : (r.inFlight.map Update.id).Nodup) :
    (r.receive u.actions (some u.id)).inFlight = us ∧
      (r.receive u.actions (some u.id)).unsent = r.unsent ∧
      r.view.GainsColors (r.receive u.actions (some u.id)).view := by
  have hflight : (r.receive u.actions (some u.id)).inFlight = us := by
    rw [inFlight_receive, hfirst]
    rw [hfirst] at hids
    exact @filter_one [] us u hids
  have hunsent := unsent_receive r u.actions (some u.id)
  refine ⟨hflight, hunsent, ?_⟩
  have hbefore : r.view =
      r.confirmed.applyAll .optimistic (u.actions ++ (us.flatMap Update.actions ++ r.unsent)) := by
    rw [hr.inStep, replay, pending, hfirst, List.flatMap_cons, List.append_assoc]
  have hafter : (r.receive u.actions (some u.id)).view =
      (r.confirmed.applyAll .confirmed u.actions).applyAll .optimistic
        (us.flatMap Update.actions ++ r.unsent) := by
    rw [view_receive, replay, confirmed_receive, pending, hflight, hunsent]
  rw [hbefore, hafter]
  exact gainsColors_confirm hr.indexed.1 u.actions _

/-- An orc of the first row, as it comes from a participant. -/
def orcAt (id : Nat) (x : Int32) : Entity := .character ⟨.ofNat id, ⟨x, 0, 0⟩, .icon "orc", none⟩

def secondOrc : Update := ⟨.ofNat 8, [.upsert (orcAt 2 1), .upsert (orcAt 3 0)]⟩

def thirdOrc : Update := ⟨.ofNat 9, [.delete (.ofNat 1), .upsert (orcAt 3 0)]⟩

/-- One orc is confirmed. A second one is under way beside it, and a third that finds room only when
the next update has taken the first one away; then the second one moves. -/
def orcs : Replica :=
  (empty 1).run [.receive [.upsert (orcAt 1 0)] none, .edit (.upsert (orcAt 2 1)),
    .edit (.upsert (orcAt 3 0)), .collect secondOrc.id, .edit (.delete (.ofNat 1)),
    .edit (.upsert (orcAt 3 0)), .collect thirdOrc.id, .edit (.upsert (orcAt 2 5))]

theorem receive_first_secondOrc :
    (orcs.inFlight = [secondOrc, thirdOrc] ∧ (orcs.inFlight.map Update.id).Nodup) ∧
      ((orcs.receive secondOrc.actions (some secondOrc.id)).inFlight = [thirdOrc] ∧
        (orcs.receive secondOrc.actions (some secondOrc.id)).unsent = orcs.unsent ∧
        orcs.view.GainsColors (orcs.receive secondOrc.actions (some secondOrc.id)).view) ∧
      orcs.view.color? (.ofNat 2) = none ∧
      (orcs.receive secondOrc.actions (some secondOrc.id)).view.color? (.ofNat 2) =
        some "#3C7DD9" :=
  ⟨by decide, receive_first (reachable_run _ _) (by decide) (by decide), by decide⟩

/-- The confirmation of an update that has nothing to do with those sent before it takes it from the
queue, in which the others keep their order, and leaves the view with the same entities in the same
colours, but for colours that some did not have before. -/
theorem receive_independent {r : Replica} (hr : r.Reachable) {before after : List Update}
    {u : Update} (hqueue : r.inFlight = before ++ u :: after)
    (hids : (r.inFlight.map Update.id).Nodup)
    (hindependent : r.confirmed.Independent (before.flatMap Update.actions) u.actions) :
    (r.receive u.actions (some u.id)).inFlight = before ++ after ∧
      (r.receive u.actions (some u.id)).unsent = r.unsent ∧
      r.view.GainsColors (r.receive u.actions (some u.id)).view := by
  have hflight : (r.receive u.actions (some u.id)).inFlight = before ++ after := by
    rw [inFlight_receive, hqueue]
    rw [hqueue] at hids
    exact filter_one hids
  have hunsent := unsent_receive r u.actions (some u.id)
  refine ⟨hflight, hunsent, ?_⟩
  set earlier := before.flatMap Update.actions with hearlier
  set rest := after.flatMap Update.actions ++ r.unsent with hrest
  have hboard := hr.indexed.1
  have hbefore : r.view = ((r.confirmed.applyAll .optimistic earlier).applyAll .optimistic
      u.actions).applyAll .optimistic rest := by
    rw [hr.inStep, replay, pending, hqueue, ← Board.applyAll_append, ← Board.applyAll_append]
    simp [hearlier, hrest]
  have hafter : (r.receive u.actions (some u.id)).view =
      ((r.confirmed.applyAll .confirmed u.actions).applyAll .optimistic earlier).applyAll
        .optimistic rest := by
    rw [view_receive, replay, confirmed_receive, pending, hflight, hunsent, ← Board.applyAll_append]
    simp [hearlier, hrest]
  have hswapped := Board.gainsColors_of_get?_eq (hindependent.get?_applyAll_comm hboard)
  have hconfirmed := gainsColors_confirm hboard u.actions earlier
  rw [Board.applyAll_append] at hconfirmed
  rw [hbefore, hafter]
  exact (hswapped.trans hconfirmed).applyAll
    ((hboard.applyAll .optimistic earlier).applyAll .optimistic u.actions)
    ((hboard.applyAll .confirmed u.actions).applyAll .optimistic earlier) .optimistic rest

def blockedOrc : Update := ⟨.ofNat 8, [.upsert (orcAt 2 1), .upsert (orcAt 2 0)]⟩

def placedAgain : Update :=
  ⟨.ofNat 9, [.upsert (orcAt 3 5), .delete (.ofNat 3), .upsert (orcAt 3 6)]⟩

/-- One orc is confirmed. A second one is under way that would then move to the first one's place,
and a third one after it that is deleted and put down elsewhere. -/
def twoUnderWay : Replica :=
  (empty 1).run ([.receive [.upsert (orcAt 1 0)] none] ++ blockedOrc.actions.map .edit ++
    [.collect blockedOrc.id] ++ placedAgain.actions.map .edit ++
    [.collect placedAgain.id, .edit (.upsert (orcAt 3 1)), .edit (.upsert (orcAt 2 5))])

theorem receive_independent_placedAgain :
    (twoUnderWay.inFlight = [blockedOrc] ++ placedAgain :: [] ∧
      (twoUnderWay.inFlight.map Update.id).Nodup ∧
      twoUnderWay.confirmed.Independent ([blockedOrc].flatMap Update.actions)
        placedAgain.actions) ∧
      ((twoUnderWay.receive placedAgain.actions (some placedAgain.id)).inFlight =
          [blockedOrc] ++ [] ∧
        (twoUnderWay.receive placedAgain.actions (some placedAgain.id)).unsent =
          twoUnderWay.unsent ∧
        twoUnderWay.view.GainsColors
          (twoUnderWay.receive placedAgain.actions (some placedAgain.id)).view) ∧
      twoUnderWay.view.color? (.ofNat 3) = none ∧
      (twoUnderWay.receive placedAgain.actions (some placedAgain.id)).view.color? (.ofNat 3) =
        some "#3C7DD9" := by
  have hqueue : twoUnderWay.inFlight = [blockedOrc] ++ placedAgain :: [] := by decide
  have hids : (twoUnderWay.inFlight.map Update.id).Nodup := by decide
  have hindependent : twoUnderWay.confirmed.Independent ([blockedOrc].flatMap Update.actions)
      placedAgain.actions := ⟨by decide, by decide, by decide, by decide⟩
  exact ⟨⟨hqueue, hids, hindependent⟩,
    receive_independent (reachable_run _ _) hqueue hids hindependent, by decide⟩

end SharedBoard.Replica

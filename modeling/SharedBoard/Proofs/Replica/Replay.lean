import SharedBoard.Replica

/-! The view is what a replay would build. Each call either rebuilds the view, or patches it at the
end of the pending actions, or leaves alone all that the view depends on. -/
namespace SharedBoard.Replica

/-- The replicas that calls can bring about from an empty one. -/
def Reachable (r : Replica) : Prop := ∃ undoLimit calls, r = (empty undoLimit).run calls

@[simp] theorem run_nil (r : Replica) : r.run [] = r := rfl

@[simp] theorem run_cons (r : Replica) (c : Call) (cs : List Call) :
    r.run (c :: cs) = (r.call c).1.run cs := rfl

theorem run_append (r : Replica) (cs ds : List Call) : r.run (cs ++ ds) = (r.run cs).run ds :=
  List.foldl_append

theorem run_invariant {P : Replica → Prop} (hcall : ∀ r c, P r → P (r.call c).1) {r : Replica}
    (h : P r) (calls : List Call) : P (r.run calls) := by
  induction calls generalizing r with
  | nil => exact h
  | cons c cs ih => exact ih (hcall r c h)

theorem Reachable.invariant {P : Replica → Prop} (hempty : ∀ n, P (empty n))
    (hcall : ∀ r c, P r → P (r.call c).1) {r : Replica} (h : r.Reachable) : P r := by
  obtain ⟨n, calls, rfl⟩ := h
  exact run_invariant hcall (hempty n) calls

theorem reachable_run (undoLimit : Nat) (calls : List Call) :
    ((empty undoLimit).run calls).Reachable := ⟨undoLimit, calls, rfl⟩

def InStep (r : Replica) : Prop := r.view = r.replay

theorem inStep_empty (undoLimit : Nat) : (empty undoLimit).InStep := rfl

theorem inStep_refresh (r : Replica) : r.refresh.InStep := rfl

/-- The view depends on nothing but the confirmed board and the pending actions. -/
theorem InStep.congr {r s : Replica} (h : r.InStep) (hview : s.view = r.view)
    (hconfirmed : s.confirmed = r.confirmed) (hpending : s.pending = r.pending) : s.InStep := by
  rw [InStep, hview, replay, hconfirmed, hpending]
  exact h

/-- An update that was not there leaves the others as they were. -/
theorem settle_eq_self {r : Replica} {id : UpdateId} (h : (r.settle id).2 = false) :
    (r.settle id).1 = r := by
  have hlen : (r.inFlight.filter (·.id != id)).length = r.inFlight.length := by
    simpa [settle] using h
  have hself : r.inFlight.filter (·.id != id) = r.inFlight :=
    List.filter_eq_self.2 (List.length_filter_eq_length_iff.1 hlen)
  simp [settle, hself]

theorem reject_eq (r : Replica) (id : UpdateId) :
    r.reject id =
      if (r.settle id).2 then ((r.settle id).1.refresh, true) else (r, false) := by
  cases h : (r.settle id).2 with
  | true =>
    have hs : r.settle id = ((r.settle id).1, true) := Prod.ext rfl h
    rw [reject, hs]
    rfl
  | false =>
    have hs : r.settle id = (r, false) := Prod.ext (settle_eq_self h) h
    rw [reject, hs]
    rfl

theorem inFlight_receive (r : Replica) (actions : List Action) (id : UpdateId) :
    (r.receive actions (some id)).inFlight = r.inFlight.filter (·.id != id) := rfl

theorem unsent_receive (r : Replica) (actions : List Action) (id : Option UpdateId) :
    (r.receive actions id).unsent = r.unsent := by cases id <;> rfl

theorem view_receive (r : Replica) (actions : List Action) (id : Option UpdateId) :
    (r.receive actions id).view = (r.receive actions id).replay := rfl

/-- Whether an action keeps its place when a ping expires. -/
def outlives (id : EntityId) (a : Action) : Bool := a.createdPing? != some id

/-- A replica without a ping, but for the view. -/
def withoutPing (r : Replica) (id : EntityId) : Replica :=
  { r with
    confirmed :=
      if (r.confirmed.get? id).any Entity.isPing then r.confirmed.delete id else r.confirmed
    inFlight := r.inFlight.map fun u => { u with actions := u.actions.filter (outlives id) }
    unsent := r.unsent.filter (outlives id) }

theorem expirePing_eq (r : Replica) (id : EntityId) :
    r.expirePing id =
      if (r.confirmed.get? id).any Entity.isPing ||
          (r.withoutPing id).pendingCount != r.pendingCount then
        ((r.withoutPing id).refresh, true)
      else (r.withoutPing id, false) := rfl

theorem pending_withoutPing (r : Replica) (id : EntityId) :
    (r.withoutPing id).pending = r.pending.filter (outlives id) := by
  simp only [pending, withoutPing, List.filter_append]
  congr 1
  induction r.inFlight with
  | nil => rfl
  | cons u us ih => simp [ih]

/-- With no such ping confirmed and none pending, there is nothing to take out. -/
theorem withoutPing_eq_self {r : Replica} {id : EntityId}
    (hconfirmed : (r.confirmed.get? id).any Entity.isPing = false)
    (hcount : (r.withoutPing id).pendingCount = r.pendingCount) : r.withoutPing id = r := by
  have hlen : (r.pending.filter (outlives id)).length = r.pending.length := by
    rw [← pending_withoutPing, length_pending, length_pending, hcount]
  have hall : ∀ a ∈ r.pending, outlives id a = true := List.length_filter_eq_length_iff.1 hlen
  have hsent : ∀ u ∈ r.inFlight, u.actions.filter (outlives id) = u.actions := by
    intro u hu
    apply List.filter_eq_self.2
    intro a ha
    exact hall a (List.mem_append_left _ (List.mem_flatMap.2 ⟨u, hu, ha⟩))
  have hunsent : r.unsent.filter (outlives id) = r.unsent :=
    List.filter_eq_self.2 fun a ha => hall a (List.mem_append_right _ ha)
  have hmap : r.inFlight.map (fun u => { u with actions := u.actions.filter (outlives id) }) =
      r.inFlight := by
    apply (List.map_congr_left _).trans (List.map_id _)
    intro u hu
    rw [hsent u hu, id_eq]
  simp [withoutPing, hconfirmed, hmap, hunsent]

theorem pending_push (r : Replica) (a : Action) : (r.push a).pending = r.pending ++ [a] := by
  simp [pending, push]

theorem InStep.push {r : Replica} (h : r.InStep) (a : Action) : (r.push a).InStep := by
  have hreplay : (r.push a).replay = r.replay.apply .optimistic a := by
    rw [replay, pending_push, Board.applyAll_append]
    rfl
  rw [InStep, hreplay, ← h]
  rfl

theorem InStep.pushAll {r : Replica} (h : r.InStep) (as : List Action) :
    (as.foldl Replica.push r).InStep := by
  induction as generalizing r with
  | nil => exact h
  | cons a as ih => exact ih (h.push a)

theorem InStep.step {r : Replica} (h : r.InStep) (move : Option (UndoLedger × List Action)) :
    (r.step move).1.InStep := by
  cases move with
  | none => exact h
  | some move =>
    have hmoved : ({ r with ledger := move.1 } : Replica).InStep := h.congr rfl rfl rfl
    exact hmoved.pushAll move.2

theorem InStep.collect {r : Replica} (h : r.InStep) (id : UpdateId) : (r.collect id).1.InStep := by
  unfold Replica.collect
  split
  · exact h
  · exact h.congr rfl rfl (by simp [pending])

theorem InStep.edit {r : Replica} (h : r.InStep) (a : Action) : (r.edit a).InStep := by
  unfold Replica.edit
  cases UndoEntry.ofAction? r.view a with
  | none => exact h.push a
  | some entry => exact InStep.push (h.congr rfl rfl rfl) a

theorem InStep.call {r : Replica} (h : r.InStep) (c : Call) : (r.call c).1.InStep := by
  cases c with
  | receive actions id => exact inStep_refresh _
  | load es => exact inStep_refresh _
  | reject id =>
    simp only [Replica.call, reject_eq]
    split
    · exact inStep_refresh _
    · exact h
  | expirePing id =>
    simp only [Replica.call, expirePing_eq]
    split
    next => exact inStep_refresh _
    next hsame =>
      simp only [Bool.or_eq_true, bne_iff_ne, not_or, Bool.not_eq_true, Decidable.not_not] at hsame
      rw [withoutPing_eq_self hsame.1 hsame.2]
      exact h
  | edit a => exact h.edit a
  | collect id => exact h.collect id
  | fence =>
    simp only [Replica.call, fence]
    cases r.ledger.fence? with
    | none => exact h
    | some ledger => exact h.congr rfl rfl rfl
  | undo => exact h.step _
  | redo => exact h.step _

theorem Reachable.inStep {r : Replica} (h : r.Reachable) : r.InStep :=
  h.invariant inStep_empty fun _ c hr => hr.call c

/-- After every run the view is what a replay builds, down to the order within the groups; with
nothing pending it is the confirmed board. -/
theorem view_run (undoLimit : Nat) (calls : List Call) :
    let r := (empty undoLimit).run calls
    r.view = r.replay ∧
      ((∀ u ∈ r.inFlight, u.actions = []) → r.unsent = [] → r.view = r.confirmed) := by
  intro r
  have hview : r.view = r.replay := (reachable_run undoLimit calls).inStep
  refine ⟨hview, ?_⟩
  intro hsent hunsent
  have hpending : r.pending = [] := by
    rw [pending, hunsent, List.append_nil, List.flatMap_eq_nil_iff]
    exact hsent
  rw [hview, replay, hpending, Board.applyAll_nil]

end SharedBoard.Replica

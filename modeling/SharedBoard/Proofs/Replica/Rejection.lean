import SharedBoard.Proofs.Replica.Acknowledgement
import SharedBoard.Proofs.Replica.Delivery

/-! An update that the server refuses, against the run in which its edits were never made. Until the
refusal the two runs differ by those edits, first unsent and then under way, and by what they make
of the view; afterwards they are the same but for their ledgers. -/
namespace SharedBoard.Replica

/-- Whether a call takes a step in the ledger, which then says what is pushed. -/
def Call.stepsLedger : Call → Bool
  | .undo => true
  | .redo => true
  | _ => false

def Call.edit? : Call → Option Action
  | .edit a => some a
  | _ => none

/-- Whether an action that was just pushed is still unsent after later calls. -/
def staysUnsent (a : Action) (later : List Call) : Bool :=
  later.all fun c => !c.collects && !c.expires a

/-- The edits of a run that are still unsent after it: the next update takes them. -/
def unsentEdits : List Call → List Action
  | [] => []
  | c :: cs => c.edit?.toList.filter (staysUnsent · cs) ++ unsentEdits cs

/-- The calls of a run, less the edits that are still unsent after it. -/
def withoutUnsentEdits : List Call → List Call
  | [] => []
  | c :: cs =>
    if c.edit?.any (staysUnsent · cs) then withoutUnsentEdits cs else c :: withoutUnsentEdits cs

theorem staysUnsent_cons (a : Action) (c : Call) (later : List Call) :
    staysUnsent a (c :: later) = (!c.collects && !c.expires a && staysUnsent a later) :=
  List.all_cons

theorem Call.eq_edit {c : Call} {a : Action} (hc : c.edit? = some a) : c = .edit a := by
  cases c with
  | edit a' => exact congrArg Call.edit (Option.some.inj hc)
  | _ => cases hc

theorem unsent_of_not_collects (r : Replica) {c : Call} (hsteps : c.stepsLedger = false)
    (hcollects : c.collects = false) :
    (r.call c).1.unsent = r.unsent.filter (fun a => !c.expires a) ++ c.edit?.toList := by
  have hpushes : r.pushes c = c.edit?.toList := by
    cases c with
    | undo => cases hsteps
    | redo => cases hsteps
    | _ => rfl
  have hcall := unsent_call r c
  rwa [sends_of_not_collects r hcollects, List.flatMap_nil, List.nil_append, hpushes] at hcall

theorem unsent_of_collects (r : Replica) {c : Call} (hcollects : c.collects = true) :
    (r.call c).1.unsent = [] := by
  obtain ⟨id, rfl⟩ := Call.eq_collect hcollects
  simp only [call, collect]
  split
  next h => simpa using h
  next => rfl

theorem unsent_run_eq (r : Replica) {calls : List Call}
    (hsteps : ∀ c ∈ calls, c.stepsLedger = false) :
    (r.run calls).unsent = r.unsent.filter (staysUnsent · calls) ++ unsentEdits calls := by
  induction calls generalizing r with
  | nil => simp [staysUnsent, unsentEdits]
  | cons c cs ih =>
    obtain ⟨hc, hcs⟩ := List.forall_mem_cons.1 hsteps
    rw [run_cons, ih _ hcs]
    cases hcollects : c.collects with
    | true =>
      obtain ⟨id, rfl⟩ := Call.eq_collect hcollects
      rw [unsent_of_collects r hcollects]
      simp [staysUnsent_cons, hcollects, unsentEdits, Call.edit?]
    | false =>
      rw [unsent_of_not_collects r hc hcollects, unsentEdits, List.filter_append,
        List.filter_filter, List.append_assoc]
      simp only [staysUnsent_cons, hcollects, Bool.not_false, Bool.true_and, Bool.and_comm]

/-- The second replica is the first one without the updates under way whose ids are `ids`, and
without the unsent actions that are `dropped`. -/
structure Omits (ids : UpdateId → Bool) (dropped : Action → Bool) (r s : Replica) : Prop where
  confirmed_eq : s.confirmed = r.confirmed
  inFlight_eq : (s.inFlight.filter fun u => !ids u.id) = r.inFlight.filter fun u => !ids u.id
  unsent_eq : s.unsent = r.unsent.filter fun a => !dropped a

/-- What comes of the confirmed board depends on it alone. -/
theorem confirmed_call_congr {r s : Replica} (h : s.confirmed = r.confirmed) (c : Call) :
    (s.call c).1.confirmed = (r.call c).1.confirmed := by
  cases c with
  | load es => rfl
  | expirePing id => simp [call, withoutPing, h]
  | _ => simp [call, undo, redo, h]

theorem filter_leftOf (ids : UpdateId → Bool) (us : List Update) (later : List Call) :
    ((us.filterMap (leftOf · later)).filter fun u => !ids u.id) =
      (us.filter fun u => !ids u.id).filterMap (leftOf · later) := by
  rw [List.filter_filterMap, List.filterMap_filter]
  apply List.filterMap_congr
  intro u _
  unfold leftOf
  split
  · simp
  · cases hid : ids u.id <;> simp [Option.filter, hid]

namespace Omits

variable {ids : UpdateId → Bool} {dropped later : Action → Bool} {r s : Replica} {c : Call}

/-- A call that both replicas take. An action that it sends was kept by both, and so is one that it
pushes. -/
theorem call (h : Omits ids dropped r s) (hsteps : c.stepsLedger = false)
    (hdropped : ∀ a, dropped a = (!c.collects && !c.expires a && later a))
    (hedit : ∀ a ∈ c.edit?, later a = false) : Omits ids later (r.call c).1 (s.call c).1 := by
  have hconfirmed := confirmed_call_congr h.confirmed_eq c
  cases hcollects : c.collects with
  | true =>
    have hsame : s.unsent = r.unsent := by
      rw [h.unsent_eq]
      simp [hdropped, hcollects]
    have hsends : s.sends c = r.sends c := by
      obtain ⟨id, rfl⟩ := Call.eq_collect hcollects
      simp only [sends_collect, collect, hsame]
      split <;> rfl
    refine ⟨hconfirmed, ?_, ?_⟩
    · rw [inFlight_call, inFlight_call, List.filter_append, List.filter_append, filter_leftOf,
        filter_leftOf, h.inFlight_eq, hsends]
    · rw [unsent_of_collects s hcollects, unsent_of_collects r hcollects, List.filter_nil]
  | false =>
    refine ⟨hconfirmed, ?_, ?_⟩
    · rw [inFlight_of_not_collects s hcollects, inFlight_of_not_collects r hcollects,
        filter_leftOf, filter_leftOf, h.inFlight_eq]
    · have hkept : c.edit?.toList.filter (fun a => !later a) = c.edit?.toList := by
        apply List.filter_eq_self.2
        intro a ha
        rw [hedit a (Option.mem_toList.1 ha), Bool.not_false]
      rw [unsent_of_not_collects s hsteps hcollects, unsent_of_not_collects r hsteps hcollects,
        List.filter_append, hkept, h.unsent_eq, List.filter_filter, List.filter_filter]
      congr 1
      apply List.filter_congr
      intro a _
      rw [hdropped, hcollects]
      cases c.expires a <;> cases later a <;> rfl

/-- Runs that differ by no unsent action stay so. -/
theorem run (h : Omits ids (fun _ => false) r s) {calls : List Call}
    (hsteps : ∀ c ∈ calls, c.stepsLedger = false) :
    Omits ids (fun _ => false) (r.run calls) (s.run calls) := by
  induction calls generalizing r s with
  | nil => exact h
  | cons c cs ih =>
    obtain ⟨hc, hcs⟩ := List.forall_mem_cons.1 hsteps
    exact ih (h.call hc (fun _ => (Bool.and_false _).symm) fun _ _ => rfl) hcs

/-- The run without the edits that will be unsent after it has sent the same, and at every moment
lacks just those among its unsent actions. -/
theorem run_withoutUnsentEdits {calls : List Call} (h : Omits ids (staysUnsent · calls) r s)
    (hsteps : ∀ c ∈ calls, c.stepsLedger = false) :
    Omits ids (fun _ => true) (r.run calls) (s.run (withoutUnsentEdits calls)) := by
  induction calls generalizing r s with
  | nil => exact h
  | cons c cs ih =>
    obtain ⟨hc, hcs⟩ := List.forall_mem_cons.1 hsteps
    rw [withoutUnsentEdits, run_cons]
    split
    next hleft =>
      obtain ⟨a, ha, hstays⟩ := (Option.any_eq_true _ _).1 hleft
      obtain rfl := Call.eq_edit ha
      refine ih ⟨?_, ?_, ?_⟩ hcs
      · rw [h.confirmed_eq]
        exact (confirmed_edit r a).symm
      · rw [h.inFlight_eq]
        exact congrArg _ (inFlight_edit r a).symm
      · have hsame : ∀ x, staysUnsent x (.edit a :: cs) = staysUnsent x cs := fun _ => rfl
        have hunsent : (r.call (.edit a)).1.unsent = r.unsent ++ [a] := unsent_edit r a
        rw [h.unsent_eq, hunsent, List.filter_append, List.filter_cons_of_neg (by simpa using hstays),
          List.filter_nil, List.append_nil]
        simp only [hsame]
    next hkept =>
      refine ih (h.call hc (fun a => staysUnsent_cons a c cs) ?_) hcs
      intro a ha
      rw [← Bool.not_eq_true]
      intro hstays
      exact hkept ((Option.any_eq_true _ _).2 ⟨a, ha, hstays⟩)

/-- An update of nothing but dropped actions is sent by the first replica alone. -/
theorem collect (h : Omits (fun _ => false) (fun _ => true) r s) (id : UpdateId) :
    Omits (· == id) (fun _ => false) (r.call (.collect id)).1 (s.call (.collect id)).1 := by
  have hnone : s.unsent = [] := by
    rw [h.unsent_eq]
    simp
  have hflight : s.inFlight = r.inFlight := by simpa using h.inFlight_eq
  have hstays : s.call (.collect id) = (s, .update none) := by
    simp [Replica.call, Replica.collect, hnone]
  rw [hstays]
  refine ⟨h.confirmed_eq.trans (confirmed_collect r id).symm, ?_, ?_⟩
  · simp only [Replica.call, Replica.collect, hflight]
    split
    · rfl
    · simp
  · rw [unsent_of_collects r rfl, hnone, List.filter_nil]

/-- A refusal takes out what the second replica never had under way. -/
theorem reject {id : UpdateId} (h : Omits (· == id) (fun _ => false) r s) :
    Omits (fun _ => false) (fun _ => false) (r.call (.reject id)).1 (s.call (.reject id)).1 := by
  refine ⟨confirmed_call_congr h.confirmed_eq _, ?_, ?_⟩
  · simp only [Replica.call, inFlight_reject]
    exact congrArg _ h.inFlight_eq
  · simp only [Replica.call, unsent_reject]
    exact h.unsent_eq

theorem view_eq (h : Omits (fun _ => false) (fun _ => false) r s) (hr : r.InStep)
    (hs : s.InStep) : s.inFlight = r.inFlight ∧ s.unsent = r.unsent ∧ s.view = r.view := by
  have hflight : s.inFlight = r.inFlight := by simpa using h.inFlight_eq
  have hunsent : s.unsent = r.unsent := by simpa using h.unsent_eq
  refine ⟨hflight, hunsent, ?_⟩
  rw [hs, hr, replay, replay, pending, pending, h.confirmed_eq, hflight, hunsent]

end Omits

/-- In a run that takes no step in the ledger, an update is sent and later refused. Without the edits
that went into the update, the same calls end with the same confirmed board, view, updates under way
and unsent actions; this is so whether or not the update was still under way when it was refused. -/
theorem reject_leaves_no_trace (undoLimit : Nat) (before between after : List Call) (id : UpdateId)
    (hsteps : ∀ c ∈ before ++ between ++ after, c.stepsLedger = false) :
    let start := empty undoLimit
    let rest := Call.collect id :: (between ++ Call.reject id :: after)
    let full := start.run (before ++ rest)
    let less := start.run (withoutUnsentEdits before ++ rest)
    (∀ u ∈ ((start.run before).collect id).2, u.actions = unsentEdits before) ∧
      less.confirmed = full.confirmed ∧ less.view = full.view ∧
      less.inFlight = full.inFlight ∧ less.unsent = full.unsent := by
  intro start rest full less
  simp only [List.forall_mem_append] at hsteps
  obtain ⟨⟨hbefore, hbetween⟩, hafter⟩ := hsteps
  have hbatch : ∀ u ∈ ((start.run before).collect id).2, u.actions = unsentEdits before := by
    have hunsent := unsent_run_eq start hbefore
    intro u hu
    unfold collect at hu
    split at hu
    · cases hu
    · cases hu
      exact hunsent
  have hstart : Omits (fun _ => false) (staysUnsent · before) start start := ⟨rfl, rfl, rfl⟩
  have hmade := hstart.run_withoutUnsentEdits hbefore
  have hrun : ∀ calls, start.run (calls ++ rest) =
      ((((start.run calls).call (.collect id)).1.run between).call (.reject id)).1.run after := by
    intro calls
    rw [run_append, run_cons, run_append, run_cons]
  have hend : Omits (fun _ => false) (fun _ => false) full less := by
    rw [show full = _ from hrun _, show less = _ from hrun _]
    exact ((hmade.collect id).run hbetween).reject.run hafter
  have hfull : full.InStep := (reachable_run undoLimit _).inStep
  have hless : less.InStep := (reachable_run undoLimit _).inStep
  obtain ⟨hflight, hunsent, hview⟩ := hend.view_eq hfull hless
  exact ⟨hbatch, hend.confirmed_eq, hview, hflight, hunsent⟩

/-- An orc is confirmed and one is under way. A third one comes, and so does a ping, which expires
before it is sent; then the first one makes room for a fourth. -/
def untilRefused : List Call :=
  [.receive [.upsert (orcAt 1 0)] none, .edit (.upsert (orcAt 2 1)), .collect (.ofNat 7),
    .edit (.upsert (orcAt 3 2)), .edit (.ping ⟨.ofNat 9, ⟨0, 0⟩⟩), .edit (.delete (.ofNat 1)),
    .expirePing (.ofNat 9), .edit (.upsert (orcAt 4 0)), .fence]

/-- A fifth orc finds its place taken by the third, and the second one is confirmed. -/
def untilRefusal : List Call :=
  [.edit (.upsert (orcAt 5 2)), .receive [.upsert (orcAt 2 1)] (some (.ofNat 7)),
    .edit (.upsert (orcAt 1 4)), .collect (.ofNat 10)]

theorem reject_leaves_no_trace_thirdOrc :
    (∀ c ∈ untilRefused ++ untilRefusal ++ [.edit (.delete (.ofNat 2))], c.stepsLedger = false) ∧
    (let start := empty 1
      let rest := Call.collect (.ofNat 8) ::
        (untilRefusal ++ Call.reject (.ofNat 8) :: [.edit (.delete (.ofNat 2))])
      let full := start.run (untilRefused ++ rest)
      let less := start.run (withoutUnsentEdits untilRefused ++ rest)
      (∀ u ∈ ((start.run untilRefused).collect (.ofNat 8)).2,
          u.actions = unsentEdits untilRefused) ∧
        less.confirmed = full.confirmed ∧ less.view = full.view ∧
        less.inFlight = full.inFlight ∧ less.unsent = full.unsent) ∧
    unsentEdits untilRefused =
      [.upsert (orcAt 3 2), .delete (.ofNat 1), .upsert (orcAt 4 0)] ∧
    (((empty 1).run (untilRefused ++ .collect (.ofNat 8) :: untilRefusal)).inFlight.map Update.id) =
      [.ofNat 8, .ofNat 10] := by
  have hsteps : ∀ c ∈ untilRefused ++ untilRefusal ++ [.edit (.delete (.ofNat 2))],
      c.stepsLedger = false := by decide
  exact ⟨hsteps, reject_leaves_no_trace 1 untilRefused untilRefusal _ (.ofNat 8) hsteps,
    by decide, by decide⟩

end SharedBoard.Replica

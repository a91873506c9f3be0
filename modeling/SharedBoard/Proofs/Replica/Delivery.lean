import Mathlib.Data.List.Basic
import SharedBoard.Proofs.Replica.Replay

/-! The way of edits to the server, over whole runs. Every action that is pushed is sent once and in
order, but for pings that expire before they are collected; and the updates under way are those that
were sent and have not been named since, without the pings that expired since. -/
namespace SharedBoard

namespace UndoLedger

/-- The set that undoing would take back. -/
def setToUndo? (l : UndoLedger) : Option (List UndoEntry) :=
  if l.canUndo then l.sets[l.cursor - 1]? else none

/-- The set that redoing would take again. -/
def setToRedo? (l : UndoLedger) : Option (List UndoEntry) :=
  if l.canRedo then l.sets[l.cursor]? else none

theorem stepBack?_eq (l : UndoLedger) :
    l.stepBack? = l.setToUndo?.map fun set =>
      ({ l with cursor := l.cursor - 1 }, set.reverse.map UndoEntry.inverse) := by
  unfold stepBack? setToUndo?
  split <;> rfl

theorem stepForward?_eq (l : UndoLedger) :
    l.stepForward? = l.setToRedo?.map fun set =>
      ({ l with cursor := l.cursor + 1 }, set.map UndoEntry.forward) := by
  unfold stepForward? setToRedo?
  split <;> rfl

end UndoLedger

namespace Replica

/-- Whether a call expires the ping that an action creates. -/
def Call.expires (a : Action) : Call → Bool
  | .expirePing id => a.createdPing? == some id
  | _ => false

/-- Whether a call names an update, as confirmed or as refused. -/
def Call.names (id : UpdateId) : Call → Bool
  | .receive _ (some k) => id == k
  | .reject k => id == k
  | _ => false

def Call.collects : Call → Bool
  | .collect _ => true
  | _ => false

theorem Call.eq_collect {c : Call} (hc : c.collects = true) : ∃ id, c = .collect id := by
  cases c with
  | collect id => exact ⟨id, rfl⟩
  | _ => cases hc

/-- Whether an action that was just pushed expires before the next update is collected. -/
def expiresUnsent (a : Action) (later : List Call) : Bool :=
  (later.takeWhile (!·.collects)).any (·.expires a)

/-- What later calls leave of an update that was just sent. -/
def leftOf (u : Update) (later : List Call) : Option Update :=
  if later.any (·.names u.id) then none
  else some { u with actions := u.actions.filter fun a => !later.any (·.expires a) }

/-- The actions that a call pushes: an edit, the inverses of the set that is undone, the latest
entry first, or the forwards of the set that is redone. -/
def pushes (r : Replica) : Call → List Action
  | .edit a => [a]
  | .undo => (r.ledger.setToUndo?.getD []).reverse.map UndoEntry.inverse
  | .redo => (r.ledger.setToRedo?.getD []).map UndoEntry.forward
  | _ => []

/-- All actions that a run pushes, each with the calls after it. -/
def pushed (r : Replica) : List Call → List (Action × List Call)
  | [] => []
  | c :: cs => (r.pushes c).map (·, cs) ++ (r.call c).1.pushed cs

/-- The update that a call returns for sending. -/
def sends (r : Replica) (c : Call) : List Update :=
  match (r.call c).2 with
  | .update u => u.toList
  | _ => []

/-- All updates that a run returns for sending, each with the calls after it. -/
def sent (r : Replica) : List Call → List (Update × List Call)
  | [] => []
  | c :: cs => (r.sends c).map (·, cs) ++ (r.call c).1.sent cs

section Calls

variable (r : Replica)

@[simp] theorem unsent_pushAll (as : List Action) : (as.foldl push r).unsent = r.unsent ++ as := by
  induction as generalizing r with
  | nil => simp
  | cons a as ih => rw [List.foldl_cons, ih, push, List.append_assoc, List.singleton_append]

@[simp] theorem inFlight_pushAll (as : List Action) : (as.foldl push r).inFlight = r.inFlight := by
  induction as generalizing r with
  | nil => rfl
  | cons a as ih => exact ih (r.push a)

theorem unsent_step (move : Option (UndoLedger × List Action)) :
    (r.step move).1.unsent = r.unsent ++ (move.map Prod.snd).getD [] := by
  cases move with
  | none => simp [step]
  | some move => simp [step]

theorem inFlight_step (move : Option (UndoLedger × List Action)) :
    (r.step move).1.inFlight = r.inFlight := by
  cases move with
  | none => rfl
  | some move => simp [step]

theorem unsent_edit (a : Action) : (r.edit a).unsent = r.unsent ++ [a] := by
  unfold edit
  cases UndoEntry.ofAction? r.view a <;> rfl

theorem inFlight_edit (a : Action) : (r.edit a).inFlight = r.inFlight := by
  unfold edit
  cases UndoEntry.ofAction? r.view a <;> rfl

theorem unsent_fence : r.fence.1.unsent = r.unsent := by
  unfold fence
  cases r.ledger.fence? <;> rfl

theorem inFlight_fence : r.fence.1.inFlight = r.inFlight := by
  unfold fence
  cases r.ledger.fence? <;> rfl

theorem unsent_reject (id : UpdateId) : (r.reject id).1.unsent = r.unsent := by
  rw [reject_eq]
  split <;> rfl

theorem inFlight_reject (id : UpdateId) :
    (r.reject id).1.inFlight = r.inFlight.filter (·.id != id) := by
  rw [reject_eq]
  split
  next => rfl
  next h =>
    rw [Bool.not_eq_true] at h
    exact (congrArg inFlight (settle_eq_self h)).symm

theorem unsent_expirePing (id : EntityId) :
    (r.expirePing id).1.unsent = r.unsent.filter (outlives id) := by
  rw [expirePing_eq]
  split <;> rfl

theorem inFlight_expirePing (id : EntityId) :
    (r.expirePing id).1.inFlight =
      r.inFlight.map fun u => { u with actions := u.actions.filter (outlives id) } := by
  rw [expirePing_eq]
  split <;> rfl

@[simp] theorem unsent_collect (id : UpdateId) : (r.collect id).1.unsent = [] := by
  unfold collect
  split
  next h => simpa using h
  next => rfl

theorem sends_collect (id : UpdateId) : r.sends (.collect id) = (r.collect id).2.toList := rfl

theorem sends_of_not_collects {c : Call} (hc : c.collects = false) : r.sends c = [] := by
  cases c with
  | collect id => cases hc
  | _ => rfl

/-- What was unsent before a call, less what expires, and what the call pushes: that is sent by the
call, or unsent after it. -/
theorem unsent_call (c : Call) :
    (r.sends c).flatMap Update.actions ++ (r.call c).1.unsent =
      r.unsent.filter (fun a => !c.expires a) ++ r.pushes c := by
  cases c with
  | receive actions id => simp [sends, call, pushes, Call.expires, unsent_receive]
  | load es => simp [sends, call, pushes, Call.expires, load, refresh]
  | reject id => simp [sends, call, pushes, Call.expires, unsent_reject]
  | expirePing id =>
    simp only [sends, call, pushes, Call.expires, unsent_expirePing]
    exact (List.append_nil _).symm
  | edit a => simp [sends, call, pushes, Call.expires, unsent_edit]
  | collect id =>
    simp only [sends_collect, call, pushes, Call.expires, collect]
    split
    next hnone => simp
    next => simp
  | fence => simp [sends, call, pushes, Call.expires, unsent_fence]
  | undo =>
    simp only [sends, call, pushes, Call.expires, undo, unsent_step, UndoLedger.stepBack?_eq]
    cases r.ledger.setToUndo? <;> simp
  | redo =>
    simp only [sends, call, pushes, Call.expires, redo, unsent_step, UndoLedger.stepForward?_eq]
    cases r.ledger.setToRedo? <;> simp

theorem filterMap_leftOf_of_spared {c : Call} (us : List Update)
    (hnames : ∀ id, c.names id = false) (hexpires : ∀ a, c.expires a = false) :
    us.filterMap (leftOf · [c]) = us := by
  simp [leftOf, hnames, hexpires]

theorem filterMap_leftOf_of_named {c : Call} {id : UpdateId} (us : List Update)
    (hnames : ∀ k, c.names k = (k == id)) (hexpires : ∀ a, c.expires a = false) :
    us.filterMap (leftOf · [c]) = us.filter (·.id != id) := by
  rw [← List.filterMap_eq_filter]
  apply List.filterMap_congr
  intro u _
  simp only [leftOf, List.any_cons, List.any_nil, Bool.or_false, hnames, hexpires, Bool.not_false,
    List.filter_true, Option.guard, bne]
  split
  next hid => simp [hid]
  next hid => simp [hid]

/-- What a call that does not collect leaves of the updates under way. -/
theorem inFlight_of_not_collects {c : Call} (hc : c.collects = false) :
    (r.call c).1.inFlight = r.inFlight.filterMap (leftOf · [c]) := by
  cases c with
  | receive actions id =>
    cases id with
    | none => exact (filterMap_leftOf_of_spared _ (fun _ => rfl) fun _ => rfl).symm
    | some id => exact (filterMap_leftOf_of_named _ (fun _ => rfl) fun _ => rfl).symm
  | load es => exact (filterMap_leftOf_of_spared _ (fun _ => rfl) fun _ => rfl).symm
  | reject id =>
    rw [filterMap_leftOf_of_named _ (fun _ => rfl) fun _ => rfl]
    exact inFlight_reject r id
  | expirePing id =>
    have hleft : ∀ u : Update, leftOf u [.expirePing id] =
        some { u with actions := u.actions.filter (outlives id) } := by
      intro u
      simp only [leftOf, Call.names, Call.expires, List.any_cons, List.any_nil, Bool.or_false]
      rfl
    simp only [call, inFlight_expirePing, hleft]
    rw [List.filterMap_eq_map']
  | edit a =>
    rw [filterMap_leftOf_of_spared _ (fun _ => rfl) fun _ => rfl]
    exact inFlight_edit r a
  | collect id => cases hc
  | fence =>
    rw [filterMap_leftOf_of_spared _ (fun _ => rfl) fun _ => rfl]
    exact inFlight_fence r
  | undo =>
    rw [filterMap_leftOf_of_spared _ (fun _ => rfl) fun _ => rfl]
    exact inFlight_step r _
  | redo =>
    rw [filterMap_leftOf_of_spared _ (fun _ => rfl) fun _ => rfl]
    exact inFlight_step r _

/-- What was under way before a call, as far as the call leaves it, and what it sends. -/
theorem inFlight_call (c : Call) :
    (r.call c).1.inFlight = r.inFlight.filterMap (leftOf · [c]) ++ r.sends c := by
  cases hc : c.collects with
  | false => rw [inFlight_of_not_collects r hc, sends_of_not_collects r hc, List.append_nil]
  | true =>
    obtain ⟨id, rfl⟩ := Call.eq_collect hc
    rw [filterMap_leftOf_of_spared _ (fun _ => rfl) fun _ => rfl, sends_collect]
    simp only [call, collect]
    split
    next => exact (List.append_nil _).symm
    next => rfl

/-- An update is sent only when there is something to send. -/
theorem actions_ne_nil_of_sends {c : Call} {u : Update} (h : u ∈ r.sends c) : u.actions ≠ [] := by
  cases c with
  | collect id =>
    rw [sends_collect, collect] at h
    split at h
    next => cases h
    next hunsent =>
      obtain rfl := List.mem_singleton.1 h
      simpa using hunsent
  | _ => cases h

end Calls

section Runs

theorem leftOf_cons (u : Update) (c : Call) (later : List Call) :
    leftOf u (c :: later) = (leftOf u [c]).bind (leftOf · later) := by
  cases hnames : c.names u.id with
  | true => simp [leftOf, hnames]
  | false =>
    simp only [leftOf, List.any_cons, hnames, Bool.false_or, List.any_nil, Bool.or_false,
      Bool.false_eq_true, if_false, Option.bind_some, List.filter_filter, Bool.not_or]
    simp only [Bool.and_comm]

theorem expiresUnsent_cons {c : Call} (hc : c.collects = false) (a : Action) (later : List Call) :
    expiresUnsent a (c :: later) = (c.expires a || expiresUnsent a later) := by
  simp [expiresUnsent, hc]

theorem expiresUnsent_collect (a : Action) (id : UpdateId) (later : List Call) :
    expiresUnsent a (.collect id :: later) = false := rfl

/-- A call that does not collect leaves what it pushes, and what was unsent, to the calls after it;
a collect takes all that was unsent out of their reach. -/
theorem unsent_run (r : Replica) (calls : List Call) :
    (r.sent calls).flatMap (·.1.actions) ++ (r.run calls).unsent =
      r.unsent.filter (fun a => !expiresUnsent a calls) ++
        ((r.pushed calls).filter fun x => !expiresUnsent x.1 x.2).map Prod.fst := by
  induction calls generalizing r with
  | nil => simp [sent, pushed, expiresUnsent]
  | cons c cs ih =>
    have hcall := unsent_call r c
    have hrest := ih (r.call c).1
    have hpushed : (((r.pushes c).map (·, cs)).filter fun x => !expiresUnsent x.1 x.2).map Prod.fst =
        (r.pushes c).filter fun a => !expiresUnsent a cs := by
      simp [List.filter_map, Function.comp_def]
    rw [pushed, List.filter_append, List.map_append, hpushed, run_cons]
    cases hc : c.collects with
    | false =>
      rw [sends_of_not_collects r hc, List.flatMap_nil, List.nil_append] at hcall
      rw [sent, sends_of_not_collects r hc, List.map_nil, List.nil_append, hrest, hcall,
        List.filter_append, List.filter_filter, List.append_assoc]
      simp only [expiresUnsent_cons hc, Bool.not_or, Bool.and_comm]
    | true =>
      obtain ⟨id, rfl⟩ := Call.eq_collect hc
      have hunsent : (r.call (.collect id)).1.unsent = [] := unsent_collect r id
      rw [hunsent, List.filter_nil, List.nil_append] at hrest
      simp only [hunsent, Call.expires, pushes, Bool.not_false, List.filter_true,
        List.append_nil] at hcall
      rw [sent, List.flatMap_append, List.append_assoc, hrest, List.flatMap_map]
      simp only [hcall, expiresUnsent_collect, pushes, Bool.not_false, List.filter_true,
        List.filter_nil, List.nil_append]

theorem inFlight_run (r : Replica) (calls : List Call) :
    (r.run calls).inFlight =
      r.inFlight.filterMap (leftOf · calls) ++ (r.sent calls).filterMap fun x => leftOf x.1 x.2 := by
  induction calls generalizing r with
  | nil => simp [sent, leftOf]
  | cons c cs ih =>
    rw [run_cons, ih, inFlight_call, sent, List.filterMap_append, List.filterMap_append,
      List.filterMap_filterMap, List.filterMap_map, List.append_assoc]
    simp only [leftOf_cons _ c cs]
    rfl

end Runs

theorem actions_ne_nil_of_sent (r : Replica) (calls : List Call) :
    ∀ x ∈ r.sent calls, x.1.actions ≠ [] := by
  induction calls generalizing r with
  | nil => exact fun x hx => nomatch hx
  | cons c cs ih =>
    intro x hx
    rcases List.mem_append.1 hx with hx | hx
    · obtain ⟨u, hu, rfl⟩ := List.mem_map.1 hx
      exact actions_ne_nil_of_sends r hu
    · exact ih _ x hx

/-- On its way to the server no edit is lost, doubled or overtaken. What was sent and what is still
unsent are together the pushed actions in order, less the pings that expired before they were
collected; no update is empty; and what is under way is what was sent and not named since, less the
pings that expired since. -/
theorem delivery_run (undoLimit : Nat) (calls : List Call) :
    let start := empty undoLimit
    let done := start.run calls
    (start.sent calls).flatMap (·.1.actions) ++ done.unsent =
        ((start.pushed calls).filter fun x => !expiresUnsent x.1 x.2).map Prod.fst ∧
      (∀ x ∈ start.sent calls, x.1.actions ≠ []) ∧
      done.inFlight = (start.sent calls).filterMap fun x => leftOf x.1 x.2 :=
  ⟨unsent_run _ calls, actions_ne_nil_of_sent _ calls, inFlight_run _ calls⟩

end Replica

end SharedBoard

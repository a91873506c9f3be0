import Mathlib.Data.List.Induction
import SharedBoard.Session.Loop

/-! The turns of the loop, in whatever order they come. A tick that is due and a command that waits
are both ready, and the loop may take either first; the order in which it comes to rest is one of
them. Commands are handled in the order in which they were accepted. -/
namespace SharedBoard

/-- What can come next: something happens around the loop, or the loop takes a tick if it is due, or
it takes its turn at the mailbox. -/
inductive Turn where
  | happen (e : Loop.Event)
  | tick
  | receive
  deriving DecidableEq

namespace Loop

variable (fresh : Nat → Uuid)

def take (l : Loop) : Turn → Loop
  | .happen e => l.occur e
  | .tick => l.tick fresh
  | .receive => l.receive fresh

def run (l : Loop) (turns : List Turn) : Loop := turns.foldl (take fresh) l

@[simp] theorem run_nil (l : Loop) : l.run fresh [] = l := rfl

@[simp] theorem run_cons (l : Loop) (t : Turn) (turns : List Turn) :
    l.run fresh (t :: turns) = (l.take fresh t).run fresh turns := rfl

theorem run_append (l : Loop) (before after : List Turn) :
    l.run fresh (before ++ after) = (l.run fresh before).run fresh after := List.foldl_append

theorem run_replicate (l : Loop) (n : Nat) (t : Turn) :
    l.run fresh (.replicate n t) = n.repeat (take fresh · t) l := by
  induction n with
  | zero => rfl
  | succ n ih =>
    rw [List.replicate_succ', run_append, ih]
    rfl

/-- The turns in which a loop comes to rest. -/
def restTurns (l : Loop) : List Turn :=
  .replicate (tolerance + 1) .tick ++ .replicate (l.mailbox.length + 1) .receive

theorem not_happen_of_mem_restTurns {l : Loop} {e : Event} : .happen e ∉ l.restTurns := by
  simp [restTurns]

theorem settle_eq_run (l : Loop) : l.settle fresh = l.run fresh l.restTurns := by
  rw [restTurns, run_append, run_replicate, run_replicate]
  rfl

/-- The loop that is started and comes to rest after each of some events takes a run of turns in
which nothing else happens. -/
theorem exists_run_of_steps (settings : Settings) (events : List Event) :
    ∃ turns, (∀ e, .happen e ∈ turns → e ∈ events) ∧
      events.foldl (step fresh) (start fresh settings) = (ofSettings settings).run fresh turns := by
  induction events using List.reverseRecOn with
  | nil => exact ⟨_, by simp [restTurns], settle_eq_run fresh (ofSettings settings)⟩
  | append_singleton events e ih =>
    obtain ⟨turns, honly, hrun⟩ := ih
    refine ⟨turns ++ .happen e ::
      ((events.foldl (step fresh) (start fresh settings)).occur e).restTurns, ?_, ?_⟩
    · intro d hd
      rcases List.mem_append.1 hd with hd | hd
      · exact List.mem_append_left _ (honly d hd)
      · rcases List.mem_cons.1 hd with hd | hd
        · cases hd
          exact List.mem_append_right _ (List.mem_singleton_self e)
        · exact absurd hd not_happen_of_mem_restTurns
    · rw [List.foldl_append, run_append, ← hrun]
      exact settle_eq_run fresh _

/-- The commands that a turn accepts into the mailbox. -/
def accepts (l : Loop) : Turn → List Command
  | .happen (.send c) => if l.running && l.hasSender then [c] else []
  | _ => []

/-- The command that a turn handles. -/
def handles (l : Loop) : Turn → List Command
  | .receive => if l.running then l.mailbox.take 1 else []
  | _ => []

/-- What the turns of a run tell of the loops at which they are taken, one after the other. -/
def along {α : Type} (tells : Loop → Turn → List α) (l : Loop) : List Turn → List α
  | [] => []
  | t :: turns => tells l t ++ (l.take fresh t).along tells turns

/-- The update that the unsent edits make. -/
def leftover (l : Loop) : List Update := (l.session.collect (fresh l.taken)).2.toList

/-- What a tick does before it sends. -/
def sweep (l : Loop) : Loop :=
  let swept := l.session.expirePings l.now
  { l with
    session := swept.1
    published := if swept.2.isEmpty then l.published else swept.1.view
    nextTick := l.tickAfter }

section Parts

variable (l : Loop)

theorem flush_eq :
    l.flush fresh =
      ({ l with
          session := (l.session.collect (fresh l.taken)).1
          outbox := if l.hasReceiver then l.outbox ++ l.leftover fresh else l.outbox
          taken := l.taken + 1 },
        l.hasReceiver || (l.leftover fresh).isEmpty) := by
  unfold flush leftover
  obtain ⟨session, update⟩ := l.session.collect (fresh l.taken)
  cases update with
  | none => simp
  | some u => cases l.hasReceiver <;> simp

theorem tick_of_not_due (h : l.isTickDue = false) : l.tick fresh = l := by simp [tick, h]

theorem tick_of_due (h : l.isTickDue = true) :
    l.tick fresh =
      { (l.sweep.flush fresh).1 with running := (l.sweep.flush fresh).2 } := by
  have hsweep : l.sweep = if (l.session.expirePings l.now).2.isEmpty then
      { l with
        session := (l.session.expirePings l.now).1
        nextTick := l.tickAfter }
    else
      publish { l with
        session := (l.session.expirePings l.now).1
        nextTick := l.tickAfter } := by
    unfold sweep
    dsimp only
    split <;> rfl
  rw [hsweep]
  simp only [tick, h, if_true]

theorem receive_of_stopped (h : l.running = false) : l.receive fresh = l := by
  simp [receive, h]

theorem receive_cons {c : Command} {rest : List Command} (hrun : l.running = true)
    (hbox : l.mailbox = c :: rest) :
    l.receive fresh = { l with mailbox := rest }.handle fresh c := by
  simp [receive, hrun, hbox]

theorem receive_of_waiting (hbox : l.mailbox = []) (hsender : l.hasSender = true) :
    l.receive fresh = l := by
  simp [receive, hbox, hsender]

theorem receive_of_closed (hrun : l.running = true) (hbox : l.mailbox = [])
    (hsender : l.hasSender = false) :
    l.receive fresh = { (l.flush fresh).1 with running := false } := by
  simp [receive, hrun, hbox, hsender]

end Parts

section Mailbox

/-- The mailbox is a queue: what it holds and what it accepts is what is handled and what stays. -/
theorem mailbox_take (l : Loop) (t : Turn) :
    l.mailbox ++ l.accepts t = l.handles t ++ (l.take fresh t).mailbox := by
  cases t with
  | happen e =>
    cases e with
    | send c =>
      simp only [accepts, handles, take, occur]
      split <;> simp
    | _ => simp [accepts, handles, take, occur]
  | tick =>
    cases hdue : l.isTickDue with
    | false => simp [accepts, handles, take, tick_of_not_due fresh l hdue]
    | true => simp [accepts, handles, take, tick_of_due fresh l hdue, flush_eq, sweep]
  | receive =>
    simp only [accepts, handles, take, List.append_nil]
    cases hrun : l.running with
    | false => simp [receive_of_stopped fresh l hrun]
    | true =>
      cases hbox : l.mailbox with
      | nil =>
        cases hsender : l.hasSender with
        | true => simp [receive_of_waiting fresh l hbox hsender, hbox]
        | false => simp [receive_of_closed fresh l hrun hbox hsender, flush_eq, hbox]
      | cons c rest =>
        rw [receive_cons fresh l hrun hbox]
        simp [handle, publish]

theorem mailbox_run (l : Loop) (turns : List Turn) :
    l.mailbox ++ l.along fresh accepts turns =
      l.along fresh handles turns ++ (l.run fresh turns).mailbox := by
  induction turns generalizing l with
  | nil => simp [along]
  | cons t turns ih =>
    rw [along, along, run_cons, ← List.append_assoc, mailbox_take fresh, List.append_assoc, ih,
      List.append_assoc]

end Mailbox

end Loop

end SharedBoard

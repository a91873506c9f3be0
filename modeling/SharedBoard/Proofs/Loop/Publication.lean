import SharedBoard.Proofs.Loop.Turns

/-! What callers read. Whatever turns the loop takes, and however it stops, the view that it
published last is that of its session: a turn that does not publish changes no view. -/
namespace SharedBoard

namespace Session

/-- Collecting moves edits from the unsent ones to those under way, and the view shows both. -/
theorem view_collect (s : Session) (id : UpdateId) : (s.collect id).1.view = s.view := by
  show (s.replica.collect id).1.view = s.replica.view
  unfold Replica.collect
  split <;> rfl

/-- A sweep that finds no ping expired changes nothing. -/
theorem expirePings_of_nil {s : Session} {now : Instant} (h : (s.expirePings now).2 = []) :
    (s.expirePings now).1 = s := by
  show ((s.expirePings now).2).foldl expire s = s
  rw [h, List.foldl_nil]

end Session

namespace Loop

variable (fresh : Nat → Uuid)

section Unpublished

variable (l : Loop)

theorem published_flush : (l.flush fresh).1.published = l.published := by rw [flush_eq]

theorem view_flush : (l.flush fresh).1.session.view = l.session.view := by
  rw [flush_eq]
  exact Session.view_collect _ _

/-- A tick publishes only what a sweep has changed. -/
theorem published_tick (h : (l.session.expirePings l.now).2 = []) :
    (l.tick fresh).published = l.published := by
  cases hdue : l.isTickDue with
  | false => rw [tick_of_not_due fresh l hdue]
  | true =>
    rw [tick_of_due fresh l hdue]
    show (l.sweep.flush fresh).1.published = l.published
    rw [published_flush, sweep, h]
    rfl

/-- A turn at an empty mailbox publishes nothing, the last turn of all included. -/
theorem published_receive (h : l.mailbox = []) : (l.receive fresh).published = l.published := by
  unfold receive
  rw [h]
  split
  · rfl
  · dsimp only
    split
    · rfl
    · exact published_flush fresh l

end Unpublished

/-- Callers read the view of the session. -/
def Current (l : Loop) : Prop := l.published = l.session.view

theorem current_ofSettings (settings : Settings) : (ofSettings settings).Current := rfl

namespace Current

variable {l : Loop} (h : l.Current)
include h

theorem flush : (l.flush fresh).1.Current := by
  rw [Current, published_flush, view_flush]
  exact h

theorem sweep : l.sweep.Current := by
  cases hids : (l.session.expirePings l.now).2 with
  | nil =>
    have hview : l.sweep.session.view = l.session.view :=
      congrArg Session.view (Session.expirePings_of_nil hids)
    rw [Current, hview, Loop.sweep, hids]
    exact h
  | cons id ids =>
    simp [Current, Loop.sweep, hids]

theorem tick : (l.tick fresh).Current := by
  cases hdue : l.isTickDue with
  | false => rwa [tick_of_not_due fresh l hdue]
  | true =>
    rw [tick_of_due fresh l hdue]
    exact h.sweep.flush fresh

theorem receive : (l.receive fresh).Current := by
  cases hrun : l.running with
  | false => rwa [receive_of_stopped fresh l hrun]
  | true =>
    cases hbox : l.mailbox with
    | cons c rest =>
      rw [receive_cons fresh l hrun hbox]
      rfl
    | nil =>
      cases hsender : l.hasSender with
      | true => rwa [receive_of_waiting fresh l hbox hsender]
      | false =>
        rw [receive_of_closed fresh l hrun hbox hsender]
        exact h.flush fresh

theorem take (t : Turn) : (l.take fresh t).Current := by
  cases t with
  | happen e =>
    cases e with
    | send c =>
      simp only [Loop.take, occur]
      split <;> exact h
    | _ => exact h
  | tick => exact h.tick fresh
  | receive => exact h.receive fresh

theorem run (turns : List Turn) : (l.run fresh turns).Current := by
  induction turns generalizing l with
  | nil => exact h
  | cons t turns ih => exact ih (h.take fresh t)

end Current

/-- In every order of turns callers read the view of the session, down to the order within its
groups, and so they do when the loop comes to rest after each of some events. It is not published
afresh by a tick that finds no ping expired, by sending, or by the turn that stops the loop. -/
theorem view_published (settings : Settings) :
    (∀ turns : List Turn,
        let l := (ofSettings settings).run fresh turns
        l.published = l.session.view) ∧
      (∀ events : List Event,
        let l := events.foldl (step fresh) (start fresh settings)
        l.published = l.session.view) ∧
      ∀ l : Loop,
        ((l.session.expirePings l.now).2 = [] → (l.tick fresh).published = l.published) ∧
          (l.flush fresh).1.published = l.published ∧
          (l.mailbox = [] → (l.receive fresh).published = l.published) := by
  have hrun : ∀ turns : List Turn, ((ofSettings settings).run fresh turns).Current :=
    (current_ofSettings settings).run fresh
  refine ⟨hrun, ?_, ?_⟩
  · intro events
    obtain ⟨turns, -, hturns⟩ := exists_run_of_steps fresh settings events
    exact hturns ▸ hrun turns
  · intro l
    exact ⟨published_tick fresh l, published_flush fresh l, published_receive fresh l⟩

end Loop

end SharedBoard

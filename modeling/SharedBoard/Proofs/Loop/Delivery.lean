import SharedBoard.Proofs.Loop.Turns
import SharedBoard.Proofs.Replica.Delivery
import SharedBoard.Proofs.Session.Calls

/-! The way of edits out of the loop, whatever the order of its turns. The updates that it sends
hold what the handled commands push, in order and once, less the pings that the sweep right before
the sending finds expired; and when nobody can send it a command any more, it stops with nothing
left. -/
namespace SharedBoard

namespace Action

/-- Whether an action creates one of the pings. -/
def createsOneOf (ids : List EntityId) (a : Action) : Bool := a.createdPing?.any ids.contains

@[simp] theorem createsOneOf_nil (a : Action) : a.createsOneOf [] = false := by
  unfold createsOneOf
  cases a.createdPing? <;> rfl

theorem createsOneOf_cons (id : EntityId) (ids : List EntityId) (a : Action) :
    a.createsOneOf (id :: ids) = (!Replica.outlives id a || a.createsOneOf ids) := by
  unfold createsOneOf Replica.outlives
  cases a.createdPing? with
  | none => rfl
  | some k => by_cases hk : k = id <;> simp [hk]

end Action

namespace Session

/-- The actions that a call pushes. Undoing seals the open set first. -/
def pushes (s : Session) : Call → List Action
  | .upsert e => [.upsert e]
  | .delete id => [.delete id]
  | .ping id c => [.ping ⟨id, c⟩]
  | .undo => s.replica.fence.1.pushes .undo
  | .redo => s.replica.pushes .redo
  | _ => []

variable (s : Session)

/-- No command takes an unsent edit away. -/
theorem unsent_command (now : Instant) (c : Command) (newId : Uuid) :
    (s.call now (c.toCall newId)).1.replica.unsent =
      s.replica.unsent ++ s.pushes (c.toCall newId) := by
  cases c with
  | initialState es =>
    simp [Command.toCall, call, initialState, pushes, Replica.load, Replica.refresh]
  | confirmed id actions => simp [Command.toCall, call, confirmed, pushes, Replica.unsent_receive]
  | rejected id => simp [Command.toCall, call, rejected, pushes, Replica.unsent_reject]
  | upsert e => simp [Command.toCall, call, edit, pushes, Replica.unsent_edit]
  | delete id => simp [Command.toCall, call, edit, pushes, Replica.unsent_edit]
  | ping c => simp [Command.toCall, call, ping, edit, pushes, Replica.unsent_edit]
  | undo =>
    show s.replica.fence.1.undo.1.unsent = _
    rw [← Replica.unsent_fence s.replica]
    simpa [Replica.sends, Replica.call, Replica.Call.expires, Command.toCall, pushes] using
      s.replica.fence.1.unsent_call .undo
  | redo =>
    show s.replica.redo.1.unsent = _
    simpa [Replica.sends, Replica.call, Replica.Call.expires, Command.toCall, pushes] using
      s.replica.unsent_call .redo
  | fence => simp [Command.toCall, call, fence, pushes, Replica.unsent_fence]

theorem unsent_expireAll (ids : List EntityId) :
    (ids.foldl expire s).replica.unsent =
      s.replica.unsent.filter fun a => !a.createsOneOf ids := by
  induction ids generalizing s with
  | nil => simp
  | cons id ids ih =>
    rw [List.foldl_cons, ih, expire, Replica.unsent_expirePing, List.filter_filter]
    simp only [Action.createsOneOf_cons, Bool.not_or, Bool.not_not, Bool.and_comm]

end Session

namespace Loop

variable (fresh : Nat → Uuid)

/-- The edits that nobody was sent yet. -/
def unsent (l : Loop) : List Action := l.session.replica.unsent

/-- All actions sent so far. -/
def delivered (l : Loop) : List Action := l.outbox.flatMap Update.actions

/-- The actions that a turn pushes, by the command that it handles. -/
def produces (l : Loop) (t : Turn) : List Action :=
  (l.handles t).flatMap fun c => l.session.pushes (c.toCall (fresh l.taken))

/-- Whether a turn collects the unsent edits: a tick that is due, or the last turn of all. -/
def collects (l : Loop) : Turn → Bool
  | .happen _ => false
  | .tick => l.isTickDue
  | .receive => l.running && l.mailbox.isEmpty && !l.hasSender

/-- The pings that a turn finds expired. -/
def sweeps (l : Loop) : Turn → List EntityId
  | .tick => if l.isTickDue then (l.session.expirePings l.now).2 else []
  | _ => []

/-- The pings that are swept before the unsent edits are next collected. -/
def nextSweep (l : Loop) : List Turn → List EntityId
  | [] => []
  | t :: turns => if l.collects t then l.sweeps t else (l.take fresh t).nextSweep turns

/-- All actions that the turns of a run push, each with the pings that are swept before it is
collected. -/
def produced (l : Loop) : List Turn → List (Action × List EntityId)
  | [] => []
  | t :: turns =>
    (l.produces fresh t).map (·, (l.take fresh t).nextSweep fresh turns) ++
      (l.take fresh t).produced turns

section Turns

variable (l : Loop) {t : Turn}

theorem leftover_eq :
    l.leftover fresh = if l.unsent.isEmpty then [] else [⟨fresh l.taken, l.unsent⟩] := by
  unfold leftover Session.collect Replica.collect unsent
  dsimp only
  split <;> rfl

theorem flatMap_leftover : (l.leftover fresh).flatMap Update.actions = l.unsent := by
  rw [leftover_eq]
  split
  next h => simpa using h.symm
  next => simp

theorem unsent_sweep :
    l.sweep.unsent =
      l.unsent.filter fun a => !a.createsOneOf (l.session.expirePings l.now).2 :=
  Session.unsent_expireAll l.session _

theorem unsent_flush : (l.flush fresh).1.unsent = [] := by
  rw [flush_eq]
  exact Replica.unsent_collect _ _

/-- A turn that does not collect leaves what was sent, and what it pushes comes last. -/
theorem take_of_not_collects (h : l.collects t = false) :
    (l.take fresh t).outbox = l.outbox ∧
      (l.take fresh t).unsent = l.unsent ++ l.produces fresh t := by
  cases t with
  | happen e =>
    cases e with
    | send c =>
      simp only [take, occur, produces, handles, List.flatMap_nil, List.append_nil]
      split <;> simp [unsent]
    | _ => simp [take, occur, produces, handles, unsent]
  | tick =>
    rw [take, tick_of_not_due fresh l h]
    simp [produces, handles]
  | receive =>
    cases hrun : l.running with
    | false => simp [take, receive_of_stopped fresh l hrun, produces, handles, hrun]
    | true =>
      cases hbox : l.mailbox with
      | nil =>
        have hsender : l.hasSender = true := by simpa [collects, hrun, hbox] using h
        simp [take, receive_of_waiting fresh l hbox hsender, produces, handles, hbox]
      | cons c rest =>
        rw [take, receive_cons fresh l hrun hbox]
        have hproduced : l.produces fresh .receive =
            l.session.pushes (c.toCall (fresh l.taken)) := by
          simp [produces, handles, hrun, hbox]
        rw [hproduced]
        exact ⟨rfl, Session.unsent_command l.session l.now c (fresh l.taken)⟩

/-- A turn that collects sends what was unsent, less the pings that it sweeps, and leaves
nothing. -/
theorem take_of_collects (hopen : l.hasReceiver = true) (h : l.collects t = true) :
    (l.take fresh t).delivered =
        l.delivered ++ l.unsent.filter (fun a => !a.createsOneOf (l.sweeps t)) ∧
      (l.take fresh t).unsent = [] ∧ l.produces fresh t = [] := by
  cases t with
  | happen e => cases h
  | tick =>
    have hdue : l.isTickDue = true := h
    have hopen' : l.sweep.hasReceiver = true := hopen
    rw [take, tick_of_due fresh l hdue]
    refine ⟨?_, unsent_flush fresh l.sweep, rfl⟩
    simp only [delivered, flush_eq, hopen', if_true, List.flatMap_append, flatMap_leftover,
      unsent_sweep, sweeps, hdue]
    rfl
  | receive =>
    simp only [collects, Bool.and_eq_true, List.isEmpty_iff, Bool.not_eq_true'] at h
    obtain ⟨⟨hrun, hbox⟩, hsender⟩ := h
    rw [take, receive_of_closed fresh l hrun hbox hsender]
    refine ⟨?_, unsent_flush fresh l, by simp [produces, handles, hbox]⟩
    simp [delivered, flush_eq, hopen, flatMap_leftover, sweeps]

theorem actions_ne_nil_of_mem_leftover {u : Update} (h : u ∈ l.leftover fresh) :
    u.actions ≠ [] := by
  rw [leftover_eq] at h
  split at h
  next => cases h
  next hunsent =>
    obtain rfl := List.mem_singleton.1 h
    simpa using hunsent

end Turns

/-- A loop whose updates somebody receives: no update that it sent is empty, and it has not stopped
unless nobody can send it a command, none waits and no edit is unsent. -/
structure Delivers (l : Loop) : Prop where
  hasReceiver : l.hasReceiver = true
  actions_ne_nil : ∀ u ∈ l.outbox, u.actions ≠ []
  settled : l.running = false → l.hasSender = false ∧ l.mailbox = [] ∧ l.unsent = []

theorem delivers_ofSettings (settings : Settings) : (ofSettings settings).Delivers where
  hasReceiver := rfl
  actions_ne_nil _ h := nomatch h
  settled h := nomatch h

namespace Delivers

variable {l : Loop} (h : l.Delivers)
include h

theorem flush_eq : l.flush fresh =
    ({ l with
        session := (l.session.collect (fresh l.taken)).1
        outbox := l.outbox ++ l.leftover fresh
        taken := l.taken + 1 }, true) := by
  rw [Loop.flush_eq, h.hasReceiver]
  rfl

theorem sweep : l.sweep.Delivers where
  hasReceiver := h.hasReceiver
  actions_ne_nil := h.actions_ne_nil
  settled hstopped := by
    obtain ⟨hsender, hbox, hunsent⟩ := h.settled hstopped
    exact ⟨hsender, hbox, by rw [unsent_sweep, hunsent, List.filter_nil]⟩

theorem tick : (l.tick fresh).Delivers := by
  cases hdue : l.isTickDue with
  | false => rwa [tick_of_not_due fresh l hdue]
  | true =>
    rw [tick_of_due fresh l hdue, h.sweep.flush_eq]
    refine ⟨h.hasReceiver, fun u hu => ?_, fun hstopped => absurd hstopped.symm Bool.false_ne_true⟩
    rcases List.mem_append.1 hu with hu | hu
    · exact h.actions_ne_nil u hu
    · exact actions_ne_nil_of_mem_leftover fresh l.sweep hu

theorem receive : (l.receive fresh).Delivers := by
  cases hrun : l.running with
  | false => rwa [receive_of_stopped fresh l hrun]
  | true =>
    cases hbox : l.mailbox with
    | cons c rest =>
      rw [receive_cons fresh l hrun hbox]
      exact ⟨h.hasReceiver, h.actions_ne_nil,
        fun hstopped => absurd (hstopped.symm.trans hrun) Bool.false_ne_true⟩
    | nil =>
      cases hsender : l.hasSender with
      | true => rwa [receive_of_waiting fresh l hbox hsender]
      | false =>
        rw [receive_of_closed fresh l hrun hbox hsender, h.flush_eq]
        refine ⟨h.hasReceiver, fun u hu => ?_, fun _ => ⟨hsender, hbox, ?_⟩⟩
        · rcases List.mem_append.1 hu with hu | hu
          · exact h.actions_ne_nil u hu
          · exact actions_ne_nil_of_mem_leftover fresh l hu
        · exact Replica.unsent_collect _ _

theorem occur {e : Event} (he : e ≠ .dropReceiver) : (l.occur e).Delivers := by
  cases e with
  | dropReceiver => exact absurd rfl he
  | send c =>
    simp only [Loop.occur]
    split
    next hopen =>
      have hrun : l.running = true := (Bool.and_eq_true _ _ ▸ hopen).1
      exact ⟨h.hasReceiver, h.actions_ne_nil,
        fun hstopped => absurd (hstopped.symm.trans hrun) Bool.false_ne_true⟩
    next => exact h
  | advance ms => exact ⟨h.hasReceiver, h.actions_ne_nil, h.settled⟩
  | dropSender =>
    exact ⟨h.hasReceiver, h.actions_ne_nil, fun hstopped => ⟨rfl, (h.settled hstopped).2⟩⟩

theorem take {t : Turn} (ht : t ≠ .happen .dropReceiver) : (l.take fresh t).Delivers := by
  cases t with
  | happen e => exact h.occur fun he => ht (congrArg _ he)
  | tick => exact h.tick fresh
  | receive => exact h.receive fresh

theorem run {turns : List Turn} (hopen : .happen .dropReceiver ∉ turns) :
    (l.run fresh turns).Delivers := by
  induction turns generalizing l with
  | nil => exact h
  | cons t turns ih =>
    rw [List.mem_cons, not_or] at hopen
    exact ih (h.take fresh (Ne.symm hopen.1)) hopen.2

/-- What was unsent is sent unless the sweep before that takes it away, and so is what is pushed. -/
theorem delivered_run {turns : List Turn} (hopen : .happen .dropReceiver ∉ turns) :
    (l.run fresh turns).delivered ++ (l.run fresh turns).unsent =
      l.delivered ++ (l.unsent.filter fun a => !a.createsOneOf (l.nextSweep fresh turns)) ++
        ((l.produced fresh turns).filter fun x => !x.1.createsOneOf x.2).map Prod.fst := by
  induction turns generalizing l with
  | nil => simp [nextSweep, produced]
  | cons t turns ih =>
    rw [List.mem_cons, not_or] at hopen
    have hrest := ih (h.take fresh (Ne.symm hopen.1)) hopen.2
    rw [run_cons, hrest, nextSweep, produced]
    cases hcollects : l.collects t with
    | true =>
      obtain ⟨hsent, hunsent, hproduces⟩ :=
        take_of_collects fresh l h.hasReceiver hcollects
      simp [hsent, hunsent, hproduces]
    | false =>
      obtain ⟨houtbox, hunsent⟩ := take_of_not_collects fresh l hcollects
      simp [delivered, houtbox, hunsent, List.filter_map, Function.comp_def]

end Delivers

section Closing

variable (l : Loop)

/-- A loop that has stopped does nothing any more. -/
theorem run_of_stopped (turns : List Turn) (hstopped : l.running = false) :
    (l.run fresh turns).running = false ∧ (l.run fresh turns).outbox = l.outbox := by
  induction turns generalizing l with
  | nil => exact ⟨hstopped, rfl⟩
  | cons t turns ih =>
    have htake : (l.take fresh t).running = false ∧ (l.take fresh t).outbox = l.outbox := by
      cases t with
      | happen e => cases e <;> simp [take, occur, hstopped]
      | tick => simp [take, tick, isTickDue, hstopped]
      | receive => simp [take, receive_of_stopped fresh l hstopped, hstopped]
    rw [run_cons, ← htake.2]
    exact ih _ htake.1

/-- In the course of some turns the loop handles every command that waits, and no other; then it
sends what is left as one update, and stops. -/
def WindsUp (turns : List Turn) : Prop :=
  ∃ before after, turns = before ++ .receive :: after ∧
    let last := l.run fresh before
    let stopped := l.run fresh turns
    l.along fresh handles before = l.mailbox ∧ last.running = true ∧ last.mailbox = [] ∧
      stopped.outbox = last.outbox ++ last.leftover fresh ∧ stopped.running = false ∧
      stopped.mailbox = [] ∧ stopped.unsent = []

variable {l} {turns : List Turn}

theorem WindsUp.cons {t : Turn} (h : (l.take fresh t).WindsUp fresh turns)
    (hbox : l.handles t ++ (l.take fresh t).mailbox = l.mailbox) :
    l.WindsUp fresh (t :: turns) := by
  obtain ⟨before, after, rfl, hhandled, hrest⟩ := h
  exact ⟨t :: before, after, rfl, by rw [along, hhandled, hbox], hrest⟩

/-- A turn that is not taken at the mailbox leaves a loop without senders as it is, but for what a
tick sends. -/
theorem Delivers.waits_take (h : l.Delivers) (hrun : l.running = true)
    (hsender : l.hasSender = false) {t : Turn} (ht : t ≠ .receive) :
    (l.take fresh t).running = true ∧ (l.take fresh t).hasSender = false ∧
      (l.take fresh t).mailbox = l.mailbox := by
  cases t with
  | happen e => cases e <;> simp [Loop.take, Loop.occur, hrun, hsender]
  | tick =>
    rw [Loop.take]
    cases hdue : l.isTickDue with
    | false =>
      rw [tick_of_not_due fresh l hdue]
      exact ⟨hrun, hsender, rfl⟩
    | true =>
      rw [tick_of_due fresh l hdue, h.sweep.flush_eq]
      exact ⟨rfl, hsender, rfl⟩
  | receive => exact absurd rfl ht

/-- A turn at the mailbox for each command that waits, and one more, is enough; ticks may come in
between. -/
theorem Delivers.windsUp (h : l.Delivers) (hrun : l.running = true)
    (hsender : l.hasSender = false) (hopen : .happen .dropReceiver ∉ turns)
    (henough : l.mailbox.length < turns.count .receive) : l.WindsUp fresh turns := by
  induction turns generalizing l with
  | nil => cases henough
  | cons t turns ih =>
    rw [List.mem_cons, not_or] at hopen
    have htake := h.take fresh (Ne.symm hopen.1)
    by_cases ht : t = .receive
    · subst ht
      rw [List.count_cons_self] at henough
      cases hbox : l.mailbox with
      | nil =>
        have hlast : l.take fresh .receive = { (l.flush fresh).1 with running := false } :=
          receive_of_closed fresh l hrun hbox hsender
        have hstopped : (l.take fresh .receive).running = false := by rw [hlast]
        obtain ⟨hrunning, houtbox⟩ := run_of_stopped fresh _ turns hstopped
        obtain ⟨-, hbox', hunsent⟩ := (htake.run fresh hopen.2).settled hrunning
        refine ⟨[], turns, rfl, hbox.symm, hrun, hbox, ?_, hrunning, hbox', hunsent⟩
        rw [run_cons, houtbox, hlast, h.flush_eq]
        rfl
      | cons c rest =>
        have hnext : l.take fresh .receive = { l with mailbox := rest }.handle fresh c :=
          receive_cons fresh l hrun hbox
        have hbox' : (l.take fresh .receive).mailbox = rest := by rw [hnext]; rfl
        apply (ih htake (by rw [hnext]; exact hrun) (by rw [hnext]; exact hsender) hopen.2 _).cons
        · simp [handles, hrun, hbox, hbox']
        · rw [hbox, List.length_cons] at henough
          rw [hbox']
          exact Nat.lt_of_succ_lt_succ henough
    · obtain ⟨hrun', hsender', hbox⟩ := h.waits_take fresh hrun hsender ht
      rw [List.count_cons_of_ne ht] at henough
      apply (ih htake hrun' hsender' hopen.2 (by rwa [hbox])).cons
      cases t with
      | receive => exact absurd rfl ht
      | _ => exact hbox

end Closing

/-- In every order of turns, as long as somebody receives its updates, the loop sends what the
handled commands push once and in order, less the pings that a tick sweeps before it collects them,
and sends no empty update. It handles the commands in the order in which it accepted them. Every
tick leaves nothing unsent. When nobody can send it a command any more, it handles those that wait,
sends what is left as one update and stops, and it stops in no other way. -/
theorem edits_delivered (settings : Settings) {turns : List Turn}
    (hopen : .happen .dropReceiver ∉ turns) :
    let start := ofSettings settings
    let l := start.run fresh turns
    l.delivered ++ l.unsent =
        ((start.produced fresh turns).filter fun x => !x.1.createsOneOf x.2).map Prod.fst ∧
      (∀ u ∈ l.outbox, u.actions ≠ []) ∧
      start.along fresh accepts turns = start.along fresh handles turns ++ l.mailbox ∧
      (l.isTickDue = true → (l.tick fresh).unsent = []) ∧
      (l.running = false → l.hasSender = false ∧ l.mailbox = [] ∧ l.unsent = []) ∧
      (l.running = true → l.hasSender = false → ∀ rest, .happen .dropReceiver ∉ rest →
        l.mailbox.length < rest.count .receive → l.WindsUp fresh rest) := by
  intro start l
  have hstart : start.Delivers := delivers_ofSettings settings
  have h : l.Delivers := hstart.run fresh hopen
  refine ⟨hstart.delivered_run fresh hopen, h.actions_ne_nil, mailbox_run fresh start turns, ?_,
    h.settled, fun hrun hsender rest => h.windsUp fresh hrun hsender⟩
  intro hdue
  exact (take_of_collects fresh l (t := .tick) h.hasReceiver hdue).2.1

/-- A floor and a ping are placed, and the ping expires before it is collected. Then the floor is
undone and a second one waits in the mailbox when the last sender goes. -/
def floorUndone : List Turn :=
  [.tick, .happen (.send (.upsert (.floor ⟨.ofNat 1, ⟨0, 0, 0⟩, .icon "stone"⟩))),
    .happen (.send (.ping ⟨3, 0⟩)), .receive, .receive, .happen (.advance 50), .tick,
    .happen (.send .undo), .happen (.send (.upsert (.floor ⟨.ofNat 2, ⟨1, 0, 0⟩, .icon "moss"⟩))),
    .happen .dropSender, .receive, .receive, .receive]

theorem edits_delivered_floorUndone :
    .happen .dropReceiver ∉ floorUndone ∧
    (let start := ofSettings { pingLifetime := 20 }
      let l := start.run (fun n => .ofNat (100 + n)) floorUndone
      l.delivered ++ l.unsent =
          [.upsert (.floor ⟨.ofNat 1, ⟨0, 0, 0⟩, .icon "stone"⟩), .delete (.ofNat 1),
            .upsert (.floor ⟨.ofNat 2, ⟨1, 0, 0⟩, .icon "moss"⟩)] ∧
        (∀ u ∈ l.outbox, u.actions ≠ []) ∧ l.outbox.length = 2 ∧
        l.running = false ∧ l.mailbox = [] ∧ l.unsent = []) := by
  have hopen : .happen .dropReceiver ∉ floorUndone := by decide
  have hstopped : ((ofSettings { pingLifetime := 20 }).run (fun n => .ofNat (100 + n))
    floorUndone).running = false := by decide
  obtain ⟨hdelivered, hnonempty, -, -, hsettled, -⟩ :=
    edits_delivered (fun n => .ofNat (100 + n)) { pingLifetime := 20 } hopen
  exact ⟨hopen, hdelivered.trans (by decide), hnonempty, by decide, hstopped, (hsettled hstopped).2⟩

end Loop

end SharedBoard

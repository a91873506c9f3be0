import SharedBoard.Proofs.Replica.Replay
import SharedBoard.Session.Basic

/-! What a session asks of its replica. Timing pings and remembering expired ones is all that a
session adds: its replica only ever goes through calls of its own. -/
namespace SharedBoard.Session

/-- The sessions that calls can bring about from a new one, at whatever times. -/
def Reachable (s : Session) : Prop := ∃ settings calls, s = (ofSettings settings).run calls

@[simp] theorem run_nil (s : Session) : s.run [] = s := rfl

@[simp] theorem run_cons (s : Session) (c : Instant × Call) (cs : List (Instant × Call)) :
    s.run (c :: cs) = (s.call c.1 c.2).1.run cs := rfl

theorem run_append (s : Session) (cs ds : List (Instant × Call)) :
    s.run (cs ++ ds) = (s.run cs).run ds := List.foldl_append

/-- The action that an edit, or a new ping, takes on the view. -/
def Call.action? : Call → Option Action
  | .upsert e => some (.upsert e)
  | .delete id => some (.delete id)
  | .ping id c => some (.ping ⟨id, c⟩)
  | _ => none

/-- The calls that a session's call makes of its replica. -/
def replicaCalls (s : Session) : Call → List Replica.Call
  | .initialState es => [.load (es.filter fun e => !(e.isPing && s.expired.contains e.id))]
  | .confirmed id actions =>
    [.receive (actions.filter fun a => !a.createdPing?.any s.expired.contains) (some id)]
  | .rejected id => [.reject id]
  | .collect id => [.collect id]
  | .upsert e => [.edit (.upsert e)]
  | .delete id => [.edit (.delete id)]
  | .ping id c => [.edit (.ping ⟨id, c⟩)]
  | .undo => [.fence, .undo]
  | .redo => [.redo]
  | .fence => [.fence]
  | .expirePings now =>
    ((s.deadlines.entries.filter fun e => e.2 ≤ now).map Prod.fst).map .expirePing

@[simp] theorem replica_track (s : Session) (now : Instant) (id : EntityId) :
    (s.track now id).replica = s.replica := by
  unfold track
  split <;> rfl

@[simp] theorem replica_trackAll (s : Session) (now : Instant) (ids : List EntityId) :
    (s.trackAll now ids).replica = s.replica := by
  induction ids generalizing s with
  | nil => rfl
  | cons id ids ih => exact (ih (s.track now id)).trans (replica_track s now id)

theorem replica_expireAll (s : Session) (ids : List EntityId) :
    (ids.foldl expire s).replica = s.replica.run (ids.map .expirePing) := by
  induction ids generalizing s with
  | nil => rfl
  | cons id ids ih => exact ih (s.expire id)

theorem replica_call (s : Session) (now : Instant) (c : Call) :
    (s.call now c).1.replica = s.replica.run (s.replicaCalls c) := by
  cases c with
  | initialState es => simp [call, initialState, replicaCalls, Replica.call]
  | confirmed id actions => simp [call, confirmed, replicaCalls, Replica.call]
  | ping id c => simp [call, ping, edit, replicaCalls, Replica.call]
  | expirePings t => exact replica_expireAll s _
  | _ => rfl

theorem exists_replica_run (s : Session) (calls : List (Instant × Call)) :
    ∃ rcalls, (s.run calls).replica = s.replica.run rcalls := by
  induction calls generalizing s with
  | nil => exact ⟨[], rfl⟩
  | cons c cs ih =>
    obtain ⟨rcalls, hrun⟩ := ih (s.call c.1 c.2).1
    refine ⟨s.replicaCalls c.2 ++ rcalls, ?_⟩
    rw [run_cons, hrun, replica_call, Replica.run_append]

theorem Reachable.replica {s : Session} (h : s.Reachable) : s.replica.Reachable := by
  obtain ⟨settings, calls, rfl⟩ := h
  obtain ⟨rcalls, hrun⟩ := exists_replica_run (ofSettings settings) calls
  exact ⟨settings.maxUndoSets, rcalls, hrun⟩

theorem reachable_run (settings : Settings) (calls : List (Instant × Call)) :
    ((ofSettings settings).run calls).Reachable := ⟨settings, calls, rfl⟩

end SharedBoard.Session

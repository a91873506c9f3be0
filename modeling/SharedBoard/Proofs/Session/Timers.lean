import Mathlib.Data.List.DropRight
import SharedBoard.Proofs.Session.History

/-! The timers of a session against the history of its pings. A ping that is timed expires a
lifetime after it was first sighted since it last expired, whatever came in between. -/
namespace SharedBoard

/-- What a run says of a ping: it was seen at a time, or it expired. -/
inductive PingNote where
  | seen (id : EntityId) (time : Instant)
  | expired (id : EntityId)
  deriving DecidableEq

namespace PingNote

def timeOf? (id : EntityId) : PingNote → Option Instant
  | seen k time => if k = id then some time else none
  | expired _ => none

/-- When an id was first seen since it last expired. -/
def firstSeen? (notes : List PingNote) (id : EntityId) : Option Instant :=
  (notes.rtakeWhile (· != expired id)).findSome? (timeOf? id)

theorem firstSeen?_seen (notes : List PingNote) (k : EntityId) (time : Instant) (id : EntityId) :
    firstSeen? (notes ++ [seen k time]) id =
      if id = k then (firstSeen? notes id).or (some time) else firstSeen? notes id := by
  simp only [firstSeen?, List.rtakeWhile_concat]
  rw [if_pos (by simp), List.findSome?_append]
  by_cases hid : id = k
  · simp [timeOf?, hid]
  · simp [timeOf?, hid, Ne.symm hid]

theorem firstSeen?_expired (notes : List PingNote) (k id : EntityId) :
    firstSeen? (notes ++ [expired k]) id = if id = k then none else firstSeen? notes id := by
  simp only [firstSeen?, List.rtakeWhile_concat]
  by_cases hid : id = k
  · simp [hid]
  · simp [hid, Ne.symm hid, List.findSome?_append, timeOf?]

theorem firstSeen?_seenAll (notes : List PingNote) (ids : List EntityId) (time : Instant)
    (id : EntityId) :
    firstSeen? (notes ++ ids.map (seen · time)) id =
      if id ∈ ids then (firstSeen? notes id).or (some time) else firstSeen? notes id := by
  induction ids generalizing notes with
  | nil => simp
  | cons k ids ih =>
    rw [List.map_cons, List.append_cons, ih, firstSeen?_seen]
    by_cases hk : id = k <;> by_cases hids : id ∈ ids <;> simp [hk, hids]

theorem firstSeen?_expiredAll (notes : List PingNote) (ids : List EntityId) (id : EntityId) :
    firstSeen? (notes ++ ids.map expired) id =
      if id ∈ ids then none else firstSeen? notes id := by
  induction ids generalizing notes with
  | nil => simp
  | cons k ids ih =>
    rw [List.map_cons, List.append_cons, ih, firstSeen?_expired]
    grind

end PingNote

namespace Session

open PingNote

/-- The pings that a call finds expired. -/
def sweeps (s : Session) : Call → List EntityId
  | .expirePings now => (s.expirePings now).2
  | _ => []

/-- The pings that a call lets the session sight: a new one, or those in what the server sends,
unless they are remembered as expired. -/
def sights (s : Session) : Instant × Call → List EntityId
  | (_, .initialState es) =>
    ((es.filter Entity.isPing).map Entity.id).filter fun id => !s.expired.contains id
  | (_, .confirmed _ actions) =>
    (actions.filterMap Action.createdPing?).filter fun id => !s.expired.contains id
  | (_, .ping id _) => [id]
  | _ => []

/-- What a run says of pings, when a call sees those that `see` tells. -/
def notes (see : Session → Instant × Call → List EntityId) (s : Session) :
    List (Instant × Call) → List PingNote
  | [] => []
  | c :: cs =>
    (s.sweeps c.2).map .expired ++ (see s c).map (.seen · c.1) ++ (s.call c.1 c.2).1.notes see cs

theorem notes_concat (see : Session → Instant × Call → List EntityId) (s : Session)
    (calls : List (Instant × Call)) (c : Instant × Call) :
    s.notes see (calls ++ [c]) =
      s.notes see calls ++ ((s.run calls).sweeps c.2).map .expired ++
        (see (s.run calls) c).map (.seen · c.1) := by
  induction calls generalizing s with
  | nil => simp [notes]
  | cons d ds ih => simp only [List.cons_append, notes, ih, run_cons, List.append_assoc]

/-- What the notes say after one more call. -/
theorem firstSeen?_notes_concat (see : Session → Instant × Call → List EntityId) (s : Session)
    (calls : List (Instant × Call)) (c : Instant × Call) (id : EntityId) :
    firstSeen? (s.notes see (calls ++ [c])) id =
      let before := if id ∈ (s.run calls).sweeps c.2 then none
        else firstSeen? (s.notes see calls) id
      if id ∈ see (s.run calls) c then before.or (some c.1) else before := by
  rw [notes_concat, firstSeen?_seenAll, firstSeen?_expiredAll]

section Notes

variable {see : Session → Instant × Call → List EntityId} {s : Session}
  {calls : List (Instant × Call)} {c : Instant × Call} {id : EntityId} {time : Instant}

/-- What was first seen at a time stays so until the ping expires. -/
theorem firstSeen?_stays (h : firstSeen? (s.notes see calls) id = some time)
    (hkept : id ∉ (s.run calls).sweeps c.2) :
    firstSeen? (s.notes see (calls ++ [c])) id = some time := by
  simp [firstSeen?_notes_concat, hkept, h]

/-- A first time is one from before, when the ping has not expired since, or that of the call. -/
theorem firstSeen?_concat_cases (h : firstSeen? (s.notes see (calls ++ [c])) id = some time) :
    id ∉ (s.run calls).sweeps c.2 ∧ firstSeen? (s.notes see calls) id = some time ∨
      id ∈ see (s.run calls) c ∧ time = c.1 := by
  rw [firstSeen?_notes_concat] at h
  by_cases hswept : id ∈ (s.run calls).sweeps c.2
  · exact .inr (by simpa [hswept, eq_comm] using h)
  · cases hbefore : firstSeen? (s.notes see calls) id with
    | none => exact .inr (by simpa [hbefore, eq_comm] using h)
    | some first => exact .inl ⟨hswept, by simpa [hbefore, hswept] using h⟩

theorem exists_call_of_firstSeen? (h : firstSeen? (s.notes see calls) id = some time) :
    ∃ c ∈ calls, c.1 = time := by
  induction calls using List.reverseRecOn with
  | nil => cases h
  | append_singleton calls c ih =>
    obtain ⟨-, hbefore⟩ | ⟨-, rfl⟩ := firstSeen?_concat_cases h
    · obtain ⟨d, hd, htime⟩ := ih hbefore
      exact ⟨d, List.mem_append_left _ hd, htime⟩
    · exact ⟨c, by simp, rfl⟩

theorem firstSeen?_le {now : Instant} (hclock : ∀ d ∈ calls, d.1 ≤ now)
    (h : firstSeen? (s.notes see calls) id = some time) : time ≤ now := by
  obtain ⟨d, hd, rfl⟩ := exists_call_of_firstSeen? h
  exact hclock d hd

theorem exists_firstSeen?_of_see (hid : id ∈ see (s.run calls) c) :
    ∃ time, firstSeen? (s.notes see (calls ++ [c])) id = some time := by
  rw [firstSeen?_notes_concat]
  simp [hid]

end Notes

section Deadlines

variable (s : Session) (now : Instant)

theorem find?_deadlines_track (id k : EntityId) :
    (s.track now id).deadlines.find? k =
      if k = id then (s.deadlines.find? k).or (some (now + s.pingLifetime))
      else s.deadlines.find? k := by
  unfold track SortedMap.contains
  by_cases hk : k = id
  · subst hk
    cases hd : s.deadlines.find? k <;> simp [hd]
  · rw [if_neg hk]
    split
    · rfl
    · exact SortedMap.find?_insert_of_ne _ hk _

@[simp] theorem pingLifetime_track (id : EntityId) :
    (s.track now id).pingLifetime = s.pingLifetime := by
  unfold track
  split <;> rfl

@[simp] theorem pingLifetime_trackAll (ids : List EntityId) :
    (s.trackAll now ids).pingLifetime = s.pingLifetime := by
  induction ids generalizing s with
  | nil => rfl
  | cons id ids ih => exact (ih (s.track now id)).trans (pingLifetime_track s now id)

/-- Only the first time counts. -/
theorem find?_deadlines_trackAll (ids : List EntityId) (k : EntityId) :
    (s.trackAll now ids).deadlines.find? k =
      if k ∈ ids then (s.deadlines.find? k).or (some (now + s.pingLifetime))
      else s.deadlines.find? k := by
  induction ids generalizing s with
  | nil => simp [trackAll]
  | cons id ids ih =>
    have hrest := ih (s.track now id)
    rw [pingLifetime_track, find?_deadlines_track] at hrest
    show ((s.track now id).trackAll now ids).deadlines.find? k = _
    rw [hrest]
    by_cases hk : k = id <;> by_cases hids : k ∈ ids <;> simp [hk, hids]

@[simp] theorem pingLifetime_expireAll (ids : List EntityId) :
    (ids.foldl expire s).pingLifetime = s.pingLifetime := by
  induction ids generalizing s with
  | nil => rfl
  | cons id ids ih => exact ih (s.expire id)

theorem find?_deadlines_expireAll (ids : List EntityId) (k : EntityId) :
    (ids.foldl expire s).deadlines.find? k =
      if k ∈ ids then none else s.deadlines.find? k := by
  induction ids generalizing s with
  | nil => simp
  | cons id ids ih =>
    rw [List.foldl_cons, ih, expire, SortedMap.find?_erase]
    grind

/-- A sweep finds the timed pings whose deadline is not later than its time. -/
theorem mem_expirePings (k : EntityId) :
    k ∈ (s.expirePings now).2 ↔ ∃ d, s.deadlines.find? k = some d ∧ d ≤ now := by
  simp [expirePings, SortedMap.find?_eq_some_iff]

theorem increasing_expirePings :
    (s.expirePings now).2.Pairwise fun a b => compare a b = .lt := by
  simp only [expirePings, List.pairwise_map]
  exact s.deadlines.increasing.filter _

theorem lt_nextDeadline_expirePings {d : Instant}
    (h : (s.expirePings now).1.nextDeadline? = some d) : now < d := by
  obtain ⟨⟨k, e⟩, hk, rfl⟩ := List.mem_map.1 (List.min?_mem h)
  have hfind := (SortedMap.find?_eq_some_iff _ _ _).2 hk
  rw [show (s.expirePings now).1 = (s.expirePings now).2.foldl expire s from rfl,
    find?_deadlines_expireAll, Option.ite_none_left_eq_some, mem_expirePings] at hfind
  by_contra hle
  exact hfind.1 ⟨e, hfind.2, Int.not_lt.1 hle⟩

theorem pingLifetime_call (c : Call) : (s.call now c).1.pingLifetime = s.pingLifetime := by
  cases c with
  | initialState es => exact pingLifetime_trackAll s now _
  | confirmed id actions => exact pingLifetime_trackAll s now _
  | ping id c => exact pingLifetime_track s now id
  | expirePings t => exact pingLifetime_expireAll s _
  | _ => rfl

/-- The pings that a snapshot lists, less those remembered as expired, are those of the snapshot
that is loaded. -/
theorem sights_initialState (es : List Entity) :
    s.sights (now, .initialState es) =
      ((es.filter fun e => !(e.isPing && s.expired.contains e.id)).filter Entity.isPing).map
        Entity.id := by
  rw [sights, List.filter_map, List.filter_filter, List.filter_filter]
  congr 1
  apply List.filter_congr
  intro e _
  cases e.isPing <;> simp

theorem sights_confirmed (id : UpdateId) (actions : List Action) :
    s.sights (now, .confirmed id actions) =
      (actions.filter fun a => !a.createdPing?.any s.expired.contains).filterMap
        Action.createdPing? := by
  rw [sights, List.filter_filterMap, List.filterMap_filter]
  apply List.filterMap_congr
  intro a _
  cases a.createdPing? <;> simp [Option.filter]

/-- What a call does to the timers: it takes away those that it finds expired, and starts those of
the pings that it sights, unless they run already. -/
theorem deadlines_call (c : Call) :
    (s.call now c).1.deadlines =
      (((s.sweeps c).foldl expire s).trackAll now (s.sights (now, c))).deadlines := by
  cases c with
  | initialState es =>
    rw [sights_initialState]
    rfl
  | confirmed id actions =>
    rw [sights_confirmed]
    rfl
  | _ => rfl

end Deadlines

section Runs

variable (s : Session) (calls : List (Instant × Call))

theorem pingLifetime_run : (s.run calls).pingLifetime = s.pingLifetime := by
  induction calls generalizing s with
  | nil => rfl
  | cons c cs ih => exact (ih _).trans (pingLifetime_call s c.1 c.2)

end Runs

/-- In a run from a new session, the timer of a ping runs out a lifetime after the first sighting
since the ping last expired. -/
theorem find?_deadlines_run (settings : Settings) (calls : List (Instant × Call)) (id : EntityId) :
    ((ofSettings settings).run calls).deadlines.find? id =
      (firstSeen? ((ofSettings settings).notes sights calls) id).map
        (· + (settings.pingLifetime : Int)) := by
  induction calls using List.reverseRecOn with
  | nil => rfl
  | append_singleton calls c ih =>
    rw [run_append, run_cons, run_nil, deadlines_call, find?_deadlines_trackAll,
      find?_deadlines_expireAll, pingLifetime_expireAll, pingLifetime_run, ih,
      firstSeen?_notes_concat]
    simp only [apply_ite (Option.map _), Option.map_or, Option.map_none, Option.map_some]
    rfl

/-- A sweep after any run answers, by increasing id, exactly the pings whose first sighting since
they last expired lies a lifetime back or more. No timer is left that has run out, and the undo
ledger is as before. -/
theorem expirePings_run (settings : Settings) (calls : List (Instant × Call)) (now : Instant) :
    let start := ofSettings settings
    let s := start.run calls
    let swept := s.expirePings now
    swept.2.Pairwise (fun a b => compare a b = .lt) ∧
      (∀ id, id ∈ swept.2 ↔ ∃ time, firstSeen? (start.notes sights calls) id = some time ∧
        time + settings.pingLifetime ≤ now) ∧
      (∀ d, swept.1.nextDeadline? = some d → now < d) ∧
      swept.1.replica.ledger = s.replica.ledger := by
  intro start s swept
  refine ⟨increasing_expirePings s now, ?_, fun d => lt_nextDeadline_expirePings s now,
    ledger_expireAll s _⟩
  intro id
  rw [mem_expirePings, find?_deadlines_run]
  simp only [Option.map_eq_some_iff, exists_exists_and_eq_and]
  rfl

end Session

end SharedBoard

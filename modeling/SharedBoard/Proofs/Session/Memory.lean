import SharedBoard.Proofs.Replica.Pings
import SharedBoard.Proofs.Session.Timers

/-! The memory of expired pings against the history of expiries. As long as new pings take new ids,
a remembered ping is not timed and does not stand on the confirmed board, so that it is remembered
once and in the order of its expiry. -/
namespace SharedBoard

namespace ExpiredPings

theorem contains_insert (m : ExpiredPings) (queue : List Uuid) (id k : Uuid) :
    contains ⟨queue, m.lookup.insert id ()⟩ k = true ↔ m.contains k = true ∨ k = id := by
  simp only [contains, SortedMap.contains, SortedMap.find?_insert]
  by_cases hk : k = id <;> simp [hk]

theorem contains_erase (m : ExpiredPings) (queue : List Uuid) (id k : Uuid) :
    contains ⟨queue, m.lookup.erase id⟩ k = true ↔ m.contains k = true ∧ k ≠ id := by
  simp only [contains, SortedMap.contains, SortedMap.find?_erase]
  by_cases hk : k = id <;> simp [hk]

theorem queue_forgetOldest (m : ExpiredPings) : m.forgetOldest.queue = m.queue.tail := by
  unfold forgetOldest
  split
  next hnil => simp [hnil]
  next oldest rest hcons => simp [hcons]

theorem mem_queue_remember {m : ExpiredPings} {id k : Uuid} (h : k ∈ (m.remember id).queue) :
    k = id ∨ k ∈ m.queue := by
  have hlast : k ∈ m.queue ++ [id] → k = id ∨ k ∈ m.queue := by
    intro hk
    simpa [or_comm] using hk
  unfold remember at h
  split at h
  next => exact .inr h
  next =>
    dsimp only at h
    split at h
    next =>
      rw [queue_forgetOldest] at h
      exact hlast (List.mem_of_mem_tail h)
    next => exact hlast h

/-- The look-up forgets what the queue does. -/
theorem contains_forgetOldest {m : ExpiredPings} (hnodup : m.queue.Nodup)
    (hmem : ∀ k, m.contains k = true ↔ k ∈ m.queue) (k : Uuid) :
    m.forgetOldest.contains k = true ↔ k ∈ m.forgetOldest.queue := by
  obtain ⟨queue, lookup⟩ := m
  cases queue with
  | nil => exact hmem k
  | cons oldest rest =>
    rw [forgetOldest, contains_erase ⟨oldest :: rest, lookup⟩, hmem]
    simp only [List.mem_cons]
    have hout := (List.nodup_cons.1 hnodup).1
    grind

/-- The memory holds the last ids of a history, each of them once. -/
structure Holds (m : ExpiredPings) (past : List Uuid) : Prop where
  queue_eq : m.queue = past.rtake capacity
  nodup : m.queue.Nodup
  contains_iff : ∀ id, m.contains id = true ↔ id ∈ m.queue

theorem holds_empty : empty.Holds [] where
  queue_eq := rfl
  nodup := .nil
  contains_iff _ := by simp [empty, contains, SortedMap.contains]

namespace Holds

variable {m : ExpiredPings} {past : List Uuid} (h : m.Holds past)
include h

theorem length_le : m.queue.length ≤ capacity := by
  rw [h.queue_eq, List.rtake, List.length_drop]
  omega

/-- An id that is not remembered yet comes last, and the oldest one goes when there are too many. -/
theorem remember {id : Uuid} (hid : id ∉ m.queue) : (m.remember id).Holds (past ++ [id]) := by
  have hnew : ¬m.contains id = true := by rwa [h.contains_iff]
  have hnodup : (m.queue ++ [id]).Nodup := List.nodup_append.2 ⟨h.nodup, by simp, by grind⟩
  have hmem : ∀ k, contains ⟨m.queue ++ [id], m.lookup.insert id ()⟩ k = true ↔
      k ∈ m.queue ++ [id] := by
    intro k
    rw [contains_insert, h.contains_iff]
    simp
  have hlast : (past ++ [id]).rtake capacity = (m.queue ++ [id]).rtake capacity := by
    rw [h.queue_eq, Replica.rtake_rtake_concat]
  have hle := h.length_le
  rw [ExpiredPings.remember, if_neg hnew]
  dsimp only
  split
  next hfull =>
    have hone : (m.queue ++ [id]).length - capacity = 1 := by
      simp only [List.length_append, List.length_singleton] at hfull ⊢
      omega
    have hqueue := queue_forgetOldest ⟨m.queue ++ [id], m.lookup.insert id ()⟩
    refine ⟨?_, ?_, contains_forgetOldest hnodup hmem⟩
    · rw [hqueue, hlast, List.rtake, hone, List.drop_one]
    · rw [hqueue]
      exact hnodup.tail
  next hfits =>
    have hzero : (m.queue ++ [id]).length - capacity = 0 := by
      rw [Nat.not_lt] at hfits
      exact Nat.sub_eq_zero_of_le hfits
    exact ⟨by rw [hlast, List.rtake, hzero, List.drop_zero], hnodup, hmem⟩

end Holds

end ExpiredPings

namespace Session

/-- The ids that a call names. -/
def Call.ids : Call → List EntityId
  | .initialState es => es.map Entity.id
  | .confirmed _ actions => actions.map Action.target
  | .upsert e => [e.id]
  | .delete id => [id]
  | .ping id _ => [id]
  | _ => []

/-- The id that a new ping takes. -/
def Call.newPing? : Call → Option EntityId
  | .ping id _ => some id
  | _ => none

/-- Every new ping takes an id that no call before it names. -/
def PingsAreNew (calls : List (Instant × Call)) : Prop :=
  calls.Pairwise fun before c => ∀ id ∈ c.2.newPing?, id ∉ before.2.ids

/-- The answers of all sweeps of a run, one after the other. -/
def expirations (s : Session) : List (Instant × Call) → List EntityId
  | [] => []
  | c :: cs => s.sweeps c.2 ++ (s.call c.1 c.2).1.expirations cs

theorem expirations_concat (s : Session) (calls : List (Instant × Call)) (c : Instant × Call) :
    s.expirations (calls ++ [c]) = s.expirations calls ++ (s.run calls).sweeps c.2 := by
  induction calls generalizing s with
  | nil => simp [expirations]
  | cons d ds ih => simp only [List.cons_append, expirations, ih, run_cons, List.append_assoc]

section Named

theorem mem_ids_of_sights {s : Session} {c : Instant × Call} {id : EntityId}
    (h : id ∈ s.sights c) : id ∈ c.2.ids := by
  obtain ⟨now, c⟩ := c
  cases c with
  | initialState es =>
    obtain ⟨e, he, rfl⟩ := List.mem_map.1 (List.mem_of_mem_filter h)
    exact List.mem_map_of_mem (List.mem_of_mem_filter he)
  | confirmed k actions =>
    obtain ⟨a, ha, hcreated⟩ := List.mem_filterMap.1 (List.mem_of_mem_filter h)
    rw [Action.createdPing?_eq, Option.ite_none_right_eq_some, Option.some.injEq] at hcreated
    exact List.mem_map.2 ⟨a, ha, hcreated.2⟩
  | ping k c => exact h
  | _ => cases h

theorem mem_ids_of_timed {settings : Settings} {calls : List (Instant × Call)} {id : EntityId}
    {d : Instant} (h : ((ofSettings settings).run calls).deadlines.find? id = some d) :
    ∃ c ∈ calls, id ∈ c.2.ids := by
  induction calls using List.reverseRecOn with
  | nil => cases h
  | append_singleton calls c ih =>
    rw [run_append, run_cons, run_nil, deadlines_call, find?_deadlines_trackAll,
      find?_deadlines_expireAll] at h
    by_cases hsights : id ∈ ((ofSettings settings).run calls).sights c
    · exact ⟨c, by simp, mem_ids_of_sights hsights⟩
    · rw [if_neg hsights, Option.ite_none_left_eq_some] at h
      obtain ⟨d, hd, hid⟩ := ih h.2
      exact ⟨d, List.mem_append_left _ hd, hid⟩

theorem mem_sweeps {s : Session} {c : Call} {id : EntityId} (h : id ∈ s.sweeps c) :
    ∃ d, s.deadlines.find? id = some d := by
  cases c with
  | expirePings now =>
    obtain ⟨d, hd, -⟩ := (mem_expirePings s now id).1 h
    exact ⟨d, hd⟩
  | _ => cases h

theorem nodup_sweeps (s : Session) (c : Call) : (s.sweeps c).Nodup := by
  cases c with
  | expirePings now =>
    apply (increasing_expirePings s now).imp
    rintro a b hlt rfl
    simp at hlt
  | _ => exact .nil

theorem mem_ids_of_mem_expirations {settings : Settings} {calls : List (Instant × Call)}
    {id : EntityId} (h : id ∈ (ofSettings settings).expirations calls) :
    ∃ c ∈ calls, id ∈ c.2.ids := by
  induction calls using List.reverseRecOn with
  | nil => cases h
  | append_singleton calls c ih =>
    have hnamed : ∃ c ∈ calls, id ∈ c.2.ids := by
      rw [expirations_concat] at h
      rcases List.mem_append.1 h with h | h
      · exact ih h
      · obtain ⟨d, hd⟩ := mem_sweeps h
        exact mem_ids_of_timed hd
    obtain ⟨d, hd, hid⟩ := hnamed
    exact ⟨d, List.mem_append_left _ hd, hid⟩

end Named

/-- What is remembered is what expired last, and it is gone: it is not timed, and no ping stands
under it on the confirmed board. -/
structure Remembers (s : Session) (past : List EntityId) : Prop where
  holds : s.expired.Holds past
  untimed : ∀ id ∈ s.expired.queue, s.deadlines.find? id = none
  gone : ∀ id ∈ s.expired.queue, s.replica.confirmed.hasPing id = false

theorem remembers_ofSettings (settings : Settings) : (ofSettings settings).Remembers [] where
  holds := ExpiredPings.holds_empty
  untimed _ h := nomatch h
  gone _ h := nomatch h

@[simp] theorem expired_track (s : Session) (now : Instant) (id : EntityId) :
    (s.track now id).expired = s.expired := by
  unfold track
  split <;> rfl

@[simp] theorem expired_trackAll (s : Session) (now : Instant) (ids : List EntityId) :
    (s.trackAll now ids).expired = s.expired := by
  induction ids generalizing s with
  | nil => rfl
  | cons id ids ih => exact (ih (s.track now id)).trans (expired_track s now id)

namespace Remembers

variable {s : Session} {past : List EntityId} (h : s.Remembers past)
include h

/-- A timed ping that expires is a new one to the memory. -/
theorem expire {id : EntityId} {d : Instant} (hid : s.deadlines.find? id = some d) :
    (s.expire id).Remembers (past ++ [id]) := by
  have hnew : id ∉ s.expired.queue := by
    intro hmem
    rw [h.untimed id hmem] at hid
    cases hid
  have hholds := h.holds.remember hnew
  have hmem : ∀ k ∈ (s.expire id).expired.queue, k = id ∨ k ∈ s.expired.queue :=
    fun k hk => ExpiredPings.mem_queue_remember hk
  refine ⟨hholds, ?_, ?_⟩
  · intro k hk
    rw [Session.expire, SortedMap.find?_erase]
    split
    next => rfl
    next hne => exact h.untimed k ((hmem k hk).resolve_left hne)
  · intro k hk
    rw [Session.expire, Replica.confirmed_expirePing, Replica.hasPing_withoutPing]
    split
    next => rfl
    next hne => exact h.gone k ((hmem k hk).resolve_left hne)

theorem expireAll {ids : List EntityId} (hnodup : ids.Nodup)
    (htimed : ∀ id ∈ ids, ∃ d, s.deadlines.find? id = some d) :
    (ids.foldl Session.expire s).Remembers (past ++ ids) := by
  induction ids generalizing s past with
  | nil => simpa using h
  | cons id ids ih =>
    obtain ⟨hout, hnodup⟩ := List.nodup_cons.1 hnodup
    obtain ⟨d, hd⟩ := htimed id List.mem_cons_self
    rw [List.append_cons]
    apply ih (h.expire hd) hnodup
    intro k hk
    obtain ⟨e, he⟩ := htimed k (List.mem_cons_of_mem _ hk)
    have hne : k ≠ id := by
      rintro rfl
      exact hout hk
    exact ⟨e, by rw [Session.expire, SortedMap.find?_erase_of_ne _ hne, he]⟩

theorem trackAll (now : Instant) {ids : List EntityId}
    (hout : ∀ id ∈ ids, id ∉ s.expired.queue) : (s.trackAll now ids).Remembers past where
  holds := by rw [expired_trackAll]; exact h.holds
  untimed k hk := by
    rw [expired_trackAll] at hk
    rw [find?_deadlines_trackAll, if_neg fun hmem => hout k hmem hk]
    exact h.untimed k hk
  gone k hk := by
    rw [expired_trackAll] at hk
    rw [replica_trackAll]
    exact h.gone k hk

end Remembers

section Calls

variable (s : Session) (now : Instant)

theorem expired_call (c : Call) :
    (s.call now c).1.expired = ((s.sweeps c).foldl expire s).expired := by
  cases c with
  | initialState es => exact expired_trackAll s now _
  | confirmed id actions => exact expired_trackAll s now _
  | ping id c => exact expired_track s now id
  | _ => rfl

/-- The confirmed board gains no pings but those that are sighted. -/
theorem sights_or_hasPing {c : Call} {id : EntityId}
    (h : (s.call now c).1.replica.confirmed.hasPing id = true) :
    id ∈ s.sights (now, c) ∨ ((s.sweeps c).foldl expire s).replica.confirmed.hasPing id = true := by
  cases c with
  | initialState es =>
    obtain ⟨e, he, hping, rfl⟩ := Board.exists_of_hasPing_ofEntities h
    rw [sights_initialState]
    exact .inl (List.mem_map_of_mem (List.mem_filter.2 ⟨he, hping⟩))
  | confirmed k actions =>
    simp only [call, confirmed, Replica.confirmed_receive, replica_trackAll] at h
    rw [sights_confirmed]
    exact (Board.exists_created_or_hasPing h).imp_left List.mem_filterMap.2
  | rejected k =>
    simp only [call, rejected, Replica.confirmed_reject] at h
    exact .inr h
  | collect k =>
    simp only [call, collect, Replica.confirmed_collect] at h
    exact .inr h
  | ping k c =>
    simp only [call, ping, edit, Replica.confirmed_edit, replica_track] at h
    exact .inr h
  | upsert e =>
    simp only [call, edit, Replica.confirmed_edit] at h
    exact .inr h
  | delete k =>
    simp only [call, edit, Replica.confirmed_edit] at h
    exact .inr h
  | undo =>
    simp only [call, undo, Replica.undo, Replica.confirmed_step, Replica.confirmed_fence] at h
    exact .inr h
  | redo =>
    simp only [call, redo, Replica.redo, Replica.confirmed_step] at h
    exact .inr h
  | fence =>
    simp only [call, fence, Replica.confirmed_fence] at h
    exact .inr h
  | expirePings t => exact .inr h

end Calls

namespace Remembers

variable {s : Session} {past : List EntityId} (h : s.Remembers past)
include h

/-- What is sighted was not remembered: the server's pings are filtered, and new ones are new. -/
theorem not_mem_of_sights {now : Instant} {c : Call}
    (hnew : ∀ id ∈ c.newPing?, id ∉ s.expired.queue) :
    ∀ id ∈ s.sights (now, c), id ∉ s.expired.queue := by
  intro id hid
  rw [← h.holds.contains_iff]
  cases c with
  | initialState es => simpa using List.of_mem_filter hid
  | confirmed k actions => simpa using List.of_mem_filter hid
  | ping k c =>
    rw [h.holds.contains_iff]
    obtain rfl := List.mem_singleton.1 hid
    exact hnew id rfl
  | _ => cases hid

theorem call (now : Instant) {c : Call} (hnew : ∀ id ∈ c.newPing?, id ∉ s.expired.queue) :
    (s.call now c).1.Remembers (past ++ s.sweeps c) := by
  have hswept : ((s.sweeps c).foldl Session.expire s).Remembers (past ++ s.sweeps c) :=
    h.expireAll (nodup_sweeps s c) fun id hid => mem_sweeps hid
  have hout : ∀ id ∈ s.sights (now, c),
      id ∉ ((s.sweeps c).foldl Session.expire s).expired.queue := by
    cases c with
    | expirePings t => exact fun id hid => nomatch hid
    | _ => exact h.not_mem_of_sights hnew
  have htracked := hswept.trackAll now hout
  have hexpired := expired_call s now c
  refine ⟨hexpired ▸ hswept.holds, ?_, ?_⟩
  · intro id hid
    rw [deadlines_call]
    apply htracked.untimed
    rwa [expired_trackAll, ← hexpired]
  · intro id hid
    rw [hexpired] at hid
    rw [← Bool.not_eq_true]
    intro hping
    rcases sights_or_hasPing s now hping with hsights | hping
    · exact hout id hsights hid
    · rw [hswept.gone id hid] at hping
      cases hping

end Remembers

theorem remembers_run (settings : Settings) {calls : List (Instant × Call)}
    (hnew : PingsAreNew calls) :
    ((ofSettings settings).run calls).Remembers ((ofSettings settings).expirations calls) := by
  induction calls using List.reverseRecOn with
  | nil => exact remembers_ofSettings settings
  | append_singleton calls c ih =>
    obtain ⟨hcalls, -, hlast⟩ := List.pairwise_append.1 hnew
    have hk := ih hcalls
    rw [run_append, run_cons, run_nil, expirations_concat]
    apply hk.call c.1
    intro id hid hmem
    rw [hk.holds.queue_eq] at hmem
    obtain ⟨d, hd, hnamed⟩ := mem_ids_of_mem_expirations (List.mem_of_mem_drop hmem)
    exact hlast d hd c (List.mem_singleton_self c) id hid hnamed

/-- In a run whose new pings take new ids, the memory is the last 256 expiries, each once, in the
order in which they were answered. A remembered ping is not timed, and does not stand on the
confirmed board, whatever the server sends. -/
theorem memory_run (settings : Settings) {calls : List (Instant × Call)}
    (hnew : PingsAreNew calls) :
    let start := ofSettings settings
    let s := start.run calls
    s.expired.queue = (start.expirations calls).rtake 256 ∧
      s.expired.queue.Nodup ∧
      (∀ id, s.expired.lookup.contains id = true ↔ id ∈ s.expired.queue) ∧
      ∀ id ∈ s.expired.queue,
        s.deadlines.contains id = false ∧ s.replica.confirmed.hasPing id = false := by
  intro start s
  have h : s.Remembers (start.expirations calls) := remembers_run settings hnew
  refine ⟨h.holds.queue_eq, h.holds.nodup, h.holds.contains_iff, ?_⟩
  intro id hid
  refine ⟨?_, h.gone id hid⟩
  rw [SortedMap.contains, h.untimed id hid, Option.isSome_none]

/-- Three pings expire in one sweep. An echo and a snapshot that bring two of them again are passed
over, and a new ping expires later. -/
def lateEchoes : List (Instant × Call) :=
  [(0, .ping (.ofNat 1) ⟨0, 0⟩),
    (1, .confirmed (.ofNat 9) [.ping ⟨.ofNat 3, ⟨2, 0⟩⟩, .upsert (.ping ⟨.ofNat 2, ⟨1, 0⟩⟩)]),
    (3001, .expirePings 3001),
    (3002, .confirmed (.ofNat 10) [.ping ⟨.ofNat 1, ⟨0, 0⟩⟩]),
    (3003, .initialState [.ping ⟨.ofNat 2, ⟨1, 0⟩⟩]),
    (3004, .ping (.ofNat 4) ⟨0, 0⟩),
    (6004, .expirePings 6004)]

theorem memory_run_lateEchoes :
    PingsAreNew lateEchoes ∧
    (let start := ofSettings {}
      let s := start.run lateEchoes
      s.expired.queue = (start.expirations lateEchoes).rtake 256 ∧
        s.expired.queue.Nodup ∧
        (∀ id, s.expired.lookup.contains id = true ↔ id ∈ s.expired.queue) ∧
        ∀ id ∈ s.expired.queue,
          s.deadlines.contains id = false ∧ s.replica.confirmed.hasPing id = false) ∧
    ((ofSettings {}).run lateEchoes).expired.queue = [.ofNat 1, .ofNat 2, .ofNat 3, .ofNat 4] := by
  have hnew : PingsAreNew lateEchoes := by
    unfold PingsAreNew
    decide
  exact ⟨hnew, memory_run {} hnew, by decide⟩

end Session

end SharedBoard

import SharedBoard.Proofs.Replica.Pings
import SharedBoard.Proofs.Session.Timers

/-! How long a ping stays in the view. What the server shows, and a new ping, is timed from when it
comes into view at the latest; a ping that an upsert of this participant puts there is timed only
when it is sighted. -/
namespace SharedBoard.Session

open PingNote

/-- The ping that an upsert of this participant puts on the view. -/
def places (_ : Session) : Instant × Call → List EntityId
  | (_, .upsert e) => (Action.upsert e).createdPing?.toList
  | _ => []

/-- The pings that are in the view after a call. -/
def shows (s : Session) (c : Instant × Call) : List EntityId := (s.call c.1 c.2).1.view.pings

section Calls

variable {s : Session} {c : Instant × Call} {id : EntityId}

theorem holdsPing_expireAll (s : Session) (ids : List EntityId) (id : EntityId) :
    (ids.foldl expire s).replica.HoldsPing id ↔ id ∉ ids ∧ s.replica.HoldsPing id := by
  induction ids generalizing s with
  | nil => simp
  | cons k ids ih =>
    rw [List.foldl_cons, ih, expire, Replica.holdsPing_expirePing, List.mem_cons, not_or]
    tauto

/-- What a call brings into the replica is sighted, or placed by an upsert. -/
theorem sights_or_places (h : id ∈ (s.replicaCalls c.2).flatMap Replica.Call.brings) :
    id ∈ s.sights c ∨ id ∈ s.places c := by
  obtain ⟨now, c⟩ := c
  cases c with
  | initialState es =>
    rw [sights_initialState]
    exact .inl (by simpa [replicaCalls, Replica.Call.brings] using h)
  | confirmed k actions =>
    rw [sights_confirmed]
    exact .inl (by simpa [replicaCalls, Replica.Call.brings] using h)
  | upsert e => exact .inr (by simpa [replicaCalls, Replica.Call.brings, places] using h)
  | ping k c =>
    simp only [replicaCalls, List.flatMap_singleton, Replica.Call.brings, Action.createdPing?] at h
    exact .inl h
  | _ => simp [replicaCalls, Replica.Call.brings, Action.createdPing?] at h

/-- The pings that a replica holds after a call were sighted or placed by it, or held before and not
swept. -/
theorem holdsPing_call (hledger : s.replica.RecordsNoPings)
    (h : (s.call c.1 c.2).1.replica.HoldsPing id) :
    id ∈ s.sights c ∨ id ∈ s.places c ∨ id ∉ s.sweeps c.2 ∧ s.replica.HoldsPing id := by
  have hbefore : id ∈ s.sights c ∨ id ∈ s.places c ∨ s.replica.HoldsPing id := by
    rw [replica_call] at h
    rw [← or_assoc]
    exact (Replica.holdsPing_run hledger h).imp_left sights_or_places
  obtain ⟨now, c⟩ := c
  cases c with
  | expirePings t => exact .inr (.inr ((holdsPing_expireAll s _ id).1 h))
  | _ => simpa [sweeps] using hbefore

/-- A placed ping is in the view at once. -/
theorem hasPing_of_places (h : id ∈ s.places c) : (s.call c.1 c.2).1.view.hasPing id = true := by
  obtain ⟨now, c⟩ := c
  cases c with
  | upsert e =>
    simp only [call, edit, view, Replica.view_edit]
    exact Board.hasPing_of_created _ _ (Option.mem_toList.1 h)
  | _ => cases h

end Calls

section Runs

variable {settings : Settings} {calls : List (Instant × Call)} {id : EntityId}

theorem clock_concat {c : Instant × Call}
    (hclock : (calls ++ [c]).Pairwise fun a b => a.1 ≤ b.1) :
    (calls.Pairwise fun a b => a.1 ≤ b.1) ∧ ∀ d ∈ calls ++ [c], d.1 ≤ c.1 := by
  obtain ⟨hcalls, -, hlast⟩ := List.pairwise_append.1 hclock
  refine ⟨hcalls, fun d hd => ?_⟩
  rcases List.mem_append.1 hd with hd | hd
  · exact hlast d hd c (by simp)
  · exact Int.le_of_eq (congrArg Prod.fst (List.mem_singleton.1 hd))

/-- A ping that is held was sighted or placed since it last expired. -/
theorem sighted_or_placed (h : ((ofSettings settings).run calls).replica.HoldsPing id) :
    (∃ time, firstSeen? ((ofSettings settings).notes sights calls) id = some time) ∨
      ∃ time, firstSeen? ((ofSettings settings).notes places calls) id = some time := by
  induction calls using List.reverseRecOn with
  | nil =>
    rcases h with h | ⟨a, ha, -⟩
    · cases h
    · cases ha
  | append_singleton calls c ih =>
    rw [run_append] at h
    have hledger := (reachable_run settings calls).replica.recordsNoPings
    rcases holdsPing_call hledger h with hsighted | hplaced | ⟨hkept, hheld⟩
    · exact .inl (exists_firstSeen?_of_see hsighted)
    · exact .inr (exists_firstSeen?_of_see hplaced)
    · exact (ih hheld).imp (fun ⟨time, ht⟩ => ⟨time, firstSeen?_stays ht hkept⟩)
        fun ⟨time, ht⟩ => ⟨time, firstSeen?_stays ht hkept⟩

theorem mem_shows {c : Instant × Call} :
    id ∈ ((ofSettings settings).run calls).shows c ↔
      ((ofSettings settings).run (calls ++ [c])).view.hasPing id = true := by
  have hindexed := (reachable_run settings (calls ++ [c])).replica.indexed.2
  rw [run_append] at hindexed ⊢
  exact hindexed.mem_pings

theorem shown_of_hasPing (h : ((ofSettings settings).run calls).view.hasPing id = true) :
    ∃ time, firstSeen? ((ofSettings settings).notes shows calls) id = some time := by
  rcases List.eq_nil_or_concat' calls with rfl | ⟨calls, c, rfl⟩
  · cases h
  · exact exists_firstSeen?_of_see (mem_shows.2 h)

/-- A placed ping came into view then or before. -/
theorem shown_of_placed (hclock : calls.Pairwise fun a b => a.1 ≤ b.1) {placed : Instant}
    (h : firstSeen? ((ofSettings settings).notes places calls) id = some placed) :
    ∃ shown ≤ placed, firstSeen? ((ofSettings settings).notes shows calls) id = some shown := by
  induction calls using List.reverseRecOn with
  | nil => cases h
  | append_singleton calls c ih =>
    obtain ⟨hcalls, hlast⟩ := clock_concat hclock
    obtain ⟨hkept, hbefore⟩ | ⟨hplaced, rfl⟩ := firstSeen?_concat_cases h
    · obtain ⟨shown, hle, hshown⟩ := ih hcalls hbefore
      exact ⟨shown, hle, firstSeen?_stays hshown hkept⟩
    · have hview : ((ofSettings settings).run (calls ++ [c])).view.hasPing id = true := by
        rw [run_append]
        exact hasPing_of_places hplaced
      obtain ⟨shown, hshown⟩ := shown_of_hasPing hview
      exact ⟨shown, firstSeen?_le hlast hshown, hshown⟩

/-- A ping that came into view was sighted or placed then or before. -/
theorem sighted_or_placed_of_shown (hclock : calls.Pairwise fun a b => a.1 ≤ b.1)
    {shown : Instant}
    (h : firstSeen? ((ofSettings settings).notes shows calls) id = some shown) :
    (∃ sighted ≤ shown,
        firstSeen? ((ofSettings settings).notes sights calls) id = some sighted) ∨
      ∃ placed ≤ shown,
        firstSeen? ((ofSettings settings).notes places calls) id = some placed := by
  induction calls using List.reverseRecOn with
  | nil => cases h
  | append_singleton calls c ih =>
    obtain ⟨hcalls, hlast⟩ := clock_concat hclock
    obtain ⟨hkept, hbefore⟩ | ⟨hshows, rfl⟩ := firstSeen?_concat_cases h
    · exact (ih hcalls hbefore).imp
        (fun ⟨time, hle, ht⟩ => ⟨time, hle, firstSeen?_stays ht hkept⟩)
        fun ⟨time, hle, ht⟩ => ⟨time, hle, firstSeen?_stays ht hkept⟩
    · have hheld := (reachable_run settings (calls ++ [c])).replica.inStep.holdsPing
        (mem_shows.1 hshows)
      exact (sighted_or_placed hheld).imp
        (fun ⟨time, ht⟩ => ⟨time, firstSeen?_le hlast ht, ht⟩)
        fun ⟨time, ht⟩ => ⟨time, firstSeen?_le hlast ht, ht⟩

end Runs

/-- What a sweep answers is gone from the view. -/
theorem hasPing_expirePings {s : Session} (hs : s.Reachable) {now : Instant} {id : EntityId}
    (h : id ∈ (s.expirePings now).2) : (s.expirePings now).1.view.hasPing id = false := by
  obtain ⟨settings, calls, rfl⟩ := hs
  have hreachable := reachable_run settings (calls ++ [(now, .expirePings now)])
  rw [run_append] at hreachable
  rw [Bool.eq_false_iff]
  intro hview
  exact ((holdsPing_expireAll _ _ id).1 (hreachable.replica.inStep.holdsPing hview)).1 h

/-- A ping in the view is timed to run out a lifetime after it came into view, or sooner, exactly
when no upsert of this participant placed it before it was first sighted. Otherwise its timer starts
late or never. A sweep takes a ping away whose timer has run out. All times are the first since the
ping last expired, under a clock that is never set back. -/
theorem pings_timely (settings : Settings) (calls : List (Instant × Call))
    (hclock : calls.Pairwise fun a b => a.1 ≤ b.1) (id : EntityId)
    (hview : ((ofSettings settings).run calls).view.hasPing id = true) :
    let start := ofSettings settings
    let s := start.run calls
    ∃ shown, firstSeen? (start.notes shows calls) id = some shown ∧
      ((∃ d, s.deadlines.find? id = some d ∧ d ≤ shown + settings.pingLifetime) ↔
        ∀ placed, firstSeen? (start.notes places calls) id = some placed →
          ∃ sighted ≤ placed, firstSeen? (start.notes sights calls) id = some sighted) ∧
      ∀ now d, s.deadlines.find? id = some d → d ≤ now →
        id ∈ (s.expirePings now).2 ∧ (s.expirePings now).1.view.hasPing id = false := by
  intro start s
  obtain ⟨shown, hshown⟩ := shown_of_hasPing hview
  refine ⟨shown, hshown, ?_, fun now d hd hnow => ?_⟩
  · simp only [s, start, find?_deadlines_run, Option.map_eq_some_iff]
    constructor
    · rintro ⟨d, ⟨sighted, hsighted, rfl⟩, hle⟩ placed hplaced
      obtain ⟨first, hfirst, hfirst'⟩ := shown_of_placed hclock hplaced
      obtain rfl : first = shown := Option.some.inj (hfirst'.symm.trans hshown)
      exact ⟨sighted, Int.le_trans (Int.le_of_add_le_add_right hle) hfirst, hsighted⟩
    · intro h
      have hsighted : ∃ sighted ≤ shown,
          firstSeen? (start.notes sights calls) id = some sighted := by
        rcases sighted_or_placed_of_shown hclock hshown with hsighted | ⟨placed, hle, hplaced⟩
        · exact hsighted
        · obtain ⟨sighted, hle', hsighted⟩ := h placed hplaced
          exact ⟨sighted, Int.le_trans hle' hle, hsighted⟩
      obtain ⟨sighted, hle, hsighted⟩ := hsighted
      exact ⟨_, ⟨sighted, hsighted, rfl⟩, Int.add_le_add_right hle _⟩
  · have hswept := (mem_expirePings s now id).2 ⟨d, hd, hnow⟩
    exact ⟨hswept, hasPing_expirePings (reachable_run settings calls) hswept⟩

/-- Relayed by the server, then moved by an upsert: it runs out a lifetime after it was relayed. -/
def relayedPing : List (Instant × Call) :=
  [(200, .confirmed (.ofNat 9) [.ping ⟨.ofNat 1, ⟨0, 0⟩⟩]),
    (700, .upsert (.ping ⟨.ofNat 1, ⟨4, 0⟩⟩))]

theorem pings_timely_relayed :
    ((relayedPing.Pairwise fun a b => a.1 ≤ b.1) ∧
      ((ofSettings {}).run relayedPing).view.hasPing (.ofNat 1) = true) ∧
    (let start := ofSettings {}
      let s := start.run relayedPing
      ∃ shown, firstSeen? (start.notes shows relayedPing) (.ofNat 1) = some shown ∧
        ((∃ d, s.deadlines.find? (.ofNat 1) = some d ∧ d ≤ shown + 3000) ↔
          ∀ placed, firstSeen? (start.notes places relayedPing) (.ofNat 1) = some placed →
            ∃ sighted ≤ placed,
              firstSeen? (start.notes sights relayedPing) (.ofNat 1) = some sighted) ∧
        ∀ now d, s.deadlines.find? (.ofNat 1) = some d → d ≤ now →
          .ofNat 1 ∈ (s.expirePings now).2 ∧
            (s.expirePings now).1.view.hasPing (.ofNat 1) = false) ∧
    ((ofSettings {}).run relayedPing).deadlines.find? (.ofNat 1) = some 3200 := by
  have hclock : relayedPing.Pairwise fun a b => a.1 ≤ b.1 := by decide
  have hview : ((ofSettings {}).run relayedPing).view.hasPing (.ofNat 1) = true := by decide
  exact ⟨⟨hclock, hview⟩, pings_timely {} relayedPing hclock (.ofNat 1) hview, by decide⟩

/-- An upsert that places a ping starts no timer: no sweep takes it away, however late. -/
theorem placed_ping_stays :
    let s := (ofSettings {}).run [(0, .upsert (.ping ⟨.ofNat 1, ⟨0, 0⟩⟩))]
    s.view.hasPing (.ofNat 1) = true ∧ s.deadlines.find? (.ofNat 1) = none ∧
      ∀ now, s.expirePings now = (s, []) :=
  ⟨by decide, by decide, fun _ => rfl⟩

end SharedBoard.Session

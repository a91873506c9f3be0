import SharedBoard.Proofs.Board.Rosters
import SharedBoard.Proofs.Replica.Acknowledgement
import SharedBoard.Proofs.Replica.Histories

/-! What the view owes to the confirmed board: its entities, and nothing else. The order within the
groups matters to confirmed changes alone. -/
namespace SharedBoard.Replica

/-- A replay holds what the pending guesses make of the confirmed entities. -/
theorem entities_replay {r : Replica} (h : r.confirmed.Indexed) :
    r.replay.entities = Roster.guessAll r.confirmed.entities r.pending :=
  h.entities_applyAll r.pending

/-- And so does the view, after every run. -/
theorem Reachable.entities_view {r : Replica} (h : r.Reachable) :
    r.view.entities = Roster.guessAll r.confirmed.entities r.pending := by
  rw [h.inStep, entities_replay h.indexed.1]

/-- Guesses see nothing of a consistent board but its entities. On two such boards that hold the
same, in whatever order their groups are, any list of optimistic actions gets the same reply at each
step and leaves boards that hold the same after it. So a replay builds the same entities on either as
the confirmed board, and these are what the pending actions make of the confirmed entities alone. -/
theorem guesses_see_entities {b b' : Board} (hb : b.isConsistent = true)
    (hb' : b'.isConsistent = true) (hsame : b.sameEntities b' = true) :
    (∀ as : List Action, List.Forall₂ Board.SameOutcome (b.guesses as) (b'.guesses as)) ∧
      ∀ r : Replica,
        let replayed := { r with confirmed := b }.replay
        replayed.sameEntities { r with confirmed := b' }.replay = true ∧
          replayed.entities = Roster.guessAll b.entities r.pending := by
  have hindexed : b.Indexed := Board.indexed_of_isConsistent hb
  have hindexed' : b'.Indexed := Board.indexed_of_isConsistent hb'
  have hentities : b.entities = b'.entities := beq_iff_eq.1 hsame
  refine ⟨hindexed.guesses_congr hindexed' hentities, ?_⟩
  intro r replayed
  have hreplayed : replayed.entities = Roster.guessAll b.entities r.pending :=
    entities_replay hindexed
  have hreplayed' : { r with confirmed := b' }.replay.entities =
      Roster.guessAll b'.entities r.pending := entities_replay hindexed'
  refine ⟨?_, hreplayed⟩
  rw [Board.sameEntities, beq_iff_eq, hreplayed, hreplayed', hentities]

/-- Three orcs in a row, of which the first is red. -/
def orcRow : List Action :=
  [.upsert (.character ⟨.ofNat 1, ⟨0, 0, 0⟩, .icon "orc", some "#D94B4B"⟩), .upsert (orcAt 2 1),
    .upsert (orcAt 3 2)]

/-- A fourth orc finds the first one in its way until that moves on; then an id without an entity is
deleted, and a ping comes. -/
def joinsRow : Replica :=
  (empty 1).run [.edit (.upsert (orcAt 4 0)), .edit (.upsert (orcAt 1 5)), .collect (.ofNat 8),
    .edit (.upsert (orcAt 4 0)), .edit (.delete (.ofNat 7)), .edit (.ping ⟨.ofNat 9, ⟨0, 0⟩⟩)]

/-- The orcs stand in their group in one order and in the other. No guess can tell; to confirm the
fourth one hands out blue and green in these orders. -/
theorem guesses_see_entities_orcRow :
    let b := Board.empty.applyAll .optimistic orcRow
    let b' := Board.empty.applyAll .optimistic orcRow.reverse
    let replayed := { joinsRow with confirmed := b }.replay
    (b.isConsistent = true ∧ b'.isConsistent = true ∧ b.sameEntities b' = true) ∧
      b.group "icon:orc" ≠ b'.group "icon:orc" ∧
      (List.Forall₂ Board.SameOutcome (b.guesses joinsRow.pending) (b'.guesses joinsRow.pending) ∧
        (b.guesses joinsRow.pending).map Prod.snd = [false, true, true, false, true]) ∧
      (replayed.sameEntities { joinsRow with confirmed := b' }.replay = true ∧
        replayed.entities = Roster.guessAll b.entities joinsRow.pending ∧
        replayed.color? (.ofNat 1) = some "#D94B4B") ∧
      (b.upsert .confirmed (orcAt 4 3)).sameEntities (b'.upsert .confirmed (orcAt 4 3)) = false := by
  intro b b' replayed
  have hb : b.isConsistent = true := by decide
  have hb' : b'.isConsistent = true := by decide
  have hsame : b.sameEntities b' = true := by decide
  obtain ⟨hsteps, hreplay⟩ := guesses_see_entities hb hb' hsame
  obtain ⟨hsees, hbuilds⟩ := hreplay joinsRow
  exact ⟨⟨hb, hb', hsame⟩, by decide, ⟨hsteps _, by decide⟩, ⟨hsees, hbuilds, by decide⟩, by decide⟩

end SharedBoard.Replica

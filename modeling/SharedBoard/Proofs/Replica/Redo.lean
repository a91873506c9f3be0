import SharedBoard.Proofs.Replica.Undo
import SharedBoard.Proofs.Undo.Retaken

/-! Undoing and redoing as many sets. The ledger walks back and forth over the same sets, and the
view ends as it was, colours included. -/
namespace SharedBoard.Replica

theorem replies_append (r : Replica) (cs ds : List Call) :
    r.replies (cs ++ ds) = r.replies cs ++ (r.run cs).replies ds := by
  induction cs generalizing r with
  | nil => rfl
  | cons c cs ih => exact congrArg ((r.call c).2 :: ·) (ih _)

theorem run_redo {r : Replica} {past future : List (List UndoEntry)} {last : List UndoEntry}
    (sets : List (List UndoEntry)) (h : r.ledger.Holds past (sets ++ future) last) :
    r.replies (List.replicate sets.length .redo) = List.replicate sets.length (.changed true) ∧
      (r.run (List.replicate sets.length .redo)).ledger.Holds (past ++ sets) future last ∧
      (r.run (List.replicate sets.length .redo)).view =
        r.view.applyAll .optimistic (sets.flatten.map UndoEntry.forward) := by
  induction sets generalizing r past with
  | nil => exact ⟨rfl, by simpa using h, rfl⟩
  | cons set sets ih =>
    rw [List.cons_append] at h
    obtain ⟨htrue, -, hholds, hview⟩ := redo_holds h
    obtain ⟨hreplies, hledger, hrest⟩ := ih hholds
    have hcall : r.call .redo = (r.redo.1, .changed true) := by rw [← htrue]; rfl
    rw [List.length_cons, List.replicate_succ, List.replicate_succ, replies, run_cons, hcall]
    refine ⟨?_, ?_, ?_⟩
    · rw [hreplies]
    · simpa using hledger
    · rw [hrest, hview, ← Board.applyAll_append]
      simp

/-- Undoing the newest `k` sets that were sealed since a settled moment and kept, and redoing as
many, succeeds each time and ends with the same entities in the same colours, and with the ledger
at the same sets and the same cursor. -/
theorem redo_restores {r : Replica} (hr : r.Reachable)
    (hopen : r.ledger.sets.getLast? = some []) (hredo : r.ledger.canRedo = false)
    {calls : List Call} (hcalls : r.areUndoable (calls ++ [.fence]) = true) {k : Nat}
    (hk : k ≤ min (r.journal (calls ++ [.fence])).sealedSets.length r.ledger.limit) :
    let done := r.run (calls ++ [.fence])
    let trip := List.replicate k Call.undo ++ List.replicate k Call.redo
    done.replies trip = List.replicate (k + k) (.changed true) ∧
      (done.run trip).view.sameEntities done.view = true ∧
      (done.run trip).ledger.sets = done.ledger.sets ∧
      (done.run trip).ledger.cursor = done.ledger.cursor := by
  intro done trip
  obtain ⟨hlen, -, ⟨past, hledger⟩, target, htarget, hleads, -⟩ :=
    newest_sets hr hopen hredo hcalls hk
  set sets := (r.journal (calls ++ [.fence])).sealedSets.rtake k with hsets
  set entries := sets.map (·.map Recorded.entry) with hentries
  have hcount : entries.length = k := by rw [hentries, List.length_map, hlen]
  obtain ⟨hundos, hundone, hback⟩ := run_undo entries hledger
  obtain ⟨hredos, hredone, hagain⟩ := run_redo entries hundone
  rw [hcount] at hundos hundone hback hredos hredone hagain
  have hrun : done.run trip =
      (done.run (List.replicate k .undo)).run (List.replicate k .redo) := run_append _ _ _
  have hview : (done.run trip).view = (done.view.applyAll .optimistic
      (takeBack sets.flatten)).applyAll .optimistic (takeAgain sets.flatten) := by
    have hflatten : entries.flatten = sets.flatten.map Recorded.entry := List.map_flatten.symm
    rw [hrun, hagain, hback, hflatten]
    rfl
  refine ⟨?_, ?_, ?_, ?_⟩
  · rw [replies_append, hundos, hredos, List.replicate_append_replicate]
  · rw [Board.sameEntities_iff, hview]
    exact hleads.takeBack_takeAgain htarget
  · rw [hrun, hredone.sets_eq, hledger.sets_eq]
  · rw [hrun, hredone.cursor_eq, hledger.cursor_eq]

/-- A token gets a colour and leaves its cell; another one takes the cell and holds a third one
back; and that one takes the cell when it is free, for a moment in another look. -/
def recoloredSets : List Call :=
  [.edit (.upsert (tokenAt 1 0 "orc" (some "#3FA66B"))), .edit (.upsert (tokenAt 1 5 "orc" none)),
    .fence, .edit (.upsert (tokenAt 3 0 "elf" none)),
    .edit (.upsert (tokenAt 3 0 "elf" (some "teal"))), .edit (.upsert (tokenAt 2 0 "orc" none)),
    .fence, .edit (.delete (.ofNat 3)), .edit (.upsert (tokenAt 2 0 "elf" none)),
    .edit (.upsert (tokenAt 2 0 "orc" none))]

theorem redo_restores_pair :
    (pair.Reachable ∧ pair.ledger.sets.getLast? = some [] ∧ pair.ledger.canRedo = false ∧
      pair.areUndoable (recoloredSets ++ [.fence]) = true ∧
      2 ≤ min (pair.journal (recoloredSets ++ [.fence])).sealedSets.length pair.ledger.limit) ∧
    let done := pair.run (recoloredSets ++ [.fence])
    let trip := List.replicate 2 Call.undo ++ List.replicate 2 Call.redo
    done.replies trip = List.replicate (2 + 2) (.changed true) ∧
      (done.run trip).view.sameEntities done.view = true ∧
      (done.run trip).ledger.sets = done.ledger.sets ∧
      (done.run trip).ledger.cursor = done.ledger.cursor := by
  have hpair : pair.Reachable := reachable_run _ _
  have hopen : pair.ledger.sets.getLast? = some [] := by decide
  have hredo : pair.ledger.canRedo = false := by decide
  have hcalls : pair.areUndoable (recoloredSets ++ [.fence]) = true := by decide
  have htwo : 2 ≤ min (pair.journal (recoloredSets ++ [.fence])).sealedSets.length
      pair.ledger.limit := by decide
  exact ⟨⟨hpair, hopen, hredo, hcalls, htwo⟩, redo_restores hpair hopen hredo hcalls htwo⟩

end SharedBoard.Replica

import SharedBoard.Proofs.Replica.Journal

/-! Undoing what was done since a moment with nothing open and nothing to redo. The view comes back
as it was before the earliest set undone, but for colours that an uncoloured character was given
and that, once undone, it inherits from itself. -/
namespace SharedBoard.Replica

def replies (r : Replica) : List Call → List Reply
  | [] => []
  | c :: cs => (r.call c).2 :: (r.call c).1.replies cs

theorem run_undo {r : Replica} {past future : List (List UndoEntry)} {last : List UndoEntry}
    (sets : List (List UndoEntry)) (h : r.ledger.Holds (past ++ sets) future last) :
    r.replies (List.replicate sets.length .undo) = List.replicate sets.length (.changed true) ∧
      (r.run (List.replicate sets.length .undo)).ledger.Holds past (sets ++ future) last ∧
      (r.run (List.replicate sets.length .undo)).view =
        r.view.applyAll .optimistic (sets.flatten.reverse.map UndoEntry.inverse) := by
  induction sets using List.reverseRecOn generalizing r future with
  | nil => exact ⟨rfl, by simpa using h, rfl⟩
  | append_singleton sets set ih =>
    rw [← List.append_assoc] at h
    obtain ⟨htrue, -, hholds, hview⟩ := undo_holds h
    obtain ⟨hreplies, hledger, hrest⟩ := ih hholds
    have hcall : r.call .undo = (r.undo.1, .changed true) := by rw [← htrue]; rfl
    rw [List.length_append, List.length_singleton, List.replicate_succ, List.replicate_succ,
      replies, run_cons, hcall]
    refine ⟨?_, ?_, ?_⟩
    · rw [hreplies]
    · simpa using hledger
    · rw [hrest, hview, ← Board.applyAll_append]
      simp

theorem rtake_append {α : Type} (xs ys : List α) {n : Nat} (h : ys.length ≤ n) :
    (xs ++ ys).rtake n = xs.rtake (n - ys.length) ++ ys := by
  have hdrop : xs.length + ys.length - n ≤ xs.length := by omega
  have hsame : xs.length + ys.length - n = xs.length - (n - ys.length) := by omega
  rw [List.rtake, List.length_append, List.drop_append_of_le_length hdrop, hsame]
  rfl

theorem settled_ledger {r : Replica} (hr : r.Reachable)
    (hopen : r.ledger.sets.getLast? = some []) (hredo : r.ledger.canRedo = false) :
    ∃ past, r.ledger.Holds past [] [] := by
  obtain ⟨past, future, last, h⟩ := hr.ledgerHolds
  have hfuture : future = [] := by
    by_contra hne
    rw [h.canRedo_iff.2 hne] at hredo
    cases hredo
  have hlast : last = [] := by simpa [h.sets_eq] using hopen
  subst hfuture hlast
  exact ⟨past, h⟩

/-- The newest `k` sets that were sealed since a settled moment, if the ledger keeps as many: they
are its last ones, and their edits lead to the view from the one before the first of them. -/
theorem newest_sets {r : Replica} (hr : r.Reachable) (hopen : r.ledger.sets.getLast? = some [])
    (hredo : r.ledger.canRedo = false) {calls : List Call}
    (hcalls : r.areUndoable (calls ++ [.fence]) = true) {k : Nat}
    (hk : k ≤ min (r.journal (calls ++ [.fence])).sealedSets.length r.ledger.limit) :
    let done := r.run (calls ++ [.fence])
    let sets := (r.journal (calls ++ [.fence])).sealedSets
    (sets.rtake k).length = k ∧ (∀ set ∈ sets.rtake k, set ≠ []) ∧
      (∃ past, done.ledger.Holds (past ++ (sets.rtake k).map (·.map Recorded.entry)) [] []) ∧
      ∃ target, target.Indexed ∧ Leads target (sets.rtake k).flatten done.view ∧
        (k = sets.length → target = r.view) := by
  intro done sets
  obtain ⟨past, hpast⟩ := settled_ledger hr hopen hredo
  obtain ⟨hdescribes, hnone⟩ := describes_journal hpast hcalls
  obtain ⟨hsets, hlimit⟩ : k ≤ sets.length ∧ k ≤ r.ledger.limit := Nat.le_min.1 hk
  have hlen : (sets.rtake k).length = k := by
    rw [List.rtake, List.length_drop]
    omega
  have hsplit : sets.rdrop k ++ sets.rtake k = sets := List.take_append_drop _ _
  refine ⟨hlen, ?_, ?_, ?_⟩
  · intro set hset
    exact hdescribes.sealed_nonempty set (List.mem_of_mem_drop hset)
  · have hholds := hdescribes.holds
    have hentries : (r.journal (calls ++ [.fence])).entrySets =
        (sets.rdrop k).map (·.map Recorded.entry) ++ (sets.rtake k).map (·.map Recorded.entry) := by
      rw [← List.map_append, hsplit]
      rfl
    rw [hnone, hentries, ← List.append_assoc, rtake_append] at hholds
    · exact ⟨_, hholds⟩
    · rw [List.length_map, hlen]
      exact hlimit
  · have hleads : Leads r.view ((sets.rdrop k).flatten ++ (sets.rtake k).flatten) done.view := by
      rw [← List.flatten_append, hsplit, ← List.append_nil sets.flatten, ← hnone]
      exact hdescribes.leads
    obtain ⟨target, hbefore, hnewest⟩ := hleads.split
    refine ⟨target, hbefore.indexed hr.indexed.2, hnewest, ?_⟩
    intro hall
    have hfront : sets.rdrop k = [] := by simp [List.rdrop, hall]
    rw [hfront] at hbefore
    exact hbefore.symm

/-- Undoing the newest `k` sets that were sealed since a settled moment and kept succeeds `k` times.
The view is then that before the first entry of the earliest of them, with all its colours; it is
exactly that one unless some character in it, without a colour, was given one while it kept its
look. -/
theorem undo_restores {r : Replica} (hr : r.Reachable)
    (hopen : r.ledger.sets.getLast? = some []) (hredo : r.ledger.canRedo = false)
    {calls : List Call} (hcalls : r.areUndoable (calls ++ [.fence]) = true) {k : Nat}
    (hk : k ≤ min (r.journal (calls ++ [.fence])).sealedSets.length r.ledger.limit) :
    let done := r.run (calls ++ [.fence])
    let sets := (r.journal (calls ++ [.fence])).sealedSets
    let undos := List.replicate k Call.undo
    done.replies undos = List.replicate k (.changed true) ∧
      ∃ target later, boardsOf (sets.rtake k).flatten done.view = target :: later ∧
        (∀ set ∈ (sets.rtake k).head?, set.head?.map Recorded.before = some target) ∧
        (k = sets.length → target = r.view) ∧
        target.GainsColors (done.run undos).view ∧
        ((done.run undos).view.sameEntities target = true ↔
          ∀ id, takesColor ((target :: later).map (·.get? id)) = false) := by
  intro done sets undos
  obtain ⟨hlen, hnonempty, ⟨past, hledger⟩, target, htarget, hleads, hall⟩ :=
    newest_sets hr hopen hredo hcalls hk
  obtain ⟨hreplies, -, hview⟩ := run_undo _ hledger
  rw [List.length_map, hlen] at hreplies hview
  obtain ⟨hgains, hrestored⟩ := hleads.takeBack htarget
  obtain ⟨later, hboards⟩ := hleads.boardsOf_eq
  have hback : (done.run undos).view =
      done.view.applyAll .optimistic (takeBack (sets.rtake k).flatten) := by
    rw [hview, takeBack, List.map_flatten]
  refine ⟨hreplies, target, later, hboards, ?_, hall, hback ▸ hgains, ?_⟩
  · intro set hset
    obtain ⟨rest, hrest⟩ := List.head?_eq_some_iff.1 hset
    cases set with
    | nil => exact absurd rfl (hnonempty [] (List.mem_of_mem_head? hset))
    | cons x xs =>
      rw [hrest, List.flatten_cons] at hleads
      exact congrArg some hleads.1
  · rw [Board.sameEntities_iff]
    apply forall_congr'
    intro id
    rw [hback, hrestored id, hboards, List.map_cons]
    exact restored_eq_iff _ _

def tokenAt (id : Nat) (x : Int32) (icon : String) (color : Option String) : Entity :=
  .character ⟨.ofNat id, ⟨x, 0, 0⟩, .icon icon, color⟩

/-- Two confirmed orcs, and a ledger for two sets. -/
def pair : Replica :=
  (empty 2).run [.receive [.upsert (tokenAt 1 0 "orc" none), .upsert (tokenAt 2 1 "orc" none)] none]

/-- A move that finds no room, and a delete. -/
def firstSet : List Call :=
  [.edit (.upsert (tokenAt 2 0 "orc" none)), .edit (.delete (.ofNat 1)), .fence]

/-- A token for the freed cell and a new look; then the old look again, and deletes. -/
def laterSets : List Call :=
  [.edit (.upsert (tokenAt 3 0 "elf" none)), .edit (.upsert (tokenAt 2 4 "elf" none)), .fence,
    .edit (.upsert (tokenAt 2 1 "orc" none)), .edit (.delete (.ofNat 3)),
    .edit (.delete (.ofNat 7))]

def threeSets : List Call := firstSet ++ laterSets

theorem undo_restores_pair :
    (pair.Reachable ∧ pair.ledger.sets.getLast? = some [] ∧ pair.ledger.canRedo = false ∧
      pair.areUndoable (threeSets ++ [.fence]) = true ∧
      2 ≤ min (pair.journal (threeSets ++ [.fence])).sealedSets.length pair.ledger.limit) ∧
    (pair.run (threeSets ++ [.fence])).replies (List.replicate 2 .undo) =
      List.replicate 2 (.changed true) ∧
    (pair.run firstSet).view.GainsColors
      ((pair.run (threeSets ++ [.fence])).run (List.replicate 2 .undo)).view ∧
    ((pair.run (threeSets ++ [.fence])).run (List.replicate 2 .undo)).view.sameEntities
      (pair.run firstSet).view = true := by
  have hpair : pair.Reachable := reachable_run _ _
  have hopen : pair.ledger.sets.getLast? = some [] := by decide
  have hredo : pair.ledger.canRedo = false := by decide
  have hcalls : pair.areUndoable (threeSets ++ [.fence]) = true := by decide
  have htwo : 2 ≤ min (pair.journal (threeSets ++ [.fence])).sealedSets.length
      pair.ledger.limit := by decide
  have htarget : (boardsOf ((pair.journal (threeSets ++ [.fence])).sealedSets.rtake 2).flatten
      (pair.run (threeSets ++ [.fence])).view).head? = some (pair.run firstSet).view := by decide
  obtain ⟨hreplies, target, later, hboards, -, -, hgains, -⟩ :=
    undo_restores hpair hopen hredo hcalls htwo
  rw [hboards, List.head?_cons, Option.some.injEq] at htarget
  rw [htarget] at hgains
  exact ⟨⟨hpair, hopen, hredo, hcalls, htwo⟩, hreplies, hgains, by decide⟩

/-- A confirmed orc without a colour. -/
def loner : Replica := (empty 1).run [.receive [.upsert (tokenAt 1 0 "orc" none)] none]

def recoloring : List Call := [.edit (.upsert (tokenAt 1 0 "orc" (some "#D94B4B")))]

/-- An orc that is given a colour keeps it when that is undone: what is put back has no colour, and
inherits the one that it should take away. -/
theorem undo_keeps_given_color :
    let calls := recoloring ++ [.fence]
    let done := loner.run calls
    (loner.Reachable ∧ loner.ledger.sets.getLast? = some [] ∧ loner.ledger.canRedo = false ∧
      loner.areUndoable calls = true ∧
      (loner.journal calls).sealedSets.map (·.map Recorded.before) = [[loner.view]] ∧
      1 ≤ loner.ledger.limit) ∧
    done.replies [.undo] = [.changed true] ∧
    (done.run [.undo]).view.sameEntities loner.view = false :=
  ⟨⟨reachable_run _ _, by decide⟩, by decide⟩

end SharedBoard.Replica

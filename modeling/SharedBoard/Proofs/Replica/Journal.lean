import SharedBoard.Proofs.Replica.Histories
import SharedBoard.Proofs.Undo.Ledger
import SharedBoard.Proofs.Undo.Recorded

/-! The journal of a run of local edits: the entries that the ledger took, each with the view before
it, in the sets that fences sealed. The ledger keeps the newest of these sets, up to its limit. -/
namespace SharedBoard.Replica

@[simp] theorem view_pushAll (r : Replica) (as : List Action) :
    (as.foldl push r).view = r.view.applyAll .optimistic as := by
  induction as generalizing r with
  | nil => rfl
  | cons a as ih => exact ih (r.push a)

@[simp] theorem ledger_pushAll (r : Replica) (as : List Action) :
    (as.foldl push r).ledger = r.ledger := by
  induction as generalizing r with
  | nil => rfl
  | cons a as ih => exact ih (r.push a)

theorem ledger_receive (r : Replica) (actions : List Action) (id : Option UpdateId) :
    (r.receive actions id).ledger = r.ledger := by cases id <;> rfl

theorem ledger_reject (r : Replica) (id : UpdateId) : (r.reject id).1.ledger = r.ledger := by
  rw [reject_eq]
  split <;> rfl

theorem ledger_expirePing (r : Replica) (id : EntityId) :
    (r.expirePing id).1.ledger = r.ledger := by
  rw [expirePing_eq]
  split <;> rfl

theorem ledger_collect (r : Replica) (id : UpdateId) : (r.collect id).1.ledger = r.ledger := by
  unfold collect
  split <;> rfl

theorem view_edit (r : Replica) (a : Action) :
    (r.edit a).view = r.view.apply .optimistic a := by
  unfold edit
  cases UndoEntry.ofAction? r.view a <;> rfl

theorem ledger_edit (r : Replica) (a : Action) :
    (r.edit a).ledger = (UndoEntry.ofAction? r.view a).elim r.ledger r.ledger.record := by
  unfold edit
  cases UndoEntry.ofAction? r.view a <;> rfl

theorem fence_of_none {r : Replica} (h : r.ledger.fence? = none) : r.fence = (r, false) := by
  simp [fence, h]

theorem fence_of_some {r : Replica} {l : UndoLedger} (h : r.ledger.fence? = some l) :
    r.fence = ({ r with ledger := l }, true) := by
  simp [fence, h]

/-- What a call can do to the ledger. -/
theorem ledger_call_cases (r : Replica) (c : Call) :
    (r.call c).1.ledger = r.ledger ∨
      (∃ a entry, UndoEntry.ofAction? r.view a = some entry ∧
        (r.call c).1.ledger = r.ledger.record entry) ∨
      r.ledger.fence? = some (r.call c).1.ledger ∨
      (∃ as, r.ledger.stepBack? = some ((r.call c).1.ledger, as)) ∨
      ∃ as, r.ledger.stepForward? = some ((r.call c).1.ledger, as) := by
  cases c with
  | receive actions id => exact .inl (ledger_receive r actions id)
  | load es => exact .inl rfl
  | reject id => exact .inl (ledger_reject r id)
  | expirePing id => exact .inl (ledger_expirePing r id)
  | collect id => exact .inl (ledger_collect r id)
  | edit a =>
    simp only [call, ledger_edit]
    cases he : UndoEntry.ofAction? r.view a with
    | none => exact .inl rfl
    | some entry => exact .inr (.inl ⟨a, entry, he, rfl⟩)
  | fence =>
    simp only [call]
    cases hf : r.ledger.fence? with
    | none => exact .inl (by rw [fence_of_none hf])
    | some l => exact .inr (.inr (.inl (by rw [fence_of_some hf])))
  | undo =>
    simp only [call, undo]
    cases hb : r.ledger.stepBack? with
    | none => exact .inl rfl
    | some move => exact .inr (.inr (.inr (.inl ⟨move.2, by simp [step]⟩)))
  | redo =>
    simp only [call, redo]
    cases hf : r.ledger.stepForward? with
    | none => exact .inl rfl
    | some move => exact .inr (.inr (.inr (.inr ⟨move.2, by simp [step]⟩)))

theorem step_of_move (r : Replica) {move : Option (UndoLedger × List Action)} {l : UndoLedger}
    {as : List Action} (h : move = some (l, as)) :
    (r.step move).2 = true ∧ (r.step move).1.ledger = l ∧
      (r.step move).1.view = r.view.applyAll .optimistic as := by
  subst h
  exact ⟨rfl, ledger_pushAll _ as, view_pushAll _ as⟩

/-- What undoing a set does: the view takes its inverses, the latest first. -/
theorem undo_holds {r : Replica} {past future : List (List UndoEntry)}
    {set last : List UndoEntry} (h : r.ledger.Holds (past ++ [set]) future last) :
    r.undo.2 = true ∧ r.undo.1.ledger.limit = r.ledger.limit ∧
      r.undo.1.ledger.Holds past (set :: future) last ∧
      r.undo.1.view = r.view.applyAll .optimistic (set.reverse.map UndoEntry.inverse) := by
  obtain ⟨l, hback, hlimit, hl⟩ := h.stepBack
  obtain ⟨hdone, hledger, hview⟩ := r.step_of_move hback
  rw [undo, hledger]
  exact ⟨hdone, hlimit, hl, hview⟩

theorem redo_holds {r : Replica} {past future : List (List UndoEntry)}
    {set last : List UndoEntry} (h : r.ledger.Holds past (set :: future) last) :
    r.redo.2 = true ∧ r.redo.1.ledger.limit = r.ledger.limit ∧
      r.redo.1.ledger.Holds (past ++ [set]) future last ∧
      r.redo.1.view = r.view.applyAll .optimistic (set.map UndoEntry.forward) := by
  obtain ⟨l, hforward, hlimit, hl⟩ := h.stepForward
  obtain ⟨hdone, hledger, hview⟩ := r.step_of_move hforward
  rw [redo, hledger]
  exact ⟨hdone, hlimit, hl, hview⟩

/-- The ledger of a replica is well formed. -/
def LedgerHolds (r : Replica) : Prop := ∃ past future last, r.ledger.Holds past future last

theorem LedgerHolds.call {r : Replica} (h : r.LedgerHolds) (c : Call) :
    (r.call c).1.LedgerHolds := by
  obtain ⟨past, future, last, hl⟩ := h
  rcases ledger_call_cases r c with
    hsame | ⟨a, entry, -, hrecord⟩ | hfence | ⟨as, hback⟩ | ⟨as, hforward⟩
  · exact ⟨past, future, last, hsame ▸ hl⟩
  · exact ⟨past, [], _, hrecord ▸ hl.record entry⟩
  · by_cases hclosed : future ≠ [] ∨ last = []
    · rw [hl.fence_eq_none hclosed] at hfence
      cases hfence
    · rw [not_or, Decidable.not_not] at hclosed
      obtain ⟨rfl, hlast⟩ := hclosed
      obtain ⟨l, hfenced, -, hl'⟩ := hl.fence hlast
      obtain rfl := Option.some.inj (hfence.symm.trans hfenced)
      exact ⟨_, [], [], hl'⟩
  · rcases List.eq_nil_or_concat' past with rfl | ⟨past, set, rfl⟩
    · rw [hl.stepBack_eq_none] at hback
      cases hback
    · obtain ⟨l, hstep, -, hl'⟩ := hl.stepBack
      obtain ⟨rfl, -⟩ := Prod.mk.inj (Option.some.inj (hback.symm.trans hstep))
      exact ⟨past, set :: future, last, hl'⟩
  · cases future with
    | nil =>
      rw [hl.stepForward_eq_none] at hforward
      cases hforward
    | cons set future =>
      obtain ⟨l, hstep, -, hl'⟩ := hl.stepForward
      obtain ⟨rfl, -⟩ := Prod.mk.inj (Option.some.inj (hforward.symm.trans hstep))
      exact ⟨past ++ [set], future, last, hl'⟩

theorem Reachable.ledgerHolds {r : Replica} (h : r.Reachable) : r.LedgerHolds :=
  h.invariant (fun n => ⟨[], [], [], UndoLedger.holds_empty n⟩) fun _ c hr => hr.call c

structure Journal where
  sealedSets : List (List Recorded)
  openSet : List Recorded

namespace Journal

def empty : Journal := ⟨[], []⟩

/-- What a call adds to the journal of the calls before it. -/
def note (j : Journal) (r : Replica) : Call → Journal
  | .edit a => { j with openSet := j.openSet ++ Recorded.ofEdit r.view a }
  | .fence => if r.fence.2 then ⟨j.sealedSets ++ [j.openSet], []⟩ else j
  | _ => j

def noteAll (j : Journal) (r : Replica) : List Call → Journal
  | [] => j
  | c :: cs => (j.note r c).noteAll (r.call c).1 cs

def recorded (j : Journal) : List Recorded := j.sealedSets.flatten ++ j.openSet

def entrySets (j : Journal) : List (List UndoEntry) := j.sealedSets.map (·.map Recorded.entry)

end Journal

/-- Whether calls are fences and undoable edits of the view of their moment. -/
def areUndoable (r : Replica) : List Call → Bool
  | [] => true
  | .edit a :: cs => a.isUndoableOn r.view && (r.edit a).areUndoable cs
  | .fence :: cs => r.fence.1.areUndoable cs
  | _ :: _ => false

theorem rtake_rtake_concat {α : Type} (xs : List α) (x : α) (n : Nat) :
    (xs.rtake n ++ [x]).rtake n = (xs ++ [x]).rtake n := by
  cases n with
  | zero => simp
  | succ n =>
    rw [List.rtake_concat_succ, List.rtake_concat_succ]
    simp [List.rtake_eq_reverse_take_reverse, List.take_take]

/-- How a journal stands to the replica that the calls in it have reached: it leads from the first
view to the last one, and the ledger holds the newest of its sets on top of those before. -/
structure Journal.Describes (j : Journal) (start : Replica) (past : List (List UndoEntry))
    (r : Replica) : Prop where
  limit_eq : r.ledger.limit = start.ledger.limit
  leads : Leads start.view j.recorded r.view
  holds : r.ledger.Holds ((past ++ j.entrySets).rtake start.ledger.limit) []
    (j.openSet.map Recorded.entry)
  sealed_nonempty : ∀ set ∈ j.sealedSets, set ≠ []

namespace Journal.Describes

variable {j : Journal} {start r : Replica} {past : List (List UndoEntry)}

theorem start_empty (h : start.ledger.Holds past [] []) :
    Journal.empty.Describes start past start where
  limit_eq := rfl
  leads := rfl
  holds := by
    have hle : past.length - start.ledger.limit = 0 := by
      have hle := h.length_le
      rw [List.length_nil] at hle
      omega
    simpa [Journal.empty, Journal.entrySets, List.rtake, hle] using h
  sealed_nonempty := by simp [Journal.empty]

theorem edit (h : j.Describes start past r) {a : Action} (ha : a.isUndoableOn r.view = true) :
    (j.note r (.edit a)).Describes start past (r.edit a) where
  limit_eq := by
    rw [ledger_edit]
    cases UndoEntry.ofAction? r.view a <;> exact h.limit_eq
  leads := by
    rw [view_edit, Journal.recorded, Journal.note, ← List.append_assoc]
    exact h.leads.append (leads_ofEdit ha)
  holds := by
    have hmap := map_entry_ofEdit r.view a
    simp only [Journal.note, List.map_append, hmap, ledger_edit]
    cases UndoEntry.ofAction? r.view a with
    | none => simpa [Journal.entrySets] using h.holds
    | some entry => exact h.holds.record entry
  sealed_nonempty := h.sealed_nonempty

theorem fence (h : j.Describes start past r) :
    (j.note r .fence).Describes start past r.fence.1 ∧ (j.note r .fence).openSet = [] := by
  by_cases hopen : j.openSet = []
  · have hnone := h.holds.fence_eq_none (.inr (by rw [hopen, List.map_nil]))
    simp only [Journal.note, fence_of_none hnone, Bool.false_eq_true, if_false]
    exact ⟨h, hopen⟩
  · obtain ⟨l, hfence, hlimit, hl⟩ := h.holds.fence (by rwa [Ne, List.map_eq_nil_iff])
    simp only [Journal.note, fence_of_some hfence, if_true, and_true]
    refine ⟨hlimit.trans h.limit_eq, ?_, ?_, ?_⟩
    · simpa [Journal.recorded] using h.leads
    · rw [h.limit_eq, rtake_rtake_concat] at hl
      simpa [Journal.entrySets] using hl
    · intro set hset
      rcases List.mem_append.1 hset with hset | hset
      · exact h.sealed_nonempty set hset
      · rwa [List.mem_singleton.1 hset]

theorem noteAll (h : j.Describes start past r) {calls : List Call}
    (hcalls : r.areUndoable calls = true) :
    (j.noteAll r calls).Describes start past (r.run calls) := by
  induction calls generalizing j r with
  | nil => exact h
  | cons c cs ih =>
    cases c with
    | edit a =>
      rw [areUndoable, Bool.and_eq_true] at hcalls
      exact ih (h.edit hcalls.1) hcalls.2
    | fence => exact ih h.fence.1 hcalls
    | _ => cases hcalls

end Journal.Describes

theorem Journal.noteAll_append (j : Journal) (r : Replica) (cs ds : List Call) :
    j.noteAll r (cs ++ ds) = (j.noteAll r cs).noteAll (r.run cs) ds := by
  induction cs generalizing j r with
  | nil => rfl
  | cons c cs ih => exact ih _ _

theorem areUndoable_append (r : Replica) (cs ds : List Call) :
    r.areUndoable (cs ++ ds) = (r.areUndoable cs && (r.run cs).areUndoable ds) := by
  induction cs generalizing r with
  | nil => rfl
  | cons c cs ih =>
    cases c with
    | edit a => simp only [List.cons_append, areUndoable, ih, Bool.and_assoc]; rfl
    | fence => exact ih _
    | _ => rfl

def journal (r : Replica) (calls : List Call) : Journal := Journal.empty.noteAll r calls

/-- After undoable calls and a fence the ledger holds the newest of the sets that they sealed, and
none is open. -/
theorem describes_journal {r : Replica} {past : List (List UndoEntry)}
    (h : r.ledger.Holds past [] []) {calls : List Call}
    (hcalls : r.areUndoable (calls ++ [.fence]) = true) :
    (r.journal (calls ++ [.fence])).Describes r past (r.run (calls ++ [.fence])) ∧
      (r.journal (calls ++ [.fence])).openSet = [] := by
  rw [areUndoable_append, Bool.and_eq_true] at hcalls
  rw [journal, Journal.noteAll_append, run_append]
  exact ((Journal.Describes.start_empty h).noteAll hcalls.1).fence

end SharedBoard.Replica

import SharedBoard.Proofs.Undo.Ledger

/-! The history that the undo ledger keeps, as it is meant: the groups in force, the group that is
being made, and the groups that could be redone. The ledger writes it into one list with a cursor;
as long as groups are only undone when none is being made, every move of the one is that of the
other. -/
namespace SharedBoard

structure History where
  /-- The groups in force, the oldest first. -/
  past : List (List UndoEntry)
  /-- The group that is being made. -/
  opened : List UndoEntry
  /-- The groups that were undone, the next one to redo first. -/
  future : List (List UndoEntry)
  deriving DecidableEq

namespace History

def empty : History := ⟨[], [], []⟩

/-- An entry joins the open group, and there is nothing to redo any more. -/
def record (h : History) (entry : UndoEntry) : History :=
  { h with opened := h.opened ++ [entry], future := [] }

/-- Seals the open group, unless it is empty or there is something to redo. The newest groups are
kept, up to the limit. -/
def fence? (h : History) (limit : Nat) : Option History :=
  if h.opened = [] ∨ h.future ≠ [] then none
  else some { h with past := (h.past ++ [h.opened]).rtake limit, opened := [] }

/-- Undoes the newest group: its inverses, the latest entry first. -/
def undo? (h : History) : Option (History × List Action) :=
  h.past.getLast?.map fun group =>
    ({ h with past := h.past.dropLast, future := group :: h.future },
      group.reverse.map UndoEntry.inverse)

/-- Redoes the group undone last: its forwards, in the order in which they were recorded. -/
def redo? (h : History) : Option (History × List Action) :=
  h.future.head?.map fun group =>
    ({ h with past := h.past ++ [group], future := h.future.tail }, group.map UndoEntry.forward)

/-- What happens to a history. -/
inductive Event where
  | record (entry : UndoEntry)
  | fence
  | undo
  | redo
  deriving DecidableEq

/-- The history after an event, and the actions that the event yields; none when it does nothing.
Undoing seals the open group first. -/
def step (h : History) (limit : Nat) : Event → History × Option (List Action)
  | .record entry => (h.record entry, some [])
  | .fence => ((h.fence? limit).getD h, (h.fence? limit).map fun _ => [])
  | .undo =>
    let h := (h.fence? limit).getD h
    ((h.undo?.map Prod.fst).getD h, h.undo?.map Prod.snd)
  | .redo => ((h.redo?.map Prod.fst).getD h, h.redo?.map Prod.snd)

def run (h : History) (limit : Nat) (events : List Event) : History :=
  events.foldl (fun h e => (h.step limit e).1) h

@[simp] theorem run_nil (limit : Nat) (h : History) : h.run limit [] = h := rfl

@[simp] theorem run_cons (limit : Nat) (h : History) (e : Event) (es : List Event) :
    h.run limit (e :: es) = (h.step limit e).1.run limit es := rfl

theorem run_append (limit : Nat) (h : History) (es es' : List Event) :
    h.run limit (es ++ es') = (h.run limit es).run limit es' := List.foldl_append

/-- A history as a ledger writes it down. -/
def toLedger (h : History) (limit : Nat) : UndoLedger where
  sets := h.past ++ h.future ++ [h.opened]
  cursor := h.past.length
  limit := limit

structure WellFormed (h : History) (limit : Nat) : Prop where
  length_le : h.past.length + h.future.length ≤ limit
  limit_pos : 1 ≤ limit
  group_nonempty : ∀ group ∈ h.past ++ h.future, group ≠ []
  opened_eq_nil : h.future ≠ [] → h.opened = []

theorem wellFormed_empty {limit : Nat} (h : 1 ≤ limit) : empty.WellFormed limit where
  length_le := Nat.zero_le _
  limit_pos := h
  group_nonempty _ hgroup := nomatch hgroup
  opened_eq_nil _ := rfl

namespace WellFormed

variable {h : History} {limit : Nat}

theorem holds (hw : h.WellFormed limit) : (h.toLedger limit).Holds h.past h.future h.opened where
  sets_eq := List.append_assoc _ _ _
  cursor_eq := rfl
  length_le := hw.length_le
  limit_pos := hw.limit_pos

end WellFormed

theorem eq_toLedger {l : UndoLedger} {past future : List (List UndoEntry)}
    {opened : List UndoEntry} (hl : l.Holds past future opened) :
    l = toLedger ⟨past, opened, future⟩ l.limit := by
  obtain ⟨sets, cursor, limit⟩ := l
  have hsets := hl.sets_eq
  have hcursor := hl.cursor_eq
  simp only at hsets hcursor
  simp [toLedger, hsets, hcursor]

namespace WellFormed

variable {h : History} {limit : Nat} (hw : h.WellFormed limit)
include hw

theorem record (entry : UndoEntry) : (h.record entry).WellFormed limit where
  length_le := Nat.le_trans (Nat.le_add_right _ _) hw.length_le
  limit_pos := hw.limit_pos
  group_nonempty group hgroup := by
    apply hw.group_nonempty
    rw [History.record, List.append_nil] at hgroup
    exact List.mem_append_left _ hgroup
  opened_eq_nil hne := absurd rfl hne

theorem toLedger_record (entry : UndoEntry) :
    (h.toLedger limit).record entry = (h.record entry).toLedger limit := by
  have hopened : (if h.future = [] then h.opened else []) = h.opened := by
    split
    next => rfl
    next hne => exact (hw.opened_eq_nil hne).symm
  have hl := hw.holds.record entry
  rw [hopened] at hl
  exact eq_toLedger hl

theorem fence {h' : History} (hs : h.fence? limit = some h') :
    h'.WellFormed limit ∧ h'.opened = [] := by
  unfold History.fence? at hs
  split at hs
  next => cases hs
  next hopen =>
    rw [not_or, Decidable.not_not] at hopen
    cases hs
    refine ⟨⟨?_, hw.limit_pos, ?_, fun _ => rfl⟩, rfl⟩
    · simp only [hopen.2, List.length_nil, Nat.add_zero, List.rtake, List.length_drop]
      omega
    · intro group hgroup
      rw [hopen.2, List.append_nil] at hgroup
      rcases List.mem_append.1 (List.mem_of_mem_drop hgroup) with hpast | hlast
      · exact hw.group_nonempty group (List.mem_append_left _ hpast)
      · rw [List.mem_singleton.1 hlast]
        exact hopen.1

theorem toLedger_fence? :
    (h.toLedger limit).fence? = (h.fence? limit).map (toLedger · limit) := by
  unfold History.fence?
  split
  next hclosed => exact hw.holds.fence_eq_none hclosed.symm
  next hopen =>
    rw [not_or, Decidable.not_not] at hopen
    have hl := hw.holds
    rw [hopen.2] at hl
    obtain ⟨l, hfence, hlimit, hl⟩ := hl.fence hopen.1
    rw [hfence, Option.map_some, hopen.2, eq_toLedger hl, hlimit]
    rfl

theorem undo (hopened : h.opened = []) {h' : History} {as : List Action}
    (hu : h.undo? = some (h', as)) : h'.WellFormed limit := by
  obtain ⟨past, opened, future⟩ := h
  rcases List.eq_nil_or_concat past with rfl | ⟨past, group, rfl⟩
  · cases hu
  · rw [List.concat_eq_append] at hw hu
    simp only [undo?, List.getLast?_concat, List.dropLast_concat, Option.map_some,
      Option.some.injEq, Prod.mk.injEq] at hu
    obtain ⟨rfl, -⟩ := hu
    have hle := hw.length_le
    have hgroups := hw.group_nonempty
    simp only [List.length_append, List.length_singleton, List.append_assoc,
      List.singleton_append] at hle hgroups
    refine ⟨?_, hw.limit_pos, hgroups, fun _ => hopened⟩
    simp only [List.length_cons]
    omega

theorem toLedger_stepBack? :
    (h.toLedger limit).stepBack? = h.undo?.map fun x => (x.1.toLedger limit, x.2) := by
  obtain ⟨past, opened, future⟩ := h
  have hl := hw.holds
  rcases List.eq_nil_or_concat past with rfl | ⟨past, group, rfl⟩
  · exact hl.stepBack_eq_none
  · rw [List.concat_eq_append] at hl ⊢
    obtain ⟨l, hback, hlimit, hl'⟩ := hl.stepBack
    rw [hback, eq_toLedger hl', hlimit]
    simp [undo?, toLedger]

theorem redo {h' : History} {as : List Action} (hr : h.redo? = some (h', as)) :
    h'.WellFormed limit := by
  obtain ⟨past, opened, future⟩ := h
  cases future with
  | nil => cases hr
  | cons group future =>
    cases hr
    have hle := hw.length_le
    have hgroups := hw.group_nonempty
    simp only [List.length_cons] at hle
    refine ⟨?_, hw.limit_pos, ?_, fun _ => hw.opened_eq_nil (List.cons_ne_nil _ _)⟩
    · simp only [List.length_append, List.length_singleton, List.tail_cons]
      omega
    · simpa using hgroups

theorem toLedger_stepForward? :
    (h.toLedger limit).stepForward? = h.redo?.map fun x => (x.1.toLedger limit, x.2) := by
  obtain ⟨past, opened, future⟩ := h
  have hl := hw.holds
  cases future with
  | nil => exact hl.stepForward_eq_none
  | cons group future =>
    obtain ⟨l, hforward, hlimit, hl'⟩ := hl.stepForward
    rw [hforward, eq_toLedger hl', hlimit]
    rfl

/-- After a fence no group is being made, or there is something to redo, and then none is either. -/
theorem getD_fence? : ((h.fence? limit).getD h).WellFormed limit ∧
    ((h.fence? limit).getD h).opened = [] := by
  cases hf : h.fence? limit with
  | some h' => exact hw.fence hf
  | none =>
    refine ⟨hw, ?_⟩
    unfold History.fence? at hf
    split at hf
    next hclosed => exact hclosed.elim id hw.opened_eq_nil
    next => cases hf

theorem step (e : Event) : (h.step limit e).1.WellFormed limit := by
  cases e with
  | record entry => exact hw.record entry
  | fence => exact hw.getD_fence?.1
  | undo =>
    obtain ⟨hfenced, hopened⟩ := hw.getD_fence?
    simp only [History.step]
    cases hu : ((h.fence? limit).getD h).undo? with
    | none => exact hfenced
    | some x => exact hfenced.undo hopened hu
  | redo =>
    simp only [History.step]
    cases hr : h.redo? with
    | none => exact hw
    | some x => exact hw.redo hr

end WellFormed

end History

end SharedBoard

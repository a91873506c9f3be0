import Mathlib.Data.List.DropRight
import SharedBoard.UndoLedger

/-! The undo ledger as three lists: the sets in force, the sets undone, and the set that stands
last, which is the open one as long as nothing is undone. -/
namespace SharedBoard.UndoLedger

theorem appendToLast_concat (entry : UndoEntry) (sets : List (List UndoEntry))
    (last : List UndoEntry) : appendToLast entry (sets ++ [last]) = sets ++ [last ++ [entry]] := by
  induction sets with
  | nil => rfl
  | cons set sets ih => cases sets <;> simp_all [appendToLast]

structure Holds (l : UndoLedger) (past future : List (List UndoEntry)) (last : List UndoEntry) :
    Prop where
  sets_eq : l.sets = past ++ (future ++ [last])
  cursor_eq : l.cursor = past.length
  length_le : past.length + future.length ≤ l.limit
  limit_pos : 1 ≤ l.limit

theorem holds_empty (limit : Nat) : (empty limit).Holds [] [] [] where
  sets_eq := rfl
  cursor_eq := rfl
  length_le := Nat.zero_le _
  limit_pos := Nat.le_max_right limit 1

namespace Holds

variable {l : UndoLedger} {past future : List (List UndoEntry)} {last set : List UndoEntry}

theorem canRedo_iff (h : l.Holds past future last) : l.canRedo = true ↔ future ≠ [] := by
  have hlen : future ≠ [] ↔ 0 < future.length := List.length_pos_iff.symm
  rw [hlen, canRedo, h.sets_eq, h.cursor_eq, decide_eq_true_eq]
  simp only [List.length_append, List.length_singleton]
  omega

theorem canRedo_eq_false (h : l.Holds past [] last) : l.canRedo = false := by
  rw [← Bool.not_eq_true, h.canRedo_iff]
  exact fun hne => hne rfl

/-- An entry goes to the open set; after undoing, to a new one in place of all that was undone. -/
theorem record (h : l.Holds past future last) (entry : UndoEntry) :
    (l.record entry).Holds past [] ((if future = [] then last else []) ++ [entry]) := by
  have hsets : (if l.canRedo then l.sets.take l.cursor ++ [[]] else l.sets) =
      past ++ [if future = [] then last else []] := by
    by_cases hf : future = []
    · subst hf
      rw [h.canRedo_eq_false, h.sets_eq]
      simp
    · rw [if_pos (h.canRedo_iff.2 hf), if_neg hf, h.sets_eq, h.cursor_eq, List.take_left']
      rfl
  have hle := h.length_le
  exact {
    sets_eq := by
      simp only [UndoLedger.record]
      rw [hsets, appendToLast_concat]
      rfl
    cursor_eq := h.cursor_eq
    length_le := by
      simp only [UndoLedger.record, List.length_nil]
      omega
    limit_pos := h.limit_pos }

theorem fence_eq_none (h : l.Holds past future last) (hclosed : future ≠ [] ∨ last = []) :
    l.fence? = none := by
  rcases hclosed with hf | hl
  · simp [fence?, h.canRedo_iff.2 hf]
  · simp [fence?, h.sets_eq, hl]

/-- A fence seals the open set, and the newest sealed sets stay, up to the limit. -/
theorem fence (h : l.Holds past [] last) (hlast : last ≠ []) :
    ∃ l', l.fence? = some l' ∧ l'.limit = l.limit ∧
      l'.Holds ((past ++ [last]).rtake l.limit) [] [] := by
  have hopen : (l.canRedo || l.sets.getLast?.all List.isEmpty) = false := by
    simp [h.canRedo_eq_false, h.sets_eq, hlast]
  have hle := h.length_le
  have hpos := h.limit_pos
  rw [List.length_nil, Nat.add_zero] at hle
  rw [fence?, hopen, if_neg Bool.false_ne_true, h.sets_eq, h.cursor_eq, List.rtake]
  simp only [List.length_append, List.length_singleton]
  by_cases hfull : past.length + 1 > l.limit
  · have hone : past.length + 1 - l.limit = 1 := by omega
    rw [if_pos hfull, hone]
    refine ⟨_, rfl, rfl, ?_, ?_, ?_, hpos⟩
    · cases past <;> simp
    · simp
    · simpa using hle
  · have hzero : past.length + 1 - l.limit = 0 := by omega
    rw [if_neg hfull, hzero]
    refine ⟨_, rfl, rfl, ?_, ?_, ?_, hpos⟩
    · simp
    · simp
    · simp only [List.drop_zero, List.length_append, List.length_singleton, List.length_nil]
      omega

theorem stepBack (h : l.Holds (past ++ [set]) future last) :
    ∃ l', l.stepBack? = some (l', set.reverse.map UndoEntry.inverse) ∧ l'.limit = l.limit ∧
      l'.Holds past (set :: future) last := by
  have hcursor : l.cursor = past.length + 1 := by rw [h.cursor_eq]; simp
  have hget : l.sets[past.length]? = some set := by
    rw [h.sets_eq]
    simp
  have hle := h.length_le
  rw [List.length_append, List.length_singleton] at hle
  refine ⟨{ l with cursor := past.length }, ?_, rfl, ?_, rfl, ?_, h.limit_pos⟩
  · simp [stepBack?, canUndo, hget, hcursor]
  · simp [h.sets_eq]
  · simp only [List.length_cons]
    omega

theorem stepBack_eq_none (h : l.Holds [] future last) : l.stepBack? = none := by
  simp [stepBack?, canUndo, h.cursor_eq]

theorem stepForward (h : l.Holds past (set :: future) last) :
    ∃ l', l.stepForward? = some (l', set.map UndoEntry.forward) ∧ l'.limit = l.limit ∧
      l'.Holds (past ++ [set]) future last := by
  have hredo : l.canRedo = true := h.canRedo_iff.2 (List.cons_ne_nil _ _)
  have hget : l.sets[past.length]? = some set := by
    rw [h.sets_eq]
    simp
  have hle := h.length_le
  rw [List.length_cons] at hle
  refine ⟨{ l with cursor := past.length + 1 }, ?_, rfl, ?_, ?_, ?_, h.limit_pos⟩
  · simp [stepForward?, hredo, hget, h.cursor_eq]
  · simp [h.sets_eq]
  · simp
  · simp only [List.length_append, List.length_singleton]
    omega

theorem stepForward_eq_none (h : l.Holds past [] last) : l.stepForward? = none := by
  simp [stepForward?, h.canRedo_eq_false]

end Holds

end SharedBoard.UndoLedger

import SharedBoard.Proofs.Board.Effects
import SharedBoard.Proofs.Undo.Restored
import SharedBoard.UndoLedger

/-! Recorded edits, and the boards that they lead through. Taking back the edits of a run, the
latest first, goes through the same boards up to colours: an entity that is put back without a
colour takes over that of the one of its look that it replaces. -/
namespace SharedBoard

/-- The ledger takes no entry for a ping, and so neither undoing nor redoing creates one. -/
theorem UndoEntry.createdPing?_of_ofAction? {b : Board} {a : Action} {entry : UndoEntry}
    (h : ofAction? b a = some entry) :
    entry.inverse.createdPing? = none ∧ entry.forward.createdPing? = none := by
  have hput : ∀ e : Entity, ¬e.isPing = true → (Action.upsert e).createdPing? = none := by
    intro e he
    cases e with
    | ping p => exact absurd rfl he
    | _ => rfl
  cases a with
  | ping p => cases h
  | delete id =>
    cases he : b.get? id with
    | none => simp [ofAction?, he] at h
    | some e =>
      simp only [ofAction?, he] at h
      split at h
      next => cases h
      next hkind =>
        cases h
        exact ⟨hput e hkind, rfl⟩
  | upsert e =>
    simp only [ofAction?] at h
    split at h
    next => cases h
    next hkind =>
      split at h
      next old _ =>
        split at h
        next => cases h
        next hold =>
          cases h
          exact ⟨hput old hold, hput e hkind⟩
      next =>
        cases h
        exact ⟨rfl, hput e hkind⟩

/-- An edit that the ledger took, as an entry, with the view before it. -/
structure Recorded where
  before : Board
  action : Action
  entry : UndoEntry
  ofAction?_eq : UndoEntry.ofAction? before action = some entry

def Recorded.ofEdit (before : Board) (action : Action) : List Recorded :=
  match h : UndoEntry.ofAction? before action with
  | some entry => [⟨before, action, entry, h⟩]
  | none => []

/-- Whether an action is one that the ledger is for: it puts no ping on the board, and no ping
stands under its id. -/
def Action.isUndoableOn (a : Action) (b : Board) : Bool :=
  a.createdPing?.isNone && (b.get? a.target).all (!·.isPing)

/-- Recorded edits that lead from one view to another, each taken where the one before ended. -/
def Leads : Board → List Recorded → Board → Prop
  | b, [], b' => b = b'
  | b, x :: xs, b' => x.before = b ∧ Leads (b.apply .optimistic x.action) xs b'

theorem Leads.append {b b' b'' : Board} {xs ys : List Recorded} (h : Leads b xs b')
    (h' : Leads b' ys b'') : Leads b (xs ++ ys) b'' := by
  induction xs generalizing b with
  | nil =>
    obtain rfl : b = b' := h
    exact h'
  | cons x xs ih => exact ⟨h.1, ih h.2⟩

theorem Leads.split {b b'' : Board} {xs ys : List Recorded} (h : Leads b (xs ++ ys) b'') :
    ∃ b', Leads b xs b' ∧ Leads b' ys b'' := by
  induction xs generalizing b with
  | nil => exact ⟨b, rfl, h⟩
  | cons x xs ih =>
    obtain ⟨b', hxs, hys⟩ := ih h.2
    exact ⟨b', ⟨h.1, hxs⟩, hys⟩

/-- Without an entry an undoable edit deletes nothing, and so leaves the view alone. -/
theorem apply_of_no_entry {b : Board} {a : Action} (hundoable : a.isUndoableOn b = true)
    (hnone : UndoEntry.ofAction? b a = none) (s : Standing) : b.apply s a = b := by
  simp only [Action.isUndoableOn, Bool.and_eq_true, Option.isNone_iff_eq_none,
    Option.all_eq_true] at hundoable
  obtain ⟨hcreated, hping⟩ := hundoable
  cases a with
  | ping p => simp [Action.createdPing?] at hcreated
  | delete id =>
    cases he : b.get? id with
    | none => simp [Board.delete_eq, he]
    | some e =>
      have hno := hping e he
      simp_all [UndoEntry.ofAction?]
  | upsert e =>
    have hkind : e.isPing = false := by cases e <;> simp_all [Action.createdPing?, Entity.isPing]
    cases he : b.get? e.id with
    | none => simp [UndoEntry.ofAction?, hkind, he] at hnone
    | some old =>
      have hno := hping old he
      simp_all [UndoEntry.ofAction?]

theorem leads_ofEdit {b : Board} {a : Action} (hundoable : a.isUndoableOn b = true) :
    Leads b (Recorded.ofEdit b a) (b.apply .optimistic a) := by
  unfold Recorded.ofEdit
  split
  next => exact ⟨rfl, rfl⟩
  next hnone => exact (apply_of_no_entry hundoable hnone .optimistic).symm

theorem map_entry_ofEdit (b : Board) (a : Action) :
    (Recorded.ofEdit b a).map Recorded.entry = (UndoEntry.ofAction? b a).toList := by
  unfold Recorded.ofEdit
  split
  next entry h => simp [h]
  next h => simp [h]

theorem Leads.indexed {b b' : Board} {xs : List Recorded} (h : Leads b xs b') (hb : b.Indexed) :
    b'.Indexed := by
  induction xs generalizing b with
  | nil =>
    obtain rfl : b = b' := h
    exact hb
  | cons x xs ih => exact ih h.2 (hb.apply .optimistic x.action)

/-- What the inverse of an entry does: an id that was free is freed, and what stood under an id is
put back. -/
theorem Recorded.inverse_cases (x : Recorded) :
    (x.before.get? x.action.target = none ∧ x.entry.inverse = .delete x.action.target) ∨
      ∃ old, x.before.get? x.action.target = some old ∧ x.entry.inverse = .upsert old := by
  obtain ⟨b, a, entry, h⟩ := x
  simp only [Action.target]
  cases a with
  | ping p => cases h
  | delete id =>
    cases he : b.get? id with
    | none => simp [UndoEntry.ofAction?, he] at h
    | some e =>
      simp only [UndoEntry.ofAction?, he] at h
      split at h
      · cases h
      · cases h
        exact .inr ⟨e, rfl, rfl⟩
  | upsert e =>
    simp only [UndoEntry.ofAction?] at h
    split at h
    · cases h
    · cases he : b.get? e.id with
      | none =>
        simp only [he] at h
        cases h
        exact .inl ⟨rfl, rfl⟩
      | some old =>
        simp only [he] at h
        split at h
        · cases h
        · cases h
          exact .inr ⟨old, rfl, rfl⟩

namespace Board

/-- What gained colours is what it was, with the colours that it has now. -/
theorem GainsColors.get?_eq_map {b d : Board} (h : b.GainsColors d) (id : EntityId) :
    d.get? id = (b.get? id).map (·.inheritColor (d.get? id)) := by
  cases he : b.get? id with
  | none =>
    have hbare := h.bare_eq id
    simp only [bare?, he, Option.map_none, Option.map_eq_none_iff] at hbare
    rw [hbare, Option.map_none]
  | some e =>
    obtain ⟨e', he', hbare, hkept⟩ := h.get?_kept he
    have hlook : e'.fingerprint? = e.fingerprint? := Entity.fingerprint?_eq_of_bare hbare
    rw [he', Option.map_some]
    apply congrArg some
    apply Entity.ext_bare
    · rw [Entity.bare_inheritColor, hbare]
    · rw [Entity.color?_inheritColor, Option.bind_some, if_pos hlook]
      cases hc : e.color? with
      | none => rfl
      | some color => exact hkept color hc

theorem gainsColors_of_get?_eq_map {b d : Board}
    (h : ∀ id, ∃ prev, d.get? id = (b.get? id).map (·.inheritColor prev)) : b.GainsColors d where
  bare_eq id := by
    obtain ⟨prev, hmap⟩ := h id
    rw [bare?, hmap, Option.map_map, bare?]
    congr 1
    funext e
    exact Entity.bare_inheritColor e _
  color_kept id color hc := by
    obtain ⟨prev, hmap⟩ := h id
    obtain ⟨e, he, hec⟩ := color?_eq_some_iff.1 hc
    rw [color?, hmap, he, Option.map_some, Option.bind_some, Entity.color?_inheritColor, hec]
    rfl

/-- The place that an entity left to others is still its own when only later edits of its id and
colours came between. -/
theorem GainsColors.hasRoomFor_old {b d : Board} {a : Action} {old : Entity} (hb : b.Indexed)
    (hd : d.Indexed) (h : (b.apply .optimistic a).GainsColors d)
    (hold : b.get? a.target = some old) : d.hasRoomFor old = true := by
  rw [hasRoomFor_iff]
  intro p hp i hi
  have hplace : (b.apply .optimistic a).place? i = some p := by
    rw [← h.place?_eq]
    exact hd.occupant_iff.1 hi
  rw [hb.keyed hold]
  by_cases hia : i = a.target
  · exact hia
  · rw [place?, get?_apply_of_ne b a hia] at hplace
    exact hb.place_inj hplace ((place?_eq_of_get? hold).trans hp)

end Board

/-- Taking back one edit: every id holds what it held before, with the colour of the one of its look
that stood there last. -/
theorem Recorded.get?_takeBack {x : Recorded} {d : Board} (hb : x.before.Indexed) (hd : d.Indexed)
    (h : (x.before.apply .optimistic x.action).GainsColors d) (id : EntityId) :
    (d.apply .optimistic x.entry.inverse).get? id =
      (x.before.get? id).map (·.inheritColor (d.get? id)) := by
  have hother : id ≠ x.action.target →
      d.get? id = (x.before.get? id).map (·.inheritColor (d.get? id)) := by
    intro hne
    have hmap := h.get?_eq_map id
    rwa [Board.get?_apply_of_ne _ _ hne] at hmap
  rcases x.inverse_cases with ⟨hnone, hinv⟩ | ⟨old, hold, hinv⟩
  · rw [hinv, Board.apply_delete, Board.get?_delete]
    split
    next hid => rw [hid, hnone, Option.map_none]
    next hid => exact hother hid
  · have hroom := h.hasRoomFor_old hb hd hold
    have hkey := hb.keyed hold
    rw [hinv, Board.apply_upsert, Board.upsert_eq, if_pos hroom, Board.get?_replace_optimistic, hkey]
    split
    next hid => rw [hid, hold, Option.map_some]
    next hid => exact hother hid

/-- The actions that take recorded edits back, the latest first. -/
def takeBack (xs : List Recorded) : List Action :=
  (xs.map Recorded.entry).reverse.map UndoEntry.inverse

theorem takeBack_cons (x : Recorded) (xs : List Recorded) :
    takeBack (x :: xs) = takeBack xs ++ [x.entry.inverse] := by simp [takeBack]

/-- The boards that recorded edits lead through, the last one included. -/
def boardsOf (xs : List Recorded) (last : Board) : List Board := xs.map Recorded.before ++ [last]

theorem Leads.boardsOf_eq {b b' : Board} {xs : List Recorded} (h : Leads b xs b') :
    ∃ later, boardsOf xs b' = b :: later := by
  cases xs with
  | nil =>
    obtain rfl : b = b' := h
    exact ⟨[], rfl⟩
  | cons x xs =>
    obtain ⟨rfl, -⟩ := h
    exact ⟨boardsOf xs b', rfl⟩

theorem Leads.takeBack {b b' : Board} {xs : List Recorded} (h : Leads b xs b') (hb : b.Indexed) :
    b.GainsColors (b'.applyAll .optimistic (takeBack xs)) ∧
      ∀ id, (b'.applyAll .optimistic (takeBack xs)).get? id =
        restored ((boardsOf xs b').map (·.get? id)) := by
  induction xs generalizing b with
  | nil =>
    obtain rfl : b = b' := h
    refine ⟨.refl b, ?_⟩
    intro id
    cases he : b.get? id <;> simp [boardsOf, restored, SharedBoard.takeBack, he]
  | cons x xs ih =>
    obtain ⟨rfl, hleads⟩ := h
    have hnext : (x.before.apply .optimistic x.action).Indexed := hb.apply .optimistic x.action
    have hlater := ih hleads hnext
    have hd := (hleads.indexed hnext).applyAll .optimistic (SharedBoard.takeBack xs)
    have hmap := Recorded.get?_takeBack hb hd hlater.1
    rw [takeBack_cons, Board.applyAll_append]
    refine ⟨Board.gainsColors_of_get?_eq_map fun id => ⟨_, hmap id⟩, ?_⟩
    intro id
    exact (hmap id).trans (by rw [hlater.2 id]; rfl)

end SharedBoard

import SharedBoard.Proofs.Undo.Recorded

/-! Edits that were taken back, taken again. The boards on the way may differ from those of the first
time by colours that undoing left behind, but the last one is the same: under every id there stands
either what stood there then, or what restoring had made of that, and at the end the two agree. -/
namespace SharedBoard

/-- The forward of an entry is the action that was recorded. -/
theorem Recorded.forward_eq {x : Recorded} (hb : x.before.Indexed) : x.entry.forward = x.action := by
  obtain ⟨b, a, entry, h⟩ := x
  cases a with
  | ping p => cases h
  | delete id =>
    cases he : b.get? id with
    | none => simp [UndoEntry.ofAction?, he] at h
    | some e =>
      have hid : e.id = id := hb.keyed he
      simp only [UndoEntry.ofAction?, he] at h
      split at h
      · cases h
      · cases h
        exact congrArg Action.delete hid
  | upsert e =>
    simp only [UndoEntry.ofAction?] at h
    split at h
    · cases h
    split at h
    · split at h
      · cases h
      · cases h
        rfl
    · cases h
      rfl

/-- The actions that take recorded edits again, in the order in which they were recorded. -/
def takeAgain (xs : List Recorded) : List Action := (xs.map Recorded.entry).map UndoEntry.forward

/-- A board on the way from `b` to `b'` after the edits that lead there were taken back: each id
holds what it held on that way, or what is left of it when the later edits are taken back. -/
def OnWay (b : Board) (xs : List Recorded) (b' d : Board) : Prop :=
  ∀ id, d.get? id = b.get? id ∨ d.get? id = restored ((boardsOf xs b').map (·.get? id))

namespace OnWay

variable {b b' d : Board} {x : Recorded} {xs : List Recorded}

theorem gainsColors (h : OnWay b xs b' d) (hleads : Leads b xs b') : b.GainsColors d := by
  obtain ⟨later, hboards⟩ := hleads.boardsOf_eq
  apply Board.gainsColors_of_get?_eq_map
  intro id
  rcases h id with hsame | hrestored
  · exact ⟨none, by simp [hsame]⟩
  · refine ⟨restored (later.map (·.get? id)), ?_⟩
    rw [hrestored, hboards, List.map_cons, restored]

/-- One edit taken again. Where it is held back, or does not reach, what stands there stays, on the
first way as on this one. -/
theorem apply (h : OnWay b (x :: xs) b' d) (hleads : Leads b (x :: xs) b') (hb : b.Indexed)
    (hd : d.Indexed) :
    OnWay (b.apply .optimistic x.action) xs b' (d.apply .optimistic x.action) := by
  obtain ⟨later, hboards⟩ := hleads.2.boardsOf_eq
  have hadmits := (h.gainsColors hleads).admits_eq hb hd x.action
  intro id
  have hid := h id
  rw [boardsOf, List.map_cons, List.cons_append, ← boardsOf, hboards, List.map_cons, List.map_cons,
    hleads.1, Board.get?_apply] at hid
  rw [hboards, List.map_cons, Board.get?_apply, Board.get?_apply, hadmits]
  split at hid
  next hin =>
    rw [if_pos hin, if_pos hin]
    cases hp : x.action.payload? with
    | none => exact .inl rfl
    | some p =>
      simp only [hp, Option.map_some] at hid ⊢
      rcases hid with hsame | hrestored
      · exact .inl (by rw [hsame])
      · rw [hrestored]
        exact inheritColor_restored _ _ _
  next hout =>
    rw [if_neg hout, if_neg hout]
    rwa [restored_repeat] at hid

theorem get?_takeAgain (h : OnWay b xs b' d) (hleads : Leads b xs b') (hb : b.Indexed)
    (hd : d.Indexed) (id : EntityId) :
    (d.applyAll .optimistic (takeAgain xs)).get? id = b'.get? id := by
  induction xs generalizing b d with
  | nil =>
    obtain rfl : b = b' := hleads
    rcases h id with hsame | hrestored
    · exact hsame
    · refine hrestored.trans ?_
      cases he : b.get? id <;> simp [boardsOf, restored, he]
  | cons x xs ih =>
    have hforward : x.entry.forward = x.action := Recorded.forward_eq (hleads.1 ▸ hb)
    rw [takeAgain, List.map_cons, List.map_cons, Board.applyAll_cons, hforward]
    exact ih (h.apply hleads hb hd) hleads.2 (hb.apply .optimistic x.action)
      (hd.apply .optimistic x.action)

end OnWay

/-- Taking back all edits of a way and taking them again leads to its end. -/
theorem Leads.takeBack_takeAgain {b b' : Board} {xs : List Recorded} (h : Leads b xs b')
    (hb : b.Indexed) (id : EntityId) :
    ((b'.applyAll .optimistic (SharedBoard.takeBack xs)).applyAll .optimistic
      (takeAgain xs)).get? id = b'.get? id := by
  have hback : OnWay b xs b' (b'.applyAll .optimistic (SharedBoard.takeBack xs)) :=
    fun id => .inr ((h.takeBack hb).2 id)
  exact hback.get?_takeAgain h hb ((h.indexed hb).applyAll .optimistic _) id

end SharedBoard

import SharedBoard.Proofs.Board.Recoloring

/-! What an action does under each id. It changes nothing but what stands under its target, and
there it leaves its payload, unless the position of that is another's. -/
namespace SharedBoard

namespace Action

/-- What an action leaves under its target; a delete leaves nothing. -/
def payload? : Action → Option Entity
  | upsert e => some e
  | delete _ => none
  | ping p => some (.ping p)

/-- The position that an action fills. -/
def position? (a : Action) : Option Position := a.payload?.bind Entity.position?

theorem id_of_payload? {a : Action} {e : Entity} (h : a.payload? = some e) : e.id = a.target := by
  cases a with
  | upsert d =>
    cases h
    rfl
  | delete id => cases h
  | ping p =>
    cases h
    rfl

end Action

namespace Board

variable {b : Board}

theorem apply_eq (b : Board) (s : Standing) (a : Action) :
    b.apply s a = a.payload?.elim (b.delete a.target) (b.upsert s) := by cases a <;> rfl

/-- Whether a board lets an action have its way: it holds back only what has no room. -/
def admits (b : Board) (a : Action) : Bool := a.payload?.all b.hasRoomFor

/-- An action is held back by another entity at its position. -/
theorem Indexed.admits_iff (h : b.Indexed) (a : Action) :
    b.admits a = true ↔ ∀ p, a.position? = some p → ∀ id, b.place? id = some p → id = a.target := by
  rw [admits, Action.position?]
  cases hp : a.payload? with
  | none => simp
  | some e => simp [hasRoomFor_iff, h.occupant_iff, Action.id_of_payload? hp]

theorem GainsColors.admits_eq {b' : Board} (h : b.GainsColors b') (hb : b.Indexed)
    (hb' : b'.Indexed) (a : Action) : b'.admits a = b.admits a := by
  rw [admits, admits, funext (h.hasRoomFor_eq hb hb')]

theorem apply_of_not_admits {a : Action} (h : b.admits a = false) (s : Standing) :
    b.apply s a = b := by
  rw [admits] at h
  rw [apply_eq]
  cases hp : a.payload? with
  | none => simp [hp] at h
  | some e =>
    rw [hp, Option.all_some] at h
    rw [Option.elim_some, upsert_eq, h, if_neg Bool.false_ne_true]

theorem get?_apply (b : Board) (a : Action) (k : EntityId) :
    (b.apply .optimistic a).get? k =
      if k = a.target ∧ b.admits a = true then a.payload?.map (·.inheritColor (b.get? k))
      else b.get? k := by
  cases hadmits : b.admits a with
  | false => simp [apply_of_not_admits hadmits]
  | true =>
    simp only [and_true]
    rw [admits] at hadmits
    rw [apply_eq]
    cases hp : a.payload? with
    | none => rw [Option.elim_none, get?_delete, Option.map_none]
    | some e =>
      rw [hp, Option.all_some] at hadmits
      have hid := Action.id_of_payload? hp
      rw [Option.elim_some, upsert_eq, if_pos hadmits, get?_replace_optimistic, hid, Option.map_some]
      split
      next hk => rw [hk]
      next => rfl

theorem get?_apply_of_ne (b : Board) (a : Action) {k : EntityId} (hk : k ≠ a.target) :
    (b.apply .optimistic a).get? k = b.get? k := by
  rw [get?_apply, if_neg]
  exact fun h => hk h.1

/-- Confirming an action does what guessing it does, and hands out colours. -/
theorem gainsColors_apply (b : Board) (s : Standing) (a : Action) :
    (b.apply .optimistic a).GainsColors (b.apply s a) := by
  rw [apply_eq, apply_eq]
  cases a.payload? with
  | none => exact .refl _
  | some e =>
    rw [Option.elim_some, Option.elim_some, upsert_eq, upsert_eq]
    split
    · exact gainsColors_replace b s e
    · exact .refl _

theorem bare?_apply (b : Board) (s : Standing) (a : Action) (k : EntityId) :
    (b.apply s a).bare? k =
      if k = a.target ∧ b.admits a = true then a.payload?.map Entity.bare else b.bare? k := by
  rw [(gainsColors_apply b s a).bare_eq, bare?, get?_apply]
  split
  · cases a.payload? <;> simp
  · rfl

theorem place?_eq_bare? (b : Board) (k : EntityId) :
    b.place? k = (b.bare? k).bind Entity.position? := by
  rw [place?, bare?, Option.bind_map]
  exact congrArg _ (funext fun e => e.position?_bare.symm)

theorem place?_apply (b : Board) (s : Standing) (a : Action) (k : EntityId) :
    (b.apply s a).place? k =
      if k = a.target ∧ b.admits a = true then a.position? else b.place? k := by
  rw [place?_eq_bare?, bare?_apply, place?_eq_bare?, Action.position?]
  split
  · cases a.payload? <;> simp
  · rfl

end Board

end SharedBoard

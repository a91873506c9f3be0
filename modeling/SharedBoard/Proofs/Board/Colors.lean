import SharedBoard.Board.Query
import SharedBoard.Board.Upsert

/-! Entities up to their colours. `GainsColors` relates a board to one that holds the same entities
and every colour of the first, and perhaps further colours; handing colours out is such a change. -/
namespace SharedBoard

namespace Entity

/-- An entity without its colour. -/
def bare : Entity → Entity
  | character c => character { c with color := none }
  | e => e

@[simp] theorem id_bare (e : Entity) : e.bare.id = e.id := by cases e <;> rfl

@[simp] theorem position?_bare (e : Entity) : e.bare.position? = e.position? := by cases e <;> rfl

@[simp] theorem fingerprint?_bare (e : Entity) : e.bare.fingerprint? = e.fingerprint? := by
  cases e <;> rfl

theorem fingerprint?_eq_of_bare {e e' : Entity} (h : e.bare = e'.bare) :
    e.fingerprint? = e'.fingerprint? := by
  rw [← fingerprint?_bare, h, fingerprint?_bare]

/-- An entity is its bare form and its colour. -/
theorem ext_bare {e e' : Entity} (hb : e.bare = e'.bare) (hc : e.color? = e'.color?) : e = e' := by
  rcases e with ⟨_, _, _, _⟩ | _ | _ <;> rcases e' with ⟨_, _, _, _⟩ | _ | _ <;>
    simp_all [bare, color?, character?]

@[simp] theorem bare_inheritColor (e : Entity) (prev : Option Entity) :
    (e.inheritColor prev).bare = e.bare := by
  unfold inheritColor
  split
  · split <;> rfl
  · rfl

@[simp] theorem inheritColor_none (e : Entity) : e.inheritColor none = e := by cases e <;> rfl

end Entity

namespace Board

/-- What stands under an id, without its colour. -/
def bare? (b : Board) (id : EntityId) : Option Entity := (b.get? id).map Entity.bare

/-- The colour of what stands under an id. -/
def color? (b : Board) (id : EntityId) : Option String := (b.get? id).bind Entity.color?

/-- What stands under an id is its bare form and its colour. -/
theorem get?_eq_of_bare?_eq {b b' : Board} {id : EntityId} (hbare : b.bare? id = b'.bare? id)
    (hcolor : b.color? id = b'.color? id) : b.get? id = b'.get? id := by
  simp only [bare?, color?] at hbare hcolor
  cases he : b.get? id with
  | none =>
    rw [he, Option.map_none, eq_comm, Option.map_eq_none_iff] at hbare
    exact hbare.symm
  | some e =>
    rw [he, Option.map_some, eq_comm, Option.map_eq_some_iff] at hbare
    obtain ⟨e', he', hee⟩ := hbare
    rw [he, he', Option.bind_some, Option.bind_some] at hcolor
    rw [he', Entity.ext_bare hee.symm hcolor]

theorem sameEntities_iff (a b : Board) :
    a.sameEntities b = true ↔ ∀ id, a.get? id = b.get? id := by
  rw [sameEntities, beq_iff_eq]
  constructor
  · intro h id
    rw [get?, h]
    rfl
  · intro h
    exact SortedMap.ext h

/-- The second board holds the entities of the first, in their colours; what had no colour may
have got one. -/
structure GainsColors (b b' : Board) : Prop where
  bare_eq : ∀ id, b'.bare? id = b.bare? id
  color_kept : ∀ id color, b.color? id = some color → b'.color? id = some color

theorem GainsColors.refl (b : Board) : b.GainsColors b := ⟨fun _ => rfl, fun _ _ h => h⟩

theorem gainsColors_of_get?_eq {b b' : Board} (h : ∀ id, b.get? id = b'.get? id) :
    b.GainsColors b' where
  bare_eq id := by rw [bare?, bare?, h]
  color_kept id color hc := by rwa [color?, ← h]

/-- Boards that gain no colour from each other hold the same. -/
theorem GainsColors.antisymm {b b' : Board} (h : b.GainsColors b') (h' : b'.GainsColors b)
    (id : EntityId) : b.get? id = b'.get? id := by
  apply get?_eq_of_bare?_eq (h.bare_eq id).symm
  apply Option.ext
  intro color
  exact ⟨h.color_kept id color, h'.color_kept id color⟩

theorem GainsColors.trans {a b c : Board} (hab : a.GainsColors b) (hbc : b.GainsColors c) :
    a.GainsColors c where
  bare_eq id := (hbc.bare_eq id).trans (hab.bare_eq id)
  color_kept id color h := hbc.color_kept id color (hab.color_kept id color h)

/-- Giving a character a colour changes nothing else, and takes no colour when it had none. -/
theorem gainsColors_insert (b : Board) {id : EntityId} {c : Character}
    (h : b.get? id = some (.character c)) (hc : c.color = none) (color : Option String) :
    b.GainsColors { b with entities := b.entities.insert id (.character { c with color }) } where
  bare_eq k := by
    simp only [bare?, get?, SortedMap.find?_insert]
    split
    next hk =>
      subst hk
      simp only [get?] at h
      simp [h, Entity.bare]
    next => rfl
  color_kept k color' hk := by
    simp only [color?, get?, SortedMap.find?_insert] at hk ⊢
    split
    next he =>
      subst he
      simp only [get?] at h
      simp [h, Entity.color?, Entity.character?, hc] at hk
    next => exact hk

/-- Handing out colours along a group only adds colours. -/
theorem gainsColors_handOut (ids : List EntityId) (colors : List String) (b : Board) :
    b.GainsColors { b with entities := handOut ids colors b.entities } := by
  induction ids generalizing colors b with
  | nil => exact .refl b
  | cons id ids ih =>
    cases colors with
    | nil => exact .refl b
    | cons color colors =>
      simp only [handOut]
      split
      next c hc =>
        split
        next => exact ih (color :: colors) b
        next hcolor =>
          have hnone : c.color = none := by simpa using hcolor
          exact (gainsColors_insert b hc hnone color).trans (ih colors _)
      next => exact ih (color :: colors) b

theorem gainsColors_colorGroup (b : Board) (f : String) : b.GainsColors (b.colorGroup f) := by
  unfold colorGroup
  split
  · exact gainsColors_handOut _ _ b
  · exact .refl b

@[simp] theorem occupants_colorGroup (b : Board) (f : String) :
    (b.colorGroup f).occupants = b.occupants := by unfold colorGroup; split <;> rfl

@[simp] theorem groups_colorGroup (b : Board) (f : String) :
    (b.colorGroup f).groups = b.groups := by unfold colorGroup; split <;> rfl

end Board

end SharedBoard

import SharedBoard.Proofs.Board.Indexed

/-! Boards that differ by gained colours stay so under every action, whether the second board takes
it as a guess or as confirmed: room depends on positions alone, and what one board inherits the
other inherits too. -/
namespace SharedBoard

/-- A colour comes with the entity, or else from a predecessor of the same look. -/
theorem Entity.color?_inheritColor (e : Entity) (prev : Option Entity) :
    (e.inheritColor prev).color? =
      e.color?.or
        (prev.bind fun p => if p.fingerprint? = e.fingerprint? then p.color? else none) := by
  cases e with
  | character next =>
    rcases prev with _ | prev | _ | _
    · simp [inheritColor, color?, character?]
    · cases hcolor : next.color with
      | none =>
        by_cases hc : next.contents = prev.contents
        · simp [inheritColor, color?, character?, fingerprint?, hcolor, hc]
        · have hf : prev.contents.fingerprint ≠ next.contents.fingerprint := by
            rw [Ne, Contents.fingerprint_inj]
            exact Ne.symm hc
          simp [inheritColor, color?, character?, fingerprint?, hcolor, hc, hf]
      | some color => simp [inheritColor, color?, character?, hcolor]
    · simp [inheritColor, color?, character?]
    · simp [inheritColor, color?, character?]
  | floor _ =>
    rcases prev with _ | _ | _ | _ <;> simp [inheritColor, color?, character?, fingerprint?]
  | ping _ =>
    rcases prev with _ | _ | _ | _ <;> simp [inheritColor, color?, character?, fingerprint?]

/-- An entity with a colour of its own inherits none. -/
theorem Entity.inheritColor_of_color? {e : Entity} {color : String} (h : e.color? = some color)
    (prev : Option Entity) : e.inheritColor prev = e := by
  apply ext_bare (bare_inheritColor e prev)
  rw [color?_inheritColor, h, Option.some_or]

/-- Nothing is inherited from an entity of another look. -/
theorem Entity.inheritColor_of_look_ne {e prev : Entity} (h : prev.fingerprint? ≠ e.fingerprint?) :
    e.inheritColor (some prev) = e := by
  apply ext_bare (bare_inheritColor e _)
  rw [color?_inheritColor, Option.bind_some, if_neg h, Option.or_none]

namespace Board

theorem get?_replace_optimistic (b : Board) (e : Entity) (k : EntityId) :
    (b.replace .optimistic e).get? k =
      if k = e.id then some (e.inheritColor (b.get? e.id)) else b.get? k := by
  rw [replace_optimistic, get?_link, Entity.id_inheritColor, get?_delete]
  split <;> simp_all

theorem color?_eq_some_iff {b : Board} {id : EntityId} {color : String} :
    b.color? id = some color ↔ ∃ e, b.get? id = some e ∧ e.color? = some color :=
  Option.bind_eq_some_iff

namespace GainsColors

variable {b b' : Board}

theorem occupants_eq (h : b.GainsColors b') (hb : b.Indexed) (hb' : b'.Indexed) :
    b'.occupants = b.occupants := by
  apply SortedMap.ext
  intro p
  apply Option.ext
  intro id
  rw [hb.occupant_iff, hb'.occupant_iff, h.place?_eq]

theorem hasRoomFor_eq (h : b.GainsColors b') (hb : b.Indexed) (hb' : b'.Indexed) (e : Entity) :
    b'.hasRoomFor e = b.hasRoomFor e := by
  rw [hasRoomFor, hasRoomFor, h.occupants_eq hb hb']

theorem get?_kept (h : b.GainsColors b') {id : EntityId} {e : Entity} (he : b.get? id = some e) :
    ∃ e', b'.get? id = some e' ∧ e'.bare = e.bare ∧
      ∀ color, e.color? = some color → e'.color? = some color := by
  have hbare := h.bare_eq id
  rw [bare?, bare?, he, Option.map_some, Option.map_eq_some_iff] at hbare
  obtain ⟨e', he', hee⟩ := hbare
  refine ⟨e', he', hee, ?_⟩
  intro color hc
  have hkept := h.color_kept id color (color?_eq_some_iff.2 ⟨e, he, hc⟩)
  simpa [color?, he'] using hkept

theorem inheritColor (h : b.GainsColors b') (e : Entity) {color : String}
    (hc : (e.inheritColor (b.get? e.id)).color? = some color) :
    (e.inheritColor (b'.get? e.id)).color? = some color := by
  rw [Entity.color?_inheritColor] at hc ⊢
  rcases Option.or_eq_some_iff.1 hc with hown | ⟨hnone, hprev⟩
  · rw [hown]
    rfl
  · obtain ⟨p, hp, hpc⟩ := Option.bind_eq_some_iff.1 hprev
    obtain ⟨p', hp', hbare, hkept⟩ := h.get?_kept hp
    have hlook : p'.fingerprint? = p.fingerprint? := Entity.fingerprint?_eq_of_bare hbare
    split at hpc
    next hsame => simp [hnone, hp', hlook, hsame, hkept color hpc]
    next => cases hpc

theorem delete (h : b.GainsColors b') (id : EntityId) :
    (b.delete id).GainsColors (b'.delete id) where
  bare_eq k := by
    simp only [bare?, get?_delete]
    split
    · rfl
    · exact h.bare_eq k
  color_kept k color hk := by
    simp only [color?, get?_delete] at hk ⊢
    split
    next he => simp [he] at hk
    next he =>
      rw [if_neg he] at hk
      exact h.color_kept k color hk

theorem replace (h : b.GainsColors b') (e : Entity) :
    (b.replace .optimistic e).GainsColors (b'.replace .optimistic e) where
  bare_eq k := by
    simp only [bare?, get?_replace_optimistic]
    split
    · simp
    · exact h.bare_eq k
  color_kept k color hk := by
    simp only [color?, get?_replace_optimistic] at hk ⊢
    split
    next he =>
      rw [if_pos he] at hk
      exact h.inheritColor e hk
    next he =>
      rw [if_neg he] at hk
      exact h.color_kept k color hk

theorem upsert (h : b.GainsColors b') (hb : b.Indexed) (hb' : b'.Indexed) (s : Standing)
    (e : Entity) : (b.upsert .optimistic e).GainsColors (b'.upsert s e) := by
  rw [upsert_eq, upsert_eq, h.hasRoomFor_eq hb hb']
  split
  · exact (h.replace e).trans (gainsColors_replace b' s e)
  · exact h

theorem apply (h : b.GainsColors b') (hb : b.Indexed) (hb' : b'.Indexed) (s : Standing)
    (a : Action) : (b.apply .optimistic a).GainsColors (b'.apply s a) := by
  cases a with
  | upsert e => exact h.upsert hb hb' s e
  | delete id => exact h.delete id
  | ping p => exact h.upsert hb hb' s (.ping p)

theorem applyAll (h : b.GainsColors b') (hb : b.Indexed) (hb' : b'.Indexed) (s : Standing)
    (as : List Action) : (b.applyAll .optimistic as).GainsColors (b'.applyAll s as) := by
  induction as generalizing b b' with
  | nil => exact h
  | cons a as ih => exact ih (h.apply hb hb' s a) (hb.apply .optimistic a) (hb'.apply s a)

end GainsColors

/-- On boards that hold the same, guesses have the same effect. -/
theorem get?_applyAll_congr {b b' : Board} (hb : b.Indexed) (hb' : b'.Indexed)
    (h : ∀ id, b.get? id = b'.get? id) (as : List Action) (id : EntityId) :
    (b.applyAll .optimistic as).get? id = (b'.applyAll .optimistic as).get? id := by
  have hto := (gainsColors_of_get?_eq h).applyAll hb hb' .optimistic as
  have hfrom := (gainsColors_of_get?_eq fun k => (h k).symm).applyAll hb' hb .optimistic as
  exact hto.antisymm hfrom id

end Board

end SharedBoard

import SharedBoard.Proofs.Board.Recoloring

/-! What a chain of restorations leaves under one id, from what stood there before each edit. The
first of them comes back but for a colour, which it takes over exactly if one of its look got it
before the look changed. -/
namespace SharedBoard

/-- What is left when all but the first of some contents of an id are taken back, the latest
first. -/
def restored : List (Option Entity) → Option Entity
  | [] => none
  | e :: later => e.map (·.inheritColor (restored later))

/-- Whether an entity without a colour is followed, as long as the look stays, by one with a
colour. -/
def takesColor : List (Option Entity) → Bool
  | some e :: some e' :: later =>
    e.color?.isNone && e'.fingerprint? == e.fingerprint? &&
      (e'.color?.isSome || takesColor (some e' :: later))
  | _ => false

/-- An entity that stays for one more moment is restored as it would have been. -/
theorem restored_repeat (e : Option Entity) (later : List (Option Entity)) :
    restored (e :: e :: later) = restored (e :: later) := by
  cases e with
  | none => rfl
  | some e =>
    simp only [restored, Option.map_some]
    apply congrArg some
    apply Entity.ext_bare
    · simp
    · have hlook := Entity.fingerprint?_inheritColor e (restored later)
      rw [Entity.color?_inheritColor, Option.bind_some, if_pos hlook,
        Entity.color?_inheritColor e (restored later), ← Option.or_assoc, Option.or_self]

theorem bare_restored (e : Option Entity) (later : List (Option Entity)) :
    (restored (e :: later)).map Entity.bare = e.map Entity.bare := by
  cases e with
  | none => rfl
  | some e => simp [restored]

theorem isSome_color?_restored (e : Option Entity) (later : List (Option Entity)) :
    ((restored (e :: later)).bind Entity.color?).isSome =
      ((e.bind Entity.color?).isSome || takesColor (e :: later)) := by
  induction later generalizing e with
  | nil => cases e <;> simp [restored, takesColor]
  | cons next later ih =>
    cases e with
    | none => simp [restored, takesColor]
    | some e =>
      have hnext := ih next
      have hbare := bare_restored next later
      rw [restored, Option.map_some, Option.bind_some, Entity.color?_inheritColor]
      cases next with
      | none => simp [restored, takesColor]
      | some e' =>
        rw [Option.map_some, Option.map_eq_some_iff] at hbare
        obtain ⟨p, hp, hpe⟩ := hbare
        have hlook : p.fingerprint? = e'.fingerprint? := Entity.fingerprint?_eq_of_bare hpe
        simp only [hp, Option.bind_some] at hnext ⊢
        rw [Option.isSome_or, takesColor, hlook]
        by_cases hsame : e'.fingerprint? = e.fingerprint?
        · cases hc : e.color? <;> simp [hsame, hnext]
        · cases hc : e.color? <;> simp [hsame]

theorem restored_eq_iff (e : Option Entity) (later : List (Option Entity)) :
    restored (e :: later) = e ↔ takesColor (e :: later) = false := by
  cases e with
  | none =>
    cases later with
    | nil => simp [restored, takesColor]
    | cons next later => cases next <;> simp [restored, takesColor]
  | some e =>
    have hcolor := isSome_color?_restored (some e) later
    rw [restored, Option.map_some, Option.bind_some, Option.bind_some] at hcolor
    rw [restored, Option.map_some, Option.some.injEq]
    cases hc : e.color? with
    | some color =>
      have hkept : e.inheritColor (restored later) = e := Entity.inheritColor_of_color? hc _
      have hno : takesColor (some e :: later) = false := by
        cases later with
        | nil => rfl
        | cons next later => cases next <;> simp [takesColor, hc]
      exact iff_of_true hkept hno
    | none =>
      rw [hc, Option.isSome_none, Bool.false_or] at hcolor
      rw [← hcolor, Option.isSome_eq_false_iff, Option.isNone_iff_eq_none]
      constructor
      · intro h
        rw [h, hc]
      · intro h
        exact Entity.ext_bare (Entity.bare_inheritColor _ _) (h.trans hc.symm)

/-- An entity that is put again in place of a restored one is what it was the first time, or what
restoring would make of that. Which of the two depends on whether there is a colour to inherit: an
uncoloured entity inherits from a predecessor of its look, and so did the restored predecessor
from what came after it. -/
theorem inheritColor_restored (e : Option Entity) (p : Entity) (later : List (Option Entity)) :
    let again := some (p.inheritColor (restored (e :: some (p.inheritColor e) :: later)))
    again = some (p.inheritColor e) ∨ again = restored (some (p.inheritColor e) :: later) := by
  intro again
  by_cases hcolor : p.color? = none
  case neg =>
    obtain ⟨color, hc⟩ := Option.ne_none_iff_exists'.1 hcolor
    left
    simp only [again, Entity.inheritColor_of_color? hc]
  cases e with
  | none => exact .inl rfl
  | some e =>
    by_cases hlook : e.fingerprint? = p.fingerprint?
    case neg =>
      left
      rw [Entity.inheritColor_of_look_ne hlook]
      simp only [again, restored, Option.map_some]
      rw [Entity.inheritColor_of_look_ne (by rwa [Entity.fingerprint?_inheritColor])]
    right
    apply congrArg some
    apply Entity.ext_bare
    · simp
    · simp [restored, Entity.color?_inheritColor, hcolor, hlook, ← Option.or_assoc]

end SharedBoard

import SharedBoard.Proofs.Board.Effects

/-! Two batches that touch different ids and do not reach for each other's positions can be taken in
either order. Each of them sees of the other nothing that it looks at: not its targets, and not who
fills the positions that it would fill. -/
namespace SharedBoard.Board

/-- Batches that have nothing to do with each other on a board: no target is in both, and no
position that one of them fills is filled by the other, or held on the board by a target of the
other. -/
structure Independent (b : Board) (as bs : List Action) : Prop where
  targets_ne : ∀ x ∈ as, ∀ y ∈ bs, x.target ≠ y.target
  positions_ne : ∀ x ∈ as, ∀ y ∈ bs, ∀ p ∈ x.position?, y.position? ≠ some p
  first_not_held : ∀ x ∈ as, ∀ y ∈ bs, ∀ p ∈ x.position?, b.place? y.target ≠ some p
  second_not_held : ∀ x ∈ as, ∀ y ∈ bs, ∀ p ∈ y.position?, b.place? x.target ≠ some p

theorem Independent.symm {b : Board} {as bs : List Action} (h : b.Independent as bs) :
    b.Independent bs as where
  targets_ne y hy x hx := (h.targets_ne x hx y hy).symm
  positions_ne y hy x hx p hp hq := h.positions_ne x hx y hy p hq hp
  first_not_held y hy x hx := h.second_not_held x hx y hy
  second_not_held y hy x hx := h.first_not_held x hx y hy

section Frame

variable {as : List Action}

theorem get?_applyAll_of_ne (b : Board) {k : EntityId} (hk : ∀ a ∈ as, k ≠ a.target) :
    (b.applyAll .optimistic as).get? k = b.get? k := by
  induction as generalizing b with
  | nil => rfl
  | cons a as ih =>
    obtain ⟨ha, has⟩ := List.forall_mem_cons.1 hk
    rw [applyAll_cons, ih _ has, get?_apply_of_ne b a ha]

/-- Who fills a position stays there as long as no target leaves it and no action fills it. -/
theorem place?_applyAll_iff (b : Board) (s : Standing) {p : Position}
    (hfilled : ∀ a ∈ as, a.position? ≠ some p) (hheld : ∀ a ∈ as, b.place? a.target ≠ some p)
    (k : EntityId) : (b.applyAll s as).place? k = some p ↔ b.place? k = some p := by
  induction as generalizing b with
  | nil => rfl
  | cons a as ih =>
    obtain ⟨ha, has⟩ := List.forall_mem_cons.1 hfilled
    obtain ⟨hleft, hrest⟩ := List.forall_mem_cons.1 hheld
    have hstep : ∀ j, (b.apply s a).place? j = some p ↔ b.place? j = some p := by
      intro j
      rw [place?_apply]
      split
      next hj => exact iff_of_false ha (hj.1 ▸ hleft)
      next => rfl
    rw [applyAll_cons, ih _ has fun x hx hp => hrest x hx ((hstep _).1 hp), hstep]

end Frame

/-- Boards that a batch cannot tell apart: they hold the same under its targets, and its positions
are filled under the same ids. -/
structure AlikeFor (as : List Action) (b c : Board) : Prop where
  get?_eq : ∀ a ∈ as, b.get? a.target = c.get? a.target
  place_iff : ∀ a ∈ as, ∀ p, a.position? = some p → ∀ k, b.place? k = some p ↔ c.place? k = some p

namespace AlikeFor

variable {as : List Action} {b c : Board}

theorem admits_eq (h : AlikeFor as b c) (hb : b.Indexed) (hc : c.Indexed) {a : Action}
    (ha : a ∈ as) : b.admits a = c.admits a := by
  rw [Bool.eq_iff_iff, hb.admits_iff, hc.admits_iff]
  apply forall_congr'
  intro p
  apply imp_congr_right
  intro hp
  simp only [h.place_iff a ha p hp]

theorem apply (h : AlikeFor as b c) (hb : b.Indexed) (hc : c.Indexed) {a : Action} (ha : a ∈ as) :
    AlikeFor as (b.apply .optimistic a) (c.apply .optimistic a) where
  get?_eq x hx := by
    rw [get?_apply, get?_apply, h.admits_eq hb hc ha, h.get?_eq x hx]
  place_iff x hx p hp k := by
    rw [place?_apply, place?_apply, h.admits_eq hb hc ha]
    split
    · rfl
    · exact h.place_iff x hx p hp k

theorem applyAll (h : AlikeFor as b c) (hb : b.Indexed) (hc : c.Indexed) {bs : List Action}
    (hbs : bs ⊆ as) : AlikeFor as (b.applyAll .optimistic bs) (c.applyAll .optimistic bs) := by
  induction bs generalizing b c with
  | nil => exact h
  | cons a bs ih =>
    obtain ⟨ha, hrest⟩ := List.cons_subset.1 hbs
    exact ih (h.apply hb hc ha) (hb.apply .optimistic a) (hc.apply .optimistic a) hrest

end AlikeFor

namespace Independent

variable {b : Board} {as bs : List Action}

/-- What an independent batch does makes no difference to the other. -/
theorem alikeFor (h : b.Independent as bs) : AlikeFor bs b (b.applyAll .optimistic as) where
  get?_eq y hy := (get?_applyAll_of_ne b fun x hx => (h.targets_ne x hx y hy).symm).symm
  place_iff y hy p hp k :=
    (place?_applyAll_iff b .optimistic (fun x hx hx' => h.positions_ne x hx y hy p hx' hp)
      (fun x hx => h.second_not_held x hx y hy p hp) k).symm

/-- Under the targets of the second batch, it is all the same whether the first came before it,
comes after it, or does not come. -/
theorem get?_target (h : b.Independent as bs) (hb : b.Indexed) {y : Action} (hy : y ∈ bs) :
    ((b.applyAll .optimistic as).applyAll .optimistic bs).get? y.target =
      ((b.applyAll .optimistic bs).applyAll .optimistic as).get? y.target := by
  have halike := h.alikeFor.applyAll hb (hb.applyAll .optimistic as) (List.Subset.refl bs)
  rw [← halike.get?_eq y hy]
  exact (get?_applyAll_of_ne _ fun x hx => (h.targets_ne x hx y hy).symm).symm

theorem get?_applyAll_comm (h : b.Independent as bs) (hb : b.Indexed) (k : EntityId) :
    ((b.applyAll .optimistic as).applyAll .optimistic bs).get? k =
      ((b.applyAll .optimistic bs).applyAll .optimistic as).get? k := by
  by_cases hbs : ∃ y ∈ bs, k = y.target
  · obtain ⟨y, hy, rfl⟩ := hbs
    exact h.get?_target hb hy
  by_cases has : ∃ x ∈ as, k = x.target
  · obtain ⟨x, hx, rfl⟩ := has
    exact (h.symm.get?_target hb hx).symm
  simp only [not_exists, not_and] at hbs has
  rw [get?_applyAll_of_ne _ hbs, get?_applyAll_of_ne _ has, get?_applyAll_of_ne _ has,
    get?_applyAll_of_ne _ hbs]

end Independent

end SharedBoard.Board

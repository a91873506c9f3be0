import SharedBoard.Proofs.Board.Agreement
import SharedBoard.Proofs.Board.Effects

/-! Where pings stand. Nothing keeps a ping off the board, and nothing but an action that creates it
puts it there. -/
namespace SharedBoard

@[simp] theorem Entity.isPing_bare (e : Entity) : e.bare.isPing = e.isPing := by cases e <;> rfl

theorem Action.createdPing?_eq (a : Action) :
    a.createdPing? = if a.payload?.any Entity.isPing then some a.target else none := by
  cases a with
  | upsert e => cases e <;> rfl
  | delete id => rfl
  | ping p => rfl

namespace Board

/-- Whether a ping stands under an id. -/
def hasPing (b : Board) (id : EntityId) : Bool := (b.get? id).any Entity.isPing

/-- The ids of all pings. -/
def pings (b : Board) : List EntityId := (b.toList.filter Entity.isPing).map Entity.id

theorem Indexed.mem_pings {b : Board} (h : b.Indexed) {id : EntityId} :
    id ∈ b.pings ↔ b.hasPing id = true := by
  simp only [pings, List.mem_map, List.mem_filter, h.mem_toList, hasPing, Option.any_eq_true]
  constructor
  · rintro ⟨e, ⟨he, hping⟩, rfl⟩
    exact ⟨e, he, hping⟩
  · rintro ⟨e, he, hping⟩
    obtain rfl := h.keyed he
    exact ⟨e, ⟨he, hping⟩, rfl⟩

@[simp] theorem hasPing_empty (id : EntityId) : empty.hasPing id = false := rfl

@[simp] theorem hasPing_delete (b : Board) (id k : EntityId) :
    (b.delete id).hasPing k = if k = id then false else b.hasPing k := by
  rw [hasPing, get?_delete]
  split <;> rfl

theorem hasPing_eq_bare? (b : Board) (id : EntityId) :
    b.hasPing id = (b.bare? id).any Entity.isPing := by
  rw [hasPing, bare?, Option.any_map]
  exact congrArg (Option.any · _) (funext fun e => e.isPing_bare.symm)

theorem hasPing_apply (b : Board) (s : Standing) (a : Action) (k : EntityId) :
    (b.apply s a).hasPing k =
      if k = a.target ∧ b.admits a = true then a.payload?.any Entity.isPing else b.hasPing k := by
  rw [hasPing_eq_bare?, bare?_apply, hasPing_eq_bare?]
  split
  · cases a.payload? <;> simp
  · rfl

/-- Pings fill no position, so there is always room for one. -/
theorem hasPing_of_created (b : Board) (s : Standing) {a : Action} {k : EntityId}
    (ha : a.createdPing? = some k) : (b.apply s a).hasPing k = true := by
  rw [Action.createdPing?_eq, Option.ite_none_right_eq_some, Option.some.injEq] at ha
  obtain ⟨hping, rfl⟩ := ha
  obtain ⟨e, he, hkind⟩ := (Option.any_eq_true _ _).1 hping
  have hnone : e.position? = none := e.position?_eq_none_iff.2 hkind
  have hadmits : b.admits a = true := by simp [admits, he, hasRoomFor, hnone]
  rw [hasPing_apply, if_pos ⟨rfl, hadmits⟩, hping]

theorem created_or_hasPing {b : Board} {s : Standing} {a : Action} {k : EntityId}
    (h : (b.apply s a).hasPing k = true) : a.createdPing? = some k ∨ b.hasPing k = true := by
  rw [hasPing_apply] at h
  split at h
  next hk => exact .inl (by rw [Action.createdPing?_eq, if_pos h, hk.1])
  next => exact .inr h

theorem exists_created_or_hasPing {b : Board} {s : Standing} {as : List Action} {k : EntityId}
    (h : (b.applyAll s as).hasPing k = true) :
    (∃ a ∈ as, a.createdPing? = some k) ∨ b.hasPing k = true := by
  induction as generalizing b with
  | nil => exact .inr h
  | cons a as ih =>
    rcases ih h with ⟨d, hd, hk⟩ | hk
    · exact .inl ⟨d, List.mem_cons_of_mem _ hd, hk⟩
    · exact (created_or_hasPing hk).imp_left fun hk => ⟨a, List.mem_cons_self, hk⟩

/-- The pings of a snapshot are those that it lists. -/
theorem exists_of_hasPing_ofEntities {es : List Entity} {k : EntityId}
    (h : (ofEntities es).hasPing k = true) : ∃ e ∈ es, e.isPing = true ∧ e.id = k := by
  rw [ofEntities_eq_applyAll] at h
  obtain ⟨a, ha, hk⟩ := (exists_created_or_hasPing h).resolve_right (by simp)
  obtain ⟨e, he, rfl⟩ := List.mem_map.1 ha
  rw [Action.createdPing?_eq, Option.ite_none_right_eq_some, Option.some.injEq] at hk
  exact ⟨e, he, hk⟩

end Board

end SharedBoard

import SharedBoard.Proofs.Board.Agreement
import SharedBoard.Proofs.Board.Consistency
import SharedBoard.Proofs.Board.Effects

/-! What a guess sees of a board. On a consistent board the filled positions say nothing that the
entities do not say, and no guess looks at a group; so a guess can be taken on the entities alone,
with a scan of them in place of the filled positions. -/
namespace SharedBoard

/-- The entities of a board by id, without the maps that follow from them. -/
abbrev Roster := SortedMap EntityId Entity

namespace Roster

/-- A token has room unless another one fills its position. -/
def hasRoomFor (m : Roster) (e : Entity) : Bool :=
  e.position?.all fun p => m.values.all fun d => d.position? != some p || d.id == e.id

/-- An optimistic action, taken on the entities alone. -/
def guess (m : Roster) (a : Action) : Roster :=
  match a.payload? with
  | none => m.erase a.target
  | some e => if m.hasRoomFor e then m.insert e.id (e.inheritColor (m.find? e.id)) else m

def takes (m : Roster) (a : Action) : Bool := a.payload?.elim (m.contains a.target) m.hasRoomFor

def guessAll (m : Roster) (as : List Action) : Roster := as.foldl guess m

end Roster

namespace Board

variable {b b' : Board}

theorem entities_delete (b : Board) (id : EntityId) :
    (b.delete id).entities = b.entities.erase id := by
  apply SortedMap.ext
  intro k
  rw [SortedMap.find?_erase]
  exact get?_delete b id k

theorem entities_replace (b : Board) (e : Entity) :
    (b.replace .optimistic e).entities = b.entities.insert e.id (e.inheritColor (b.get? e.id)) := by
  apply SortedMap.ext
  intro k
  rw [SortedMap.find?_insert]
  exact get?_replace_optimistic b e k

/-- The scan finds whoever fills a position. -/
theorem Indexed.hasRoomFor_entities (h : b.Indexed) (e : Entity) :
    Roster.hasRoomFor b.entities e = b.hasRoomFor e := by
  rw [Bool.eq_iff_iff, hasRoomFor_iff, Roster.hasRoomFor, Option.all_eq_true]
  apply forall_congr'
  intro p
  apply imp_congr_right
  intro _
  simp only [List.all_eq_true, Bool.or_eq_true, bne_iff_ne, beq_iff_eq, h.occupant_iff,
    place?_eq_some_iff]
  constructor
  · rintro hscan id ⟨d, hd, hp⟩
    have hid := h.keyed hd
    rw [← hid]
    exact (hscan d (h.mem_toList.2 (hid ▸ hd))).resolve_left (not_not_intro hp)
  · intro hfree d hd
    exact or_iff_not_imp_left.2 fun hp => hfree d.id ⟨d, h.mem_toList.1 hd, not_not.1 hp⟩

theorem Indexed.takes_entities (h : b.Indexed) (a : Action) :
    Roster.takes b.entities a = b.takes a := by
  cases a with
  | upsert e => exact h.hasRoomFor_entities e
  | delete id => rfl
  | ping p => exact h.hasRoomFor_entities (.ping p)

theorem Indexed.entities_apply (h : b.Indexed) (a : Action) :
    (b.apply .optimistic a).entities = Roster.guess b.entities a := by
  rw [apply_eq, Roster.guess]
  cases a.payload? with
  | none => exact entities_delete b a.target
  | some e =>
    rw [Option.elim_some, upsert_eq]
    dsimp only
    rw [h.hasRoomFor_entities]
    split
    · exact entities_replace b e
    · rfl

/-- A run of guesses, on a board and on its entities alone. -/
theorem Indexed.entities_applyAll (h : b.Indexed) (as : List Action) :
    (b.applyAll .optimistic as).entities = Roster.guessAll b.entities as := by
  induction as generalizing b with
  | nil => rfl
  | cons a as ih =>
    rw [applyAll_cons, ih (h.apply .optimistic a), h.entities_apply]
    rfl

/-- What guesses do, one after the other: the board after each, and the reply to it. -/
def guesses (b : Board) : List Action → List (Board × Bool)
  | [] => []
  | a :: as => b.perform .optimistic a :: (b.apply .optimistic a).guesses as

/-- Two steps to consistent boards that hold the same, with one reply. -/
structure SameOutcome (s s' : Board × Bool) : Prop where
  reply_eq : s.2 = s'.2
  sameEntities : s.1.sameEntities s'.1 = true
  consistent : s.1.isConsistent = true
  consistent' : s'.1.isConsistent = true

theorem Indexed.sameOutcome (h : b.Indexed) (h' : b'.Indexed) (hsame : b.entities = b'.entities)
    (a : Action) : SameOutcome (b.perform .optimistic a) (b'.perform .optimistic a) where
  reply_eq := by
    rw [perform_snd, perform_snd, ← h.takes_entities, ← h'.takes_entities, hsame]
  sameEntities := by
    rw [Board.sameEntities, beq_iff_eq]
    exact (h.entities_apply a).trans (hsame ▸ (h'.entities_apply a).symm)
  consistent := (h.apply .optimistic a).isConsistent
  consistent' := (h'.apply .optimistic a).isConsistent

theorem Indexed.guesses_congr (h : b.Indexed) (h' : b'.Indexed) (hsame : b.entities = b'.entities)
    (as : List Action) : List.Forall₂ SameOutcome (b.guesses as) (b'.guesses as) := by
  induction as generalizing b b' with
  | nil => exact .nil
  | cons a as ih =>
    have hstep := h.sameOutcome h' hsame a
    exact .cons hstep (ih (h.apply .optimistic a) (h'.apply .optimistic a)
      (beq_iff_eq.1 hstep.sameEntities))

end Board

end SharedBoard

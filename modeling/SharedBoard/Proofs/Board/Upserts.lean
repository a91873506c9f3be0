import SharedBoard.Proofs.Board.Changes
import SharedBoard.Proofs.Board.Effects
import SharedBoard.Proofs.Board.Palette

/-! What an upsert does to a board, id by id. It is held back as a whole when another id fills its
position. Else its entity stands under its id and comes last in its group, and of the others it
touches nothing but the colours of those that look the same and have none. -/
namespace SharedBoard.Board

/-- The colour of the character that an entity replaces, if both are characters that look the
same. -/
def inherited? (b : Board) (e : Entity) : Option String := do
  let next ← e.character?
  let prev ← (b.get? e.id).bind Entity.character?
  if prev.contents = next.contents then prev.color else none

/-- The colour that an entity comes with: its own, or else the one that it inherits. -/
def carriedColor? (b : Board) (e : Entity) : Option String := e.color?.or (b.inherited? e)

theorem color?_inheritColor_get? (b : Board) (e : Entity) :
    (e.inheritColor (b.get? e.id)).color? = b.carriedColor? e := by
  rw [Entity.color?_inheritColor, carriedColor?, inherited?]
  congr 1
  cases b.get? e.id with
  | none => cases e.character? <;> rfl
  | some prev =>
    cases e <;> cases prev <;>
      simp [Entity.fingerprint?, Entity.character?, Entity.color?, Contents.fingerprint_inj]

section Placed

variable {b : Board} {e : Entity}

theorem color?_placed (b : Board) (e : Entity) (k : EntityId) :
    (b.replace .optimistic e).color? k = if k = e.id then b.carriedColor? e else b.color? k := by
  rw [color?, get?_replace_optimistic, ← color?_inheritColor_get?]
  split <;> rfl

theorem bare?_upsert (hroom : b.hasRoomFor e = true) (s : Standing) (k : EntityId) :
    (b.upsert s e).bare? k = if k = e.id then some e.bare else b.bare? k := by
  have happly := bare?_apply b s (.upsert e) k
  simpa [admits, Action.payload?, Action.target, hroom] using happly

theorem gainsColors_upsert (b : Board) (s : Standing) (e : Entity) :
    (b.upsert .optimistic e).GainsColors (b.upsert s e) := gainsColors_apply b s (.upsert e)

theorem color?_upsert_optimistic (hroom : b.hasRoomFor e = true) (k : EntityId) :
    (b.upsert .optimistic e).color? k =
      if k = e.id then b.carriedColor? e else b.color? k := by
  rw [upsert_eq, if_pos hroom, color?_placed]

/-- Confirming an upsert adds to what guessing it leaves the colours that its group hands out. -/
theorem Indexed.color?_upsert_confirmed (h : b.Indexed) (hroom : b.hasRoomFor e = true)
    (k : EntityId) :
    (b.upsert .confirmed e).color? k =
      (e.fingerprint?.bind fun f => ((b.replace .optimistic e).handedOut f).lookup k).or
        (if k = e.id then b.carriedColor? e else b.color? k) := by
  rw [upsert_eq, if_pos hroom, replace_confirmed]
  cases e.fingerprint? with
  | none => exact color?_placed b e k
  | some f =>
    rw [Option.elim_some, (h.replace .optimistic hroom).color?_colorGroup, color?_placed]
    rfl

end Placed

/-- Whoever gains a colour by an upsert of another entity waits for one and looks the same, and the
upsert is confirmed. -/
theorem Indexed.gained_of_upsert {b : Board} (h : b.Indexed) {s : Standing} {e : Entity}
    {k : EntityId} (hk : k ≠ e.id) (hgained : (b.upsert s e).get? k ≠ b.get? k) :
    s = .confirmed ∧ ∃ c d, e = .character c ∧ b.get? k = some (.character d) ∧
      d.contents = c.contents ∧ d.color = none := by
  have hroom : b.hasRoomFor e = true := by
    by_contra hno
    rw [upsert_eq, if_neg hno] at hgained
    exact hgained rfl
  have hplaced : (b.replace .optimistic e).get? k = b.get? k := by
    rw [get?_replace_optimistic, if_neg hk]
  rw [upsert_eq, if_pos hroom] at hgained
  cases s with
  | optimistic => exact absurd hplaced hgained
  | confirmed =>
    have hindexed := h.replace .optimistic hroom
    rw [replace_confirmed] at hgained
    cases e with
    | floor _ => exact absurd hplaced hgained
    | ping _ => exact absurd hplaced hgained
    | character c =>
      simp only [Entity.fingerprint?, Entity.character?, Option.map_some, Option.elim_some,
        hindexed.get?_colorGroup] at hgained
      cases hcolor : ((b.replace .optimistic (.character c)).handedOut
          c.contents.fingerprint).lookup k with
      | none =>
        rw [hcolor] at hgained
        exact absurd hplaced hgained
      | some color =>
        obtain ⟨d, hd, hlook, hnone⟩ := hindexed.exists_of_handedOut hcolor
        exact ⟨rfl, c, d, rfl, hplaced ▸ hd, Contents.fingerprint_inj.1 hlook, hnone⟩

/-- What an upsert that finds room leaves behind. -/
structure Upserted (b : Board) (s : Standing) (e : Entity) (b' : Board) : Prop where
  consistent : b'.isConsistent = true
  /-- The entity is there, with the colour that it comes with, or else one that it was given. -/
  placed : ∃ d, b'.get? e.id = some d ∧ d.bare = e.bare ∧
    (d.color? = b.carriedColor? e ∨ s = .confirmed ∧ b.carriedColor? e = none)
  /-- The position of its predecessor is free, unless the entity stands on it. -/
  vacated : ∀ prev p, b.get? e.id = some prev → prev.position? = some p → e.position? ≠ some p →
    b'.occupants.find? p = none
  /-- It is last in its own group, and in no other. -/
  group_eq : ∀ f, b'.group f =
    (b.group f).filter (· != e.id) ++ if e.fingerprint? = some f then [e.id] else []
  others_kept : ∀ k, k ≠ e.id → b'.bare? k = b.bare? k ∧
    ∀ color, b.color? k = some color → b'.color? k = some color
  others_gained : ∀ k, k ≠ e.id → b'.get? k ≠ b.get? k → s = .confirmed ∧
    ∃ c d, e = .character c ∧ b.get? k = some (.character d) ∧ d.contents = c.contents ∧
      d.color = none

theorem Indexed.upserted {b : Board} (h : b.Indexed) (s : Standing) {e : Entity}
    (hroom : b.hasRoomFor e = true) : Upserted b s e (b.upsert s e) where
  consistent := (h.upsert s e).isConsistent
  placed := by
    have hbare := bare?_upsert hroom s e.id
    rw [if_pos rfl, bare?, Option.map_eq_some_iff] at hbare
    obtain ⟨d, hd, hde⟩ := hbare
    refine ⟨d, hd, hde, ?_⟩
    have hcolor : (b.upsert s e).color? e.id = d.color? := by rw [color?, hd, Option.bind_some]
    have hguess : (b.upsert .optimistic e).color? e.id = b.carriedColor? e := by
      rw [color?_upsert_optimistic hroom, if_pos rfl]
    rw [← hcolor]
    cases hcarried : b.carriedColor? e with
    | some color =>
      exact .inl ((gainsColors_upsert b s e).color_kept e.id color (hguess.trans hcarried))
    | none =>
      cases s with
      | optimistic => exact .inl (hguess.trans hcarried)
      | confirmed => exact .inr ⟨rfl, rfl⟩
  vacated := by
    intro prev p hprev hp hne
    have hleft : b.place? e.id = some p := place?_eq_some_iff.2 ⟨prev, hprev, hp⟩
    apply Option.eq_none_iff_forall_ne_some.2
    intro k hk
    have hplace := (h.upsert s e).occupant_iff.1 hk
    rw [place?_eq_bare?, bare?_upsert hroom] at hplace
    split at hplace
    next => exact hne (by simpa using hplace)
    next hother => exact hother (h.place_inj (place?_eq_bare? b k ▸ hplace) hleft)
  group_eq f := h.group_upsert s hroom f
  others_kept k hk := by
    refine ⟨by rw [bare?_upsert hroom, if_neg hk], ?_⟩
    intro color hcolor
    apply (gainsColors_upsert b s e).color_kept
    rw [color?_upsert_optimistic hroom, if_neg hk, hcolor]
  others_gained k hk := h.gained_of_upsert hk

/-- An upsert is refused exactly if its position is another's. -/
theorem Indexed.hasRoomFor_eq_false_iff {b : Board} (h : b.Indexed) (e : Entity) :
    b.hasRoomFor e = false ↔ ∃ p k d, e.position? = some p ∧ k ≠ e.id ∧ b.get? k = some d ∧
      d.position? = some p := by
  rw [← Bool.not_eq_true, hasRoomFor_iff]
  simp only [h.occupant_iff, place?_eq_some_iff, not_forall]
  constructor
  · rintro ⟨p, hp, k, ⟨d, hd, hdp⟩, hne⟩
    exact ⟨p, k, d, hp, hne, hd, hdp⟩
  · rintro ⟨p, k, d, hp, hne, hd, hdp⟩
    exact ⟨p, hp, k, ⟨d, hd, hdp⟩, hne⟩

/-- On every consistent board an upsert is refused exactly if its entity is no ping and its position
is another's, and then changes nothing; else it leaves its entity, and touches nothing but what it
must. -/
theorem upsert_all_or_nothing {b : Board} (h : b.isConsistent = true) (s : Standing) (e : Entity) :
    let placed := b.place s e
    (placed.2 = false ↔ e.isPing = false ∧
      ∃ p k d, e.position? = some p ∧ k ≠ e.id ∧ b.get? k = some d ∧ d.position? = some p) ∧
    (placed.2 = false → placed.1 = b) ∧
    (placed.2 = true → Upserted b s e placed.1) := by
  intro placed
  have hb := indexed_of_isConsistent h
  have hreply : placed.2 = b.hasRoomFor e := b.place_snd s e
  have hplaced : placed.1 = b.upsert s e := rfl
  rw [hreply, hplaced]
  refine ⟨?_, ?_, hb.upserted s⟩
  · rw [hb.hasRoomFor_eq_false_iff]
    refine ⟨fun hheld => ⟨?_, hheld⟩, And.right⟩
    obtain ⟨p, k, d, hp, -⟩ := hheld
    rw [← Bool.not_eq_true, ← Entity.position?_eq_none_iff, hp]
    exact Option.some_ne_none p
  · intro hheld
    rw [upsert_eq, hheld, if_neg Bool.false_ne_true]

def goblinAt (id : Nat) (x : Int32) (color : Option String) : Character :=
  ⟨.ofNat id, ⟨x, 0, 0⟩, .icon "goblin", color⟩

/-- The first goblin takes a colour when one in black joins it, a third one takes another, and the
first leaves. Two more are only guessed. -/
def goblins : Board :=
  empty.changeAll
    [.upsert .confirmed (.character (goblinAt 1 0 none)),
      .upsert .confirmed (.character (goblinAt 2 1 (some "#000000"))),
      .upsert .confirmed (.character (goblinAt 3 2 none)), .delete (.ofNat 1),
      .upsert .optimistic (.character (goblinAt 4 0 none)),
      .upsert .optimistic (.character (goblinAt 5 3 none))]

/-- A goblin that comes where another one stands is left out. One that moves keeps its colour, its
old position is free, and those who were guessed get theirs. -/
theorem upsert_all_or_nothing_goblins :
    goblins.isConsistent = true ∧
      goblins.place .confirmed (.character (goblinAt 6 0 none)) = (goblins, false) ∧
      let moved := (goblins.place .confirmed (.character (goblinAt 3 7 none))).1
      [2, 3, 4, 5].map (fun n => moved.color? (.ofNat n)) =
          [some "#000000", some "#3C7DD9", some "#D94B4B", some "#3FA66B"] ∧
        moved.occupants.find? ⟨2, 0, 0⟩ = none ∧
        ∀ k, k ≠ .ofNat 3 → moved.bare? k = goblins.bare? k := by
  have h : goblins.isConsistent = true := by decide
  have hheld := upsert_all_or_nothing h .confirmed (.character (goblinAt 6 0 none))
  have hmoved := upsert_all_or_nothing h .confirmed (.character (goblinAt 3 7 none))
  have hrefused : (goblins.place .confirmed (.character (goblinAt 6 0 none))).2 = false := by decide
  have hleft := hmoved.2.2 (by decide)
  refine ⟨h, Prod.ext (hheld.2.1 hrefused) hrefused, by decide, ?_,
    fun k hk => (hleft.others_kept k hk).1⟩
  exact hleft.vacated (.character (goblinAt 3 2 (some "#3C7DD9"))) ⟨2, 0, 0⟩ (by decide) rfl
    (by decide)

end SharedBoard.Board

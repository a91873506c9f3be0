import Mathlib.Data.List.Perm.Subperm
import SharedBoard.Proofs.Board.Indexed

/-! What handing out colours does: the uncoloured members of a group, in group order, take the free
palette entries, in palette order. A group that is no larger than the palette leaves a free entry for
each of them. -/
namespace SharedBoard

namespace Entity

/-- Whether an entity is a character without a colour. -/
def awaitsColor (e : Entity) : Bool := e.character?.any fun c => c.color.isNone

def paint : Entity → String → Entity
  | character c, color => character { c with color := some color }
  | e, _ => e

theorem awaitsColor_paint (e : Entity) (color : String) : (e.paint color).awaitsColor = false := by
  cases e <;> rfl

theorem color?_eq_none_of_awaitsColor {e : Entity} (h : e.awaitsColor = true) :
    e.color? = none := by
  cases e with
  | character c => simpa [awaitsColor, character?, color?] using h
  | _ => rfl

end Entity

section LookupZip

variable {α β : Type} [BEq α] [LawfulBEq α] {xs : List α} {ys : List β} {x : α} {y : β}

theorem mem_of_lookup_zip (h : (xs.zip ys).lookup x = some y) : (x, y) ∈ xs.zip ys := by
  obtain ⟨before, after, hzip, -⟩ := List.lookup_eq_some_iff.1 h
  simp [hzip]

theorem lookup_zip_eq_none (hx : x ∉ xs) : (xs.zip ys).lookup x = none := by
  rw [List.lookup_eq_none_iff]
  intro p hp
  have hne : x ≠ p.1 := by
    rintro rfl
    exact hx (List.of_mem_zip hp).1
  simpa using hne

theorem isSome_lookup_zip (h : xs.length ≤ ys.length) (hx : x ∈ xs) :
    ((xs.zip ys).lookup x).isSome = true := by
  rw [← List.map_fst_zip h, List.mem_map] at hx
  obtain ⟨p, hp, rfl⟩ := hx
  by_contra hnone
  rw [Bool.not_eq_true, Option.isSome_eq_false_iff, Option.isNone_iff_eq_none,
    List.lookup_eq_none_iff] at hnone
  simpa using hnone p hp

end LookupZip

namespace Board

/-- Those of some ids that stand for a character without a colour. -/
def awaiting (entities : SortedMap EntityId Entity) (ids : List EntityId) : List EntityId :=
  ids.filter fun id => (entities.find? id).any Entity.awaitsColor

theorem awaiting_insert {entities : SortedMap EntityId Entity} {id : EntityId} (e : Entity)
    {ids : List EntityId} (h : id ∉ ids) :
    awaiting (entities.insert id e) ids = awaiting entities ids := by
  apply List.filter_congr
  intro k hk
  have hne : k ≠ id := by
    rintro rfl
    exact h hk
  rw [SortedMap.find?_insert_of_ne _ hne]

section HandOut

variable {id : EntityId} (ids : List EntityId) (color : String) (colors : List String)
  {entities : SortedMap EntityId Entity}

theorem handOut_of_awaits {e : Entity} (he : entities.find? id = some e)
    (hawaits : e.awaitsColor = true) :
    handOut (id :: ids) (color :: colors) entities =
      handOut ids colors (entities.insert id (e.paint color)) := by
  cases e with
  | character c =>
    have hnone : c.color = none := by
      simpa [Entity.awaitsColor, Entity.character?] using hawaits
    simp [handOut, he, hnone, Entity.paint]
  | floor f => cases hawaits
  | ping p => cases hawaits

theorem handOut_of_not_awaits (h : (entities.find? id).any Entity.awaitsColor = false) :
    handOut (id :: ids) (color :: colors) entities = handOut ids (color :: colors) entities := by
  cases he : entities.find? id with
  | none => simp [handOut, he]
  | some e =>
    cases e with
    | character c =>
      have hcolor : c.color.isSome = true := by
        simpa [he, Entity.awaitsColor, Entity.character?, Option.isSome_iff_ne_none] using h
      simp [handOut, he, hcolor]
    | floor f => simp [handOut, he]
    | ping p => simp [handOut, he]

end HandOut

/-- Each uncoloured id takes a colour, in order, as long as there are any; nothing else changes. -/
theorem find?_handOut {ids : List EntityId} (hids : ids.Nodup) (colors : List String)
    (entities : SortedMap EntityId Entity) (k : EntityId) :
    (handOut ids colors entities).find? k =
      (((awaiting entities ids).zip colors).lookup k).elim (entities.find? k)
        fun color => (entities.find? k).map (·.paint color) := by
  induction ids generalizing colors entities with
  | nil => rfl
  | cons id ids ih =>
    obtain ⟨hid, hids⟩ := List.nodup_cons.1 hids
    cases colors with
    | nil => simp [handOut]
    | cons color colors =>
      cases hawaits : (entities.find? id).any Entity.awaitsColor with
      | false =>
        have hskip : awaiting entities (id :: ids) = awaiting entities ids :=
          List.filter_cons_of_neg (by simp [hawaits])
        rw [handOut_of_not_awaits ids color colors hawaits, hskip]
        exact ih hids (color :: colors) entities
      | true =>
        have htake : awaiting entities (id :: ids) = id :: awaiting entities ids :=
          List.filter_cons_of_pos hawaits
        obtain ⟨e, he, hawaits⟩ := (Option.any_eq_true _ _).1 hawaits
        rw [handOut_of_awaits ids color colors he hawaits, ih hids, awaiting_insert _ hid, htake,
          List.zip_cons_cons, List.lookup_cons]
        by_cases hk : k = id
        · have hnone : ((awaiting entities ids).zip colors).lookup id = none :=
            lookup_zip_eq_none fun hmem => hid (List.mem_filter.1 hmem).1
          simp [hk, hnone, he]
        · rw [SortedMap.find?_insert_of_ne _ hk, beq_false_of_ne hk]

variable {b : Board}

/-- Whether a character without a colour stands under an id. -/
def awaits (b : Board) (id : EntityId) : Bool := (b.get? id).any Entity.awaitsColor

theorem awaits_of_get? {id : EntityId} {c : Character} (h : b.get? id = some (.character c)) :
    b.awaits id = c.color.isNone := by
  rw [awaits, h]
  rfl

/-- The members of a group that have no colour, in group order. -/
def uncolored (b : Board) (f : String) : List EntityId := (b.group f).filter b.awaits

/-- What colouring a group gives to whom. -/
def handedOut (b : Board) (f : String) : List (EntityId × String) :=
  if 1 < (b.group f).length then (b.uncolored f).zip (b.freeColors f) else []

theorem Indexed.get?_colorGroup (h : b.Indexed) (f : String) (k : EntityId) :
    (b.colorGroup f).get? k =
      ((b.handedOut f).lookup k).elim (b.get? k) fun color => (b.get? k).map (·.paint color) := by
  unfold Board.colorGroup handedOut
  split
  · exact find?_handOut (h.nodup_group f) (b.freeColors f) b.entities k
  · rfl

/-- A member either holds a colour or waits for one. -/
theorem length_usedColors_add_uncolored (b : Board) (f : String) :
    (b.usedColors f).length + (b.uncolored f).length ≤ (b.group f).length := by
  have hused : (b.usedColors f).length = (b.group f).countP fun id => (b.color? id).isSome :=
    List.length_filterMap_eq_countP
  have hrest : (b.uncolored f).length ≤ (b.group f).countP fun id => !(b.color? id).isSome := by
    rw [uncolored, ← List.countP_eq_length_filter]
    apply List.countP_mono_left
    intro id _ hw
    obtain ⟨e, he, hawaits⟩ := (Option.any_eq_true _ _).1 hw
    simp [color?, he, Entity.color?_eq_none_of_awaitsColor hawaits]
  have hall := List.length_eq_countP_add_countP (fun id => (b.color? id).isSome) (l := b.group f)
  simp only [Bool.decide_eq_true, decide_not] at hall
  omega

/-- There is a free palette entry for each uncoloured member of a group that is no larger than the
palette. -/
theorem length_uncolored_le {b : Board} {f : String} (h : (b.group f).length ≤ palette.length) :
    (b.uncolored f).length ≤ (b.freeColors f).length := by
  have htaken : (palette.filter (b.usedColors f).contains).length ≤ (b.usedColors f).length := by
    apply (List.subperm_of_subset (nodup_palette.filter _) ?_).length_le
    intro color hc
    simpa using (List.mem_filter.1 hc).2
  have hsplit := List.length_eq_length_filter_add (l := palette) (b.usedColors f).contains
  have hmembers := length_usedColors_add_uncolored b f
  simp only [freeColors]
  omega

/-- Whoever is handed a colour stops waiting for one. -/
theorem Indexed.awaits_colorGroup (h : b.Indexed) (f : String) (id : EntityId) :
    (b.colorGroup f).awaits id = (b.awaits id && ((b.handedOut f).lookup id).isNone) := by
  rw [awaits, h.get?_colorGroup]
  cases (b.handedOut f).lookup id with
  | none => exact (Bool.and_true _).symm
  | some color =>
    rw [Option.isNone_some, Bool.and_false]
    cases b.get? id <;> simp [Entity.awaitsColor_paint]

/-- Colouring a group of two or more leaves nobody waiting if it is no larger than the palette. -/
theorem Indexed.not_awaits_colorGroup (h : b.Indexed) {f : String} {id : EntityId}
    (hid : id ∈ b.group f) (hmany : 1 < (b.group f).length)
    (hfits : (b.group f).length ≤ palette.length) : (b.colorGroup f).awaits id = false := by
  rw [h.awaits_colorGroup]
  cases hwaits : b.awaits id with
  | false => rfl
  | true =>
    have hmem : id ∈ b.uncolored f := List.mem_filter.2 ⟨hid, hwaits⟩
    obtain ⟨color, hcolor⟩ :=
      Option.isSome_iff_exists.1 (isSome_lookup_zip (length_uncolored_le hfits) hmem)
    rw [handedOut, if_pos hmany, hcolor]
    rfl

section HandedOut

variable {f color : String} {k : EntityId}

/-- What is handed out is free, and goes to members of the group that wait for it. -/
theorem mem_of_handedOut (h : (b.handedOut f).lookup k = some color) :
    k ∈ b.uncolored f ∧ color ∈ b.freeColors f := by
  unfold handedOut at h
  split at h
  · exact List.of_mem_zip (mem_of_lookup_zip h)
  · cases h

theorem mem_usedColors_iff : color ∈ b.usedColors f ↔ ∃ id ∈ b.group f, b.color? id = some color :=
  List.mem_filterMap

/-- A free colour is a palette entry that no member of the group holds. -/
theorem mem_freeColors_iff :
    color ∈ b.freeColors f ↔ color ∈ palette ∧ ∀ id ∈ b.group f, b.color? id ≠ some color := by
  simp [freeColors, mem_usedColors_iff]

/-- Whoever is handed a colour is a character of the group that has none. -/
theorem Indexed.exists_of_handedOut (h : b.Indexed)
    (hcolor : (b.handedOut f).lookup k = some color) :
    ∃ d, b.get? k = some (.character d) ∧ d.contents.fingerprint = f ∧ d.color = none := by
  obtain ⟨hmem, hwaits⟩ := List.mem_filter.1 (mem_of_handedOut hcolor).1
  obtain ⟨d, hd, hlook⟩ := look?_eq_some_iff.1 (h.mem_group_iff.1 hmem)
  rw [awaits_of_get? hd, Option.isNone_iff_eq_none] at hwaits
  exact ⟨d, hd, hlook, hwaits⟩

theorem Indexed.color?_colorGroup (h : b.Indexed) (f : String) (k : EntityId) :
    (b.colorGroup f).color? k = ((b.handedOut f).lookup k).or (b.color? k) := by
  rw [color?, h.get?_colorGroup]
  cases hk : (b.handedOut f).lookup k with
  | none => rfl
  | some color =>
    obtain ⟨d, hd, -⟩ := h.exists_of_handedOut hk
    simp [hd, Entity.paint, Entity.color?, Entity.character?]

end HandedOut

end Board

end SharedBoard

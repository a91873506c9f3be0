import SharedBoard.Board.Query
import SharedBoard.Proofs.Board.ToldApart

/-! Two boards that hold the same, and tell characters apart, whatever the order within their groups.
Confirmed changes keep them in agreement as long as the palette suffices, and a board agrees with one
that is built anew from its entities. -/
namespace SharedBoard.Board

structure Agree (b b' : Board) : Prop where
  indexed : b.Indexed
  indexed' : b'.Indexed
  toldApart : b.ToldApart
  get?_eq : ∀ id, b.get? id = b'.get? id

/-- The boards that confirmed actions lead through, the first and the last one included. -/
def stages (b : Board) : List Action → List Board
  | [] => [b]
  | a :: as => b :: (b.apply .confirmed a).stages as

theorem ofEntities_eq_applyAll (es : List Entity) :
    ofEntities es = empty.applyAll .confirmed (es.map .upsert) := by
  rw [ofEntities, applyAll, List.foldl_map]
  rfl

section SameEntities

variable {b b' : Board} (hb : b.Indexed) (hb' : b'.Indexed) (hget : ∀ id, b.get? id = b'.get? id)
include hb hb' hget

theorem perm_group_of_get?_eq (f : String) : (b.group f).Perm (b'.group f) := by
  apply (List.perm_ext_iff_of_nodup (hb.nodup_group f) (hb'.nodup_group f)).2
  intro id
  rw [hb.mem_group_iff, hb'.mem_group_iff, look?, hget, look?]

/-- The order within a group matters to its colouring only in that of the characters that wait. -/
theorem get?_colorGroup_congr {f : String} (huncolored : b.uncolored f = b'.uncolored f)
    (k : EntityId) : (b.colorGroup f).get? k = (b'.colorGroup f).get? k := by
  have hgroup := perm_group_of_get?_eq hb hb' hget f
  have hused : (b.usedColors f).Perm (b'.usedColors f) := by
    rw [usedColors, usedColors, funext hget]
    exact hgroup.filterMap _
  have hfree : b.freeColors f = b'.freeColors f := by
    apply List.filter_congr
    intro color _
    rw [Bool.eq_iff_iff]
    simp [hused.mem_iff]
  have hhanded : b.handedOut f = b'.handedOut f := by
    rw [handedOut, handedOut, hgroup.length_eq, huncolored, hfree]
  rw [hb.get?_colorGroup, hb'.get?_colorGroup, hhanded, hget]

end SameEntities

/-- Lists without order are equal when they have no two members. -/
theorem eq_of_perm_of_forall_eq {α : Type} {xs ys : List α} (h : xs.Perm ys)
    (hone : ∀ x ∈ xs, ∀ y ∈ xs, x = y) : xs = ys := by
  have hunordered : ∀ zs : List α, zs.Pairwise fun _ _ => True :=
    fun _ => List.pairwise_of_forall fun _ _ => trivial
  exact h.eq_of_pairwise (fun x y hx hy _ _ => hone x hx y (h.mem_iff.2 hy)) (hunordered xs)
    (hunordered ys)

theorem Indexed.agree_refl {b : Board} (h : b.Indexed) (ht : b.ToldApart) : b.Agree b :=
  ⟨h, h, ht, fun _ => rfl⟩

namespace Agree

variable {b b' : Board} (h : b.Agree b')
include h

theorem toldApart' : b'.ToldApart :=
  h.toldApart.of_partOf fun id _ hid => (h.get?_eq id).trans hid

theorem perm_group (f : String) : (b.group f).Perm (b'.group f) :=
  perm_group_of_get?_eq h.indexed h.indexed' h.get?_eq f

theorem hasRoomFor_eq (e : Entity) : b'.hasRoomFor e = b.hasRoomFor e :=
  (gainsColors_of_get?_eq h.get?_eq).hasRoomFor_eq h.indexed h.indexed' e

theorem delete (id : EntityId) : (b.delete id).Agree (b'.delete id) where
  indexed := h.indexed.delete id
  indexed' := h.indexed'.delete id
  toldApart := h.toldApart.delete id
  get?_eq k := by rw [get?_delete, get?_delete, h.get?_eq]

theorem get?_placed (e : Entity) (k : EntityId) :
    (b.replace .optimistic e).get? k = (b'.replace .optimistic e).get? k := by
  rw [get?_replace_optimistic, get?_replace_optimistic, h.get?_eq, h.get?_eq]

/-- The same characters wait in the same order: at most one that was there before does, and the new
one comes last. -/
theorem uncolored_placed {e : Entity} (hroom : b.hasRoomFor e = true) (f : String) :
    (b.replace .optimistic e).uncolored f = (b'.replace .optimistic e).uncolored f := by
  have hroom' : b'.hasRoomFor e = true := (h.hasRoomFor_eq e).trans hroom
  have hwaits : (b'.replace .optimistic e).awaits = (b.replace .optimistic e).awaits := by
    funext k
    rw [awaits, ← h.get?_placed e k, awaits]
  rw [uncolored, uncolored, h.indexed.group_placed hroom, h.indexed'.group_placed hroom', hwaits,
    List.filter_append, List.filter_append]
  congr 1
  apply eq_of_perm_of_forall_eq (((h.perm_group f).filter _).filter _)
  intro i hi j hj
  simp only [List.mem_filter, h.indexed.mem_group_iff, bne_iff_ne] at hi hj
  obtain ⟨⟨hlook, hid⟩, hwaiting⟩ := hi
  by_contra hne
  rw [awaits_replace_optimistic b e i hid,
    toldApart_iff.1 h.toldApart i j f hlook hj.1.1 hne] at hwaiting
  cases hwaiting

theorem upsert {e : Entity} (hfits : (b.upsert .confirmed e).fitsPalette = true) :
    (b.upsert .confirmed e).Agree (b'.upsert .confirmed e) where
  indexed := h.indexed.upsert .confirmed e
  indexed' := h.indexed'.upsert .confirmed e
  toldApart := h.toldApart.upsert h.indexed hfits
  get?_eq k := by
    rw [upsert_eq, upsert_eq, h.hasRoomFor_eq]
    split
    case isFalse => exact h.get?_eq k
    case isTrue hroom =>
    have hplaced := h.indexed.replace .optimistic hroom
    have hplaced' := h.indexed'.replace .optimistic ((h.hasRoomFor_eq e).trans hroom)
    rw [replace_confirmed, replace_confirmed]
    cases e.fingerprint? with
    | none => exact h.get?_placed e k
    | some f =>
      exact get?_colorGroup_congr hplaced hplaced' (h.get?_placed e) (h.uncolored_placed hroom f) k

theorem apply {a : Action} (hfits : (b.apply .confirmed a).fitsPalette = true) :
    (b.apply .confirmed a).Agree (b'.apply .confirmed a) := by
  cases a with
  | upsert e => exact h.upsert hfits
  | delete id => exact h.delete id
  | ping p => exact h.upsert hfits

end Agree

theorem self_mem_stages (b : Board) (as : List Action) : b ∈ b.stages as := by
  cases as <;> simp [stages]

/-- Boards stay in agreement through all stages of a batch. -/
theorem Agree.applyAll {b b' : Board} (h : b.Agree b') {as : List Action}
    (hfits : ∀ d ∈ b.stages as, d.fitsPalette = true) :
    (b.applyAll .confirmed as).Agree (b'.applyAll .confirmed as) ∧
      (∀ d ∈ b.stages as, d.ToldApart) ∧ ∀ d ∈ b'.stages as, d.ToldApart := by
  induction as generalizing b b' with
  | nil => simpa [stages] using ⟨h, h.toldApart, h.toldApart'⟩
  | cons a as ih =>
    obtain ⟨-, hrest⟩ := List.forall_mem_cons.1 hfits
    have hnext := h.apply (hrest _ (self_mem_stages _ as))
    obtain ⟨hlast, hleft, hright⟩ := ih hnext hrest
    exact ⟨hlast, List.forall_mem_cons.2 ⟨h.toldApart, hleft⟩,
      List.forall_mem_cons.2 ⟨h.toldApart', hright⟩⟩

theorem Indexed.mem_toList {b : Board} (h : b.Indexed) {e : Entity} :
    e ∈ b.toList ↔ b.get? e.id = some e := by
  rw [toList, SortedMap.values, List.mem_map]
  constructor
  · rintro ⟨⟨id, d⟩, hm, rfl⟩
    have hd : b.get? id = some d := (SortedMap.find?_eq_some_iff _ _ _).2 hm
    rw [h.keyed hd, hd]
  · intro he
    exact ⟨(e.id, e), (SortedMap.find?_eq_some_iff _ _ _).1 he, rfl⟩

theorem Indexed.nodup_ids {b : Board} (h : b.Indexed) : (b.toList.map Entity.id).Nodup := by
  have hkeys : b.toList.map Entity.id = b.entities.keys := by
    rw [toList, SortedMap.values, List.map_map, SortedMap.keys]
    apply List.map_congr_left
    rintro ⟨id, e⟩ hm
    exact h.keyed ((SortedMap.find?_eq_some_iff _ _ _).2 hm)
  rw [hkeys]
  exact b.entities.nodup_keys

theorem PartOf.of_get?_eq {b b' whole : Board} (hpart : b.PartOf whole) {e : Entity}
    (he : whole.get? e.id = some e)
    (hget : ∀ k, b'.get? k = if k = e.id then some e else b.get? k) : b'.PartOf whole := by
  intro k d hk
  rw [hget] at hk
  split at hk
  next hid =>
    cases hk
    rwa [hid]
  next => exact hpart k d hk

section Load

variable {b whole : Board} (hwhole : whole.Indexed) (ht : whole.ToldApart)
include hwhole ht

/-- An entity that comes back to a part of its board finds room, and nobody gains a colour. -/
theorem get?_upsert_of_partOf (hb : b.Indexed) (hpart : b.PartOf whole) {e : Entity}
    (he : whole.get? e.id = some e) (hnew : b.get? e.id = none) (k : EntityId) :
    (b.upsert .confirmed e).get? k = if k = e.id then some e else b.get? k := by
  have hroom : b.hasRoomFor e = true := by
    rw [hasRoomFor_iff]
    intro p hp id hid
    obtain ⟨d, hd, hdp⟩ := place?_eq_some_iff.1 (hb.occupant_iff.1 hid)
    exact hwhole.place_inj (place?_eq_some_iff.2 ⟨d, hpart id d hd, hdp⟩)
      (place?_eq_some_iff.2 ⟨e, he, hp⟩)
  have hget : ∀ i, (b.replace .optimistic e).get? i = if i = e.id then some e else b.get? i := by
    intro i
    rw [get?_replace_optimistic, hnew, Entity.inheritColor_none]
  have hplaced := hpart.of_get?_eq he hget
  rw [upsert_eq, if_pos hroom, replace_confirmed]
  cases e.fingerprint? with
  | none => exact hget k
  | some f =>
    have hindexed := hb.replace .optimistic hroom
    exact ((ht.of_partOf hplaced).get?_colorGroup hindexed f k).trans (hget k)

/-- Entities of a board that are put back one after the other. -/
theorem load_of_partOf (hb : b.Indexed) (hpart : b.PartOf whole) {es : List Entity}
    (hids : (es.map Entity.id).Nodup) (hes : ∀ e ∈ es, whole.get? e.id = some e)
    (hnew : ∀ e ∈ es, b.get? e.id = none) :
    (∀ d ∈ b.stages (es.map .upsert), d.PartOf whole) ∧
      ∀ k, (b.applyAll .confirmed (es.map .upsert)).get? k =
        if k ∈ es.map Entity.id then whole.get? k else b.get? k := by
  induction es generalizing b with
  | nil => simpa [stages] using hpart
  | cons e es ih =>
    obtain ⟨he, hes⟩ := List.forall_mem_cons.1 hes
    obtain ⟨hfree, hnew⟩ := List.forall_mem_cons.1 hnew
    obtain ⟨hid, hids⟩ := List.nodup_cons.1 hids
    have hget := get?_upsert_of_partOf hwhole ht hb hpart he hfree
    have hnext := hpart.of_get?_eq he hget
    have hstill : ∀ d ∈ es, (b.upsert .confirmed e).get? d.id = none := by
      intro d hd
      have hne : d.id ≠ e.id := fun hde => hid (hde ▸ List.mem_map_of_mem hd)
      rw [hget, if_neg hne, hnew d hd]
    obtain ⟨hstages, hlast⟩ := ih (hb.upsert .confirmed e) hnext hids hes hstill
    refine ⟨List.forall_mem_cons.2 ⟨hpart, hstages⟩, ?_⟩
    intro k
    rw [List.map_cons, applyAll_cons, apply_upsert, hlast, hget]
    by_cases hk : k = e.id
    · simp [hk, he]
    · simp [hk]

/-- A board is built anew from its entities, in whatever order they come. -/
theorem agree_of_perm_toList {es : List Entity} (hes : es.Perm whole.toList) :
    whole.Agree (ofEntities es) ∧ ∀ d ∈ empty.stages (es.map .upsert), d.ToldApart := by
  have hids : (es.map Entity.id).Nodup := (hes.map _).nodup_iff.2 hwhole.nodup_ids
  have hmem : ∀ e, e ∈ es ↔ whole.get? e.id = some e := fun e => hes.mem_iff.trans hwhole.mem_toList
  have hpart : empty.PartOf whole := fun _ _ hnone => by simp at hnone
  obtain ⟨hparts, hlast⟩ := load_of_partOf hwhole ht indexed_empty hpart hids
    (fun e he => (hmem e).1 he) (fun _ _ => rfl)
  rw [← ofEntities_eq_applyAll] at hlast
  refine ⟨⟨hwhole, ?_, ht, ?_⟩, fun d hd => ht.of_partOf (hparts d hd)⟩
  · rw [ofEntities_eq_applyAll]
    exact indexed_empty.applyAll .confirmed _
  · intro k
    rw [hlast]
    split
    next => rfl
    next hout =>
      cases hk : whole.get? k with
      | none => rfl
      | some e =>
        have hid := hwhole.keyed hk
        exact absurd (List.mem_map.2 ⟨e, (hmem e).2 (hid ▸ hk), hid⟩) hout

end Load

end SharedBoard.Board

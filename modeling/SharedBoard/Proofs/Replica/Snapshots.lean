import SharedBoard.Proofs.Board.Agreement
import SharedBoard.Proofs.Board.Handout
import SharedBoard.Proofs.Board.Repetition
import SharedBoard.Replica

/-! Which boards a snapshot brings back whatever the order of its entities: those on which every
character that has a double is coloured. A double without a colour is given one when it is loaded
first and the other right after it, and nothing that is loaded later takes it away. -/
namespace SharedBoard

namespace Board

/-- A colour stays while entities of other ids are confirmed. -/
theorem color?_confirm_others {b : Board} {es : List Entity} {k : EntityId} {color : String}
    (hes : ∀ e ∈ es, e.id ≠ k) (hcolor : b.color? k = some color) :
    (b.applyAll .confirmed (es.map .upsert)).color? k = some color := by
  have hkept : ¬b.RenewedIn (es.map .upsert) k := by
    rintro ⟨n, a, ha, htarget, -⟩
    obtain ⟨e, he, rfl⟩ := List.mem_map.1 (List.mem_of_getElem? ha)
    exact hes e he htarget
  exact color?_of_not_renewedIn hkept hcolor

/-- After a confirmed upsert everyone has a colour in a group of two or more that is no larger than
the palette. -/
theorem Indexed.isSome_color?_upsert {b : Board} (h : b.Indexed) {c : Character}
    (hroom : b.hasRoomFor (.character c) = true) (hmany : 1 < (b.groupWith c).length)
    (hfits : (b.groupWith c).length ≤ palette.length) {k : EntityId} (hk : k ∈ b.groupWith c) :
    ((b.upsert .confirmed (.character c)).color? k).isSome = true := by
  have hgroup := h.group_placed_with hroom
  have hwaits : (b.upsert .confirmed (.character c)).awaits k = false := by
    rw [upsert_eq, if_pos hroom, replace_confirmed]
    exact (h.replace .optimistic hroom).not_awaits_colorGroup (hgroup ▸ hk) (hgroup ▸ hmany)
      (hgroup ▸ hfits)
  rw [(h.upsert _ _).awaits_of_mem_group (h.group_with hroom .confirmed ▸ hk)] at hwaits
  simpa [Option.isSome_iff_ne_none] using hwaits

/-- Of two characters of the same contents that are loaded first, the first one has a colour. -/
theorem isSome_color?_ofEntities {c d : Character} (hcontents : c.contents = d.contents)
    (hid : c.id ≠ d.id) (hpos : c.pos ≠ d.pos) {es : List Entity} (hes : ∀ e ∈ es, e.id ≠ c.id) :
    ((ofEntities (.character c :: .character d :: es)).color? c.id).isSome = true := by
  have hempty : empty.hasRoomFor (.character c) = true := rfl
  have hfirst : (empty.upsert .confirmed (.character c)).Indexed := indexed_empty.upsert _ _
  have hgroup : (empty.upsert .confirmed (.character c)).groupWith d = [c.id, d.id] := by
    have halone := indexed_empty.group_with hempty .confirmed
    rw [groupWith, ← hcontents, halone]
    simp [groupWith, group, empty, hid]
  have hroom : (empty.upsert .confirmed (.character c)).hasRoomFor (.character d) = true := by
    rw [hasRoomFor_iff]
    intro p hp k hk
    have hplace := hfirst.occupant_iff.1 hk
    rw [place?_eq_bare?, bare?_upsert hempty] at hplace
    split at hplace
    next =>
      simp only [Option.bind_some, Entity.position?_bare] at hplace
      exact absurd (Option.some.inj (hplace.trans hp.symm)) hpos
    next => cases hplace
  have hboth : (((empty.upsert .confirmed (.character c)).upsert .confirmed
      (.character d)).color? c.id).isSome = true :=
    hfirst.isSome_color?_upsert hroom (by simp [hgroup]) (by simp [hgroup, palette])
      (by simp [hgroup])
  obtain ⟨color, hcolor⟩ := Option.isSome_iff_exists.1 hboth
  rw [ofEntities_eq_applyAll, List.map_cons, List.map_cons, applyAll_cons, applyAll_cons]
  exact Option.isSome_iff_exists.2 ⟨color, color?_confirm_others hes hcolor⟩

/-- Any two entities can come first in a list of all of them. -/
theorem Indexed.exists_perm_toList {b : Board} (h : b.Indexed) {d e : Entity} (hd : d ∈ b.toList)
    (he : e ∈ b.toList) (hne : e.id ≠ d.id) :
    ∃ es, (d :: e :: es).Perm b.toList ∧ ∀ x ∈ es, x.id ≠ d.id := by
  have hmem : e ∈ b.toList.erase d :=
    (List.mem_erase_of_ne fun heq => hne (congrArg Entity.id heq)).2 he
  have hperm : (d :: e :: (b.toList.erase d).erase e).Perm b.toList :=
    ((List.perm_cons_erase hmem).symm.cons d).trans (List.perm_cons_erase hd).symm
  refine ⟨_, hperm, ?_⟩
  have hids := (hperm.map Entity.id).nodup_iff.2 h.nodup_ids
  rw [List.map_cons, List.nodup_cons] at hids
  intro x hx hxd
  exact hids.1 (List.mem_map.2 ⟨x, List.mem_cons_of_mem e hx, hxd⟩)

end Board

namespace Replica

theorem confirmed_load (r : Replica) (es : List Entity) :
    (r.load es).confirmed = .ofEntities es := rfl

/-- A snapshot of a consistent board brings it back, in whatever order its entities are listed,
exactly if every character of which another looks the same has a colour. -/
theorem load_reproduces_iff {b : Board} (h : b.isConsistent = true) (r : Replica) :
    (∀ es : List Entity, es.Perm b.toList → (r.load es).confirmed.sameEntities b = true) ↔
      b.ToldApart := by
  have hb := Board.indexed_of_isConsistent h
  simp only [confirmed_load, Board.sameEntities_iff]
  constructor
  · intro hload i j c d hc hd hcontents hne
    obtain rfl : c.id = i := hb.keyed hc
    obtain rfl : d.id = j := hb.keyed hd
    have hpos : c.pos ≠ d.pos := by
      intro hpos
      exact hne (hb.place_inj (Board.place?_eq_some_iff.2 ⟨_, hc, rfl⟩)
        (Board.place?_eq_some_iff.2 ⟨_, hd, congrArg some hpos.symm⟩))
    have hcmem : .character c ∈ b.toList := hb.mem_toList.2 hc
    have hdmem : .character d ∈ b.toList := hb.mem_toList.2 hd
    obtain ⟨es, hperm, hes⟩ := hb.exists_perm_toList hcmem hdmem hne.symm
    have hgiven := Board.isSome_color?_ofEntities hcontents hne hpos hes
    rw [Board.color?, hload _ hperm, hc] at hgiven
    exact hgiven
  · intro ht es hes id
    exact ((Board.agree_of_perm_toList hb ht hes).1.get?_eq id).symm

/-- Nine goblins of which the last found no colour left. -/
def nineGoblins : Board :=
  .ofEntities ((List.range 9).map fun n => .character (Board.goblinAt n (.ofNat n) none))

/-- In the order of their ids they come back as they were, but not in every order: the last one would
be coloured if it came before the others. -/
theorem load_reproduces_iff_nineGoblins :
    nineGoblins.isConsistent = true ∧
      ((empty 1).load nineGoblins.toList).confirmed.sameEntities nineGoblins = true ∧
      ¬∀ es : List Entity, es.Perm nineGoblins.toList →
        ((empty 1).load es).confirmed.sameEntities nineGoblins = true := by
  have h : nineGoblins.isConsistent = true := by decide
  have hsorted : ((empty 1).load nineGoblins.toList).confirmed.sameEntities nineGoblins = true := by
    decide
  refine ⟨h, hsorted, ?_⟩
  rw [load_reproduces_iff h]
  intro htold
  have hplain : nineGoblins.get? (.ofNat 8) = some (.character (Board.goblinAt 8 8 none)) := by
    decide
  have hred : nineGoblins.get? (.ofNat 0) =
      some (.character (Board.goblinAt 0 0 (some "#D94B4B"))) := by decide
  have hcolored := htold _ _ _ _ hplain hred rfl (by decide)
  cases hcolored

end Replica

end SharedBoard

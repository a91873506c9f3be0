import Mathlib.Data.List.Perm.Subperm
import SharedBoard.Board.Consistency
import SharedBoard.Proofs.Board.Indexed

/-! The consistency check passes on the indexed boards and on no others, which is to say on those whose
maps are exact. What the entities ask of a derived map is a list without repetition; it is part of what
the map holds, and of the same size, so the map holds nothing else. -/
namespace SharedBoard.Board

section Asked

variable {α : Type} (b : Board) (f : Entity → Option α)

/-- What the entities ask a derived map to hold, each under its id. -/
def asked : List (α × EntityId) :=
  b.entities.entries.filterMap fun entry => (f entry.2).map (·, entry.1)

theorem mem_asked {a : α} {id : EntityId} :
    (a, id) ∈ b.asked f ↔ (b.get? id).bind f = some a := by
  simp only [asked, List.mem_filterMap, Option.map_eq_some_iff, Prod.mk.injEq,
    Option.bind_eq_some_iff, get?, SortedMap.find?_eq_some_iff]
  constructor
  · rintro ⟨⟨k, e⟩, hm, a', ha, rfl, rfl⟩
    exact ⟨e, hm, ha⟩
  · rintro ⟨e, hm, ha⟩
    exact ⟨(id, e), hm, a, ha, rfl, rfl⟩

theorem nodup_asked : (b.asked f).Nodup := by
  rw [asked, List.nodup_iff_pairwise_ne, List.pairwise_filterMap]
  apply b.entities.increasing.imp
  intro x y hlt p hp q hq hpq
  obtain ⟨_, _, rfl⟩ := Option.map_eq_some_iff.1 hp
  obtain ⟨_, _, rfl⟩ := Option.map_eq_some_iff.1 hq
  have hkey : x.1 = y.1 := congrArg Prod.snd hpq
  simp [hkey] at hlt

theorem length_asked : (b.asked f).length = (b.entities.values.filterMap f).length := by
  rw [asked, SortedMap.values]
  induction b.entities.entries with
  | nil => rfl
  | cons entry rest ih => cases h : f entry.2 <;> simp [h, ih]

end Asked

/-- The members of all groups, each with its fingerprint. -/
def memberships (b : Board) : List (String × EntityId) :=
  b.groups.entries.flatMap fun entry => entry.2.map (entry.1, ·)

theorem mem_memberships (b : Board) {f : String} {id : EntityId} :
    (f, id) ∈ b.memberships ↔ id ∈ b.group f := by
  simp only [memberships, List.mem_flatMap, List.mem_map, Prod.mk.injEq, group]
  constructor
  · rintro ⟨⟨g, ids⟩, hm, i, hi, rfl, rfl⟩
    simpa [(SortedMap.find?_eq_some_iff _ _ _).2 hm] using hi
  · intro hi
    cases hf : b.groups.find? f with
    | none => simp [hf] at hi
    | some ids =>
      have hm := (SortedMap.find?_eq_some_iff _ _ _).1 hf
      exact ⟨(f, ids), hm, id, by simpa [hf] using hi, rfl, rfl⟩

theorem length_memberships (b : Board) :
    b.memberships.length = b.groups.values.flatten.length := by
  simp [memberships, SortedMap.values, List.length_flatMap, List.length_flatten, Function.comp_def]

/-- The check finds every entity where it should be, and compares sizes. -/
theorem isConsistent_iff_sizes (b : Board) :
    b.isConsistent = true ↔
      (∀ id e, b.get? id = some e → b.isIndexed id e = true) ∧
        (b.asked Entity.position?).length = b.occupants.entries.length ∧
        (b.asked Entity.fingerprint?).length = b.memberships.length ∧
        ∀ f, b.groups.find? f ≠ some [] := by
  have hentries : (∀ entry ∈ b.entities.entries, b.isIndexed entry.1 entry.2 = true) ↔
      ∀ id e, b.get? id = some e → b.isIndexed id e = true := by
    simp only [get?, SortedMap.find?_eq_some_iff, Prod.forall]
  have hgroups : (∀ ids ∈ b.groups.values, (!ids.isEmpty) = true) ↔
      ∀ f, b.groups.find? f ≠ some [] := by
    simp only [SortedMap.values, List.mem_map, Prod.exists, exists_eq_right, ne_eq,
      SortedMap.find?_eq_some_iff, Bool.not_eq_true', List.isEmpty_eq_false_iff]
    constructor
    · intro h f hf
      exact h [] ⟨f, hf⟩ rfl
    · rintro h ids ⟨f, hf⟩ rfl
      exact h f hf
  rw [isConsistent, Bool.and_eq_true, Bool.and_eq_true, Bool.and_eq_true, List.all_eq_true,
    List.all_eq_true, beq_iff_eq, beq_iff_eq, hentries, hgroups, length_asked, length_asked,
    length_memberships, SortedMap.size, and_assoc, and_assoc]

theorem isIndexed_iff {b : Board} {id : EntityId} {e : Entity} (he : b.get? id = some e) :
    b.isIndexed id e = true ↔
      e.id = id ∧ (∀ p, b.place? id = some p → b.occupants.find? p = some id) ∧
        ∀ f, b.look? id = some f → id ∈ b.group f := by
  rw [place?_eq_of_get? he, look?_eq_of_get? he, isIndexed, Bool.and_eq_true, Bool.and_eq_true,
    Option.all_eq_true, Option.all_eq_true, beq_iff_eq, and_assoc]
  simp only [beq_iff_eq, List.contains_iff_mem]

namespace Indexed

variable {b : Board} (h : b.Indexed)
include h

theorem perm_occupants : (b.asked Entity.position?).Perm b.occupants.entries := by
  apply (List.perm_ext_iff_of_nodup (b.nodup_asked _) b.occupants.nodup_entries).2
  rintro ⟨p, id⟩
  rw [mem_asked, ← SortedMap.find?_eq_some_iff]
  exact h.occupant_iff.symm

theorem nodup_memberships : b.memberships.Nodup := by
  rw [memberships, List.nodup_iff_pairwise_ne, List.pairwise_flatMap]
  constructor
  · rintro ⟨f, ids⟩ hm
    have hids : b.group f = ids := by
      simp [group, (SortedMap.find?_eq_some_iff _ _ _).2 hm]
    have hnodup : ids.Nodup := hids ▸ h.nodup_group f
    rw [List.pairwise_map]
    exact (List.nodup_iff_pairwise_ne.1 hnodup).imp fun hne he => hne (congrArg Prod.snd he)
  · apply b.groups.increasing.imp
    intro x y hlt p hp q hq hpq
    obtain ⟨_, _, rfl⟩ := List.mem_map.1 hp
    obtain ⟨_, _, rfl⟩ := List.mem_map.1 hq
    have hkey : x.1 = y.1 := (Prod.mk.inj hpq).1
    simp [hkey] at hlt

theorem perm_memberships : (b.asked Entity.fingerprint?).Perm b.memberships := by
  apply (List.perm_ext_iff_of_nodup (b.nodup_asked _) h.nodup_memberships).2
  rintro ⟨f, id⟩
  rw [mem_asked, mem_memberships]
  exact h.mem_group_iff.symm

theorem isConsistent : b.isConsistent = true := by
  refine (isConsistent_iff_sizes b).2 ⟨?_, h.perm_occupants.length_eq,
    h.perm_memberships.length_eq, h.group_nonempty⟩
  intro id e he
  exact (isIndexed_iff he).2 ⟨h.keyed he, fun _ => h.occupant_iff.2, fun _ => h.mem_group_iff.2⟩

end Indexed

theorem indexed_of_isConsistent {b : Board} (h : b.isConsistent = true) : b.Indexed := by
  obtain ⟨hentries, hplaces, hmembers, hnonempty⟩ := (isConsistent_iff_sizes b).1 h
  have hchecks {id e} (he : b.get? id = some e) := (isIndexed_iff he).1 (hentries id e he)
  have hfilled : b.asked Entity.position? ⊆ b.occupants.entries := by
    rintro ⟨p, id⟩ hp
    rw [mem_asked] at hp
    obtain ⟨e, he, -⟩ := Option.bind_eq_some_iff.1 hp
    exact (SortedMap.find?_eq_some_iff _ _ _).1 ((hchecks he).2.1 p hp)
  have hgrouped : b.asked Entity.fingerprint? ⊆ b.memberships := by
    rintro ⟨f, id⟩ hf
    rw [mem_asked] at hf
    obtain ⟨e, he, -⟩ := Option.bind_eq_some_iff.1 hf
    exact (mem_memberships b).2 ((hchecks he).2.2 f hf)
  have hoccupants : (b.asked Entity.position?).Perm b.occupants.entries :=
    (List.subperm_of_subset (b.nodup_asked _) hfilled).perm_of_length_le (by omega)
  have hgroups : (b.asked Entity.fingerprint?).Perm b.memberships :=
    (List.subperm_of_subset (b.nodup_asked _) hgrouped).perm_of_length_le (by omega)
  have hnodup : b.memberships.Nodup := hgroups.nodup_iff.1 (b.nodup_asked _)
  refine ⟨fun he => (hchecks he).1, ?_, ?_, ?_, hnonempty⟩
  · intro p id
    rw [SortedMap.find?_eq_some_iff, ← hoccupants.mem_iff, mem_asked]
    rfl
  · intro f id
    rw [← mem_memberships, ← hgroups.mem_iff, mem_asked]
    rfl
  · intro f
    rw [group]
    cases hf : b.groups.find? f with
    | none => exact .nil
    | some ids =>
      have hentry := (SortedMap.find?_eq_some_iff _ _ _).1 hf
      rw [memberships, List.nodup_iff_pairwise_ne, List.pairwise_flatMap] at hnodup
      have hids := hnodup.1 _ hentry
      rw [List.pairwise_map] at hids
      exact hids.imp fun hne he => hne (congrArg (Prod.mk f) he)

/-- What the three maps of a board hold when they say neither more nor less than its entities. -/
structure Exact (b : Board) : Prop where
  /-- Every entity is stored under its own id. -/
  keyed : ∀ id e, b.get? id = some e → e.id = id
  /-- The positions are those of the entities that are no pings, each with the id of its entity. -/
  occupants : ∀ p id, b.occupants.find? p = some id ↔
    ∃ e, b.get? id = some e ∧ e.isPing = false ∧ e.position? = some p
  /-- There is a group for each appearance of a stored character, and there are no others. -/
  appearances : ∀ f, (∃ ids, b.groups.find? f = some ids) ↔
    ∃ id c, b.get? id = some (.character c) ∧ c.contents.fingerprint = f
  /-- A group lists the characters of its appearance, each once. -/
  members : ∀ f ids, b.groups.find? f = some ids →
    ids.Nodup ∧ ∀ id, id ∈ ids ↔ ∃ c, b.get? id = some (.character c) ∧ c.contents.fingerprint = f

theorem place?_eq_some_iff_token {b : Board} {id : EntityId} {p : Position} :
    b.place? id = some p ↔ ∃ e, b.get? id = some e ∧ e.isPing = false ∧ e.position? = some p := by
  rw [place?_eq_some_iff]
  apply exists_congr
  intro e
  cases e <;> simp [Entity.isPing, Entity.position?]

theorem group_of_find? {b : Board} {f : String} {ids : List EntityId}
    (h : b.groups.find? f = some ids) : b.group f = ids := by rw [group, h, Option.getD_some]

theorem Indexed.exact {b : Board} (h : b.Indexed) : b.Exact where
  keyed _ _ := h.keyed
  occupants p id := h.occupant_iff.trans place?_eq_some_iff_token
  appearances f := by
    simp only [← look?_eq_some_iff, ← h.mem_group_iff]
    constructor
    · rintro ⟨ids, hids⟩
      have hne : ids ≠ [] := fun hnil => h.group_nonempty f (hnil ▸ hids)
      rw [group_of_find? hids]
      exact List.exists_mem_of_ne_nil ids hne
    · rintro ⟨id, hid⟩
      cases hf : b.groups.find? f with
      | none => simp [group, hf] at hid
      | some ids => exact ⟨ids, rfl⟩
  members f ids hids := by
    rw [← group_of_find? hids]
    refine ⟨h.nodup_group f, fun id => ?_⟩
    rw [← look?_eq_some_iff]
    exact h.mem_group_iff

theorem Exact.indexed {b : Board} (h : b.Exact) : b.Indexed where
  keyed := h.keyed _ _
  occupant_iff := (h.occupants _ _).trans place?_eq_some_iff_token.symm
  mem_group_iff {f id} := by
    rw [look?_eq_some_iff]
    cases hf : b.groups.find? f with
    | none =>
      have hnone : ¬∃ c, b.get? id = some (.character c) ∧ c.contents.fingerprint = f := by
        intro hc
        obtain ⟨ids, hids⟩ := (h.appearances f).2 ⟨id, hc⟩
        simp [hf] at hids
      simp [group, hf, hnone]
    | some ids =>
      rw [group_of_find? hf]
      exact (h.members f ids hf).2 id
  nodup_group f := by
    cases hf : b.groups.find? f with
    | none => simp [group, hf]
    | some ids =>
      rw [group_of_find? hf]
      exact (h.members f ids hf).1
  group_nonempty f hf := by
    obtain ⟨id, hc⟩ := (h.appearances f).1 ⟨[], hf⟩
    exact List.not_mem_nil (((h.members f [] hf).2 id).2 hc)

/-- The check is exact on every three maps, whatever they hold: it passes if and only if each entity is
stored under its own id, the positions are those that the tokens fill, and the groups list the
characters of each appearance once. -/
theorem isConsistent_iff_exact (b : Board) : b.isConsistent = true ↔ b.Exact := by
  constructor
  · intro hpasses
    exact (indexed_of_isConsistent hpasses).exact
  · intro hexact
    exact hexact.indexed.isConsistent

/-- A group that lists one character twice and leaves out another has the right size. -/
example :
    let first : Character := ⟨.ofNat 1, ⟨0, 0, 0⟩, .icon "orc", none⟩
    let second : Character := ⟨.ofNat 2, ⟨1, 0, 0⟩, .icon "orc", none⟩
    let b := (empty.link (.character first)).link (.character second)
    let spoilt := { b with groups := b.groups.insert "icon:orc" [first.id, first.id] }
    b.isConsistent = true ∧ spoilt.isConsistent = false := by decide

end SharedBoard.Board

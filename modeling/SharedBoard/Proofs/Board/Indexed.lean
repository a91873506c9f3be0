import SharedBoard.Action
import SharedBoard.Proofs.Board.Colors

/-! The representation invariant of a board: the filled positions and the groups say what the
entities say, and nothing else. Every change keeps it. -/
namespace SharedBoard.Board

/-- The position that is filled under an id. -/
def place? (b : Board) (id : EntityId) : Option Position := (b.get? id).bind Entity.position?

/-- The appearance that is grouped under an id. -/
def look? (b : Board) (id : EntityId) : Option String := (b.get? id).bind Entity.fingerprint?

structure Indexed (b : Board) : Prop where
  keyed : ∀ {id e}, b.get? id = some e → e.id = id
  occupant_iff : ∀ {p id}, b.occupants.find? p = some id ↔ b.place? id = some p
  mem_group_iff : ∀ {f id}, id ∈ b.group f ↔ b.look? id = some f
  nodup_group : ∀ f, (b.group f).Nodup
  group_nonempty : ∀ f, b.groups.find? f ≠ some []

theorem indexed_empty : empty.Indexed where
  keyed h := by simp at h
  occupant_iff := by simp [empty, place?, get?]
  mem_group_iff := by simp [empty, look?, get?, group]
  nodup_group f := by simp [empty, group]
  group_nonempty f := by simp [empty]

/-- Two entities that fill one position are one. -/
theorem Indexed.place_inj {b : Board} (h : b.Indexed) {p : Position} {i j : EntityId}
    (hi : b.place? i = some p) (hj : b.place? j = some p) : i = j := by
  have hi := h.occupant_iff.2 hi
  rw [h.occupant_iff.2 hj] at hi
  exact (Option.some.inj hi).symm

theorem place?_eq_of_get? {b : Board} {id : EntityId} {e : Entity} (h : b.get? id = some e) :
    b.place? id = e.position? := by simp [place?, h]

theorem look?_eq_of_get? {b : Board} {id : EntityId} {e : Entity} (h : b.get? id = some e) :
    b.look? id = e.fingerprint? := by simp [look?, h]

theorem place?_eq_some_iff {b : Board} {id : EntityId} {p : Position} :
    b.place? id = some p ↔ ∃ e, b.get? id = some e ∧ e.position? = some p :=
  Option.bind_eq_some_iff

theorem look?_eq_some_iff {b : Board} {id : EntityId} {f : String} :
    b.look? id = some f ↔ ∃ c, b.get? id = some (.character c) ∧ c.contents.fingerprint = f := by
  rw [look?, Option.bind_eq_some_iff]
  constructor
  · rintro ⟨e, he, hf⟩
    cases e with
    | character c => exact ⟨c, he, Option.some.inj hf⟩
    | floor _ => cases hf
    | ping _ => cases hf
  · rintro ⟨c, hc, hf⟩
    exact ⟨_, hc, congrArg some hf⟩

@[simp] theorem place?_delete (b : Board) (id k : EntityId) :
    (b.delete id).place? k = if k = id then none else b.place? k := by
  rw [place?, get?_delete]
  split <;> rfl

@[simp] theorem look?_delete (b : Board) (id k : EntityId) :
    (b.delete id).look? k = if k = id then none else b.look? k := by
  rw [look?, get?_delete]
  split <;> rfl

section Unlink

variable (b : Board) (id : EntityId)

theorem find?_leaveGroup (groups : SortedMap String (List EntityId)) (f g : String) :
    ((leaveGroup groups f id).find? g).getD [] =
      if g = f then ((groups.find? f).getD []).filter (· != id)
      else (groups.find? g).getD [] := by
  cases hf : groups.find? f with
  | none =>
    by_cases hg : g = f
    · simp [leaveGroup, hg, hf]
    · simp [leaveGroup, hg, hf]
  | some members =>
    simp only [leaveGroup, hf]
    by_cases hg : g = f
    · subst hg
      split
      next he => simp [he]
      next rest _ => simp
    · split
      next => simp [SortedMap.find?_erase_of_ne _ hg, hg]
      next => simp [SortedMap.find?_insert_of_ne _ hg, hg]

theorem leaveGroup_nonempty {groups : SortedMap String (List EntityId)}
    (h : ∀ g, groups.find? g ≠ some []) (f g : String) :
    (leaveGroup groups f id).find? g ≠ some [] := by
  unfold leaveGroup
  split
  next => exact h g
  next members _ =>
    split
    next =>
      rw [SortedMap.find?_erase]
      split
      · simp
      · exact h g
    next hne =>
      rw [SortedMap.find?_insert]
      split
      · intro he
        exact hne (Option.some.inj he)
      · exact h g

end Unlink

section Delete

variable {b : Board} (h : b.Indexed) (id : EntityId)
include h

theorem Indexed.find?_occupants_delete (p : Position) :
    (b.delete id).occupants.find? p =
      if b.place? id = some p then none else b.occupants.find? p := by
  cases he : b.get? id with
  | none => simp [delete_eq, he, place?]
  | some e =>
    simp only [delete_eq, he, Option.elim_some, unlink, place?_eq_of_get? he]
    cases hp : e.position? with
    | none => simp
    | some q =>
      have hq : b.occupants.find? q = some id := h.occupant_iff.2 (by simp [place?, he, hp])
      simp only [Option.elim_some, vacate, hq, if_true, SortedMap.find?_erase]
      by_cases hpq : p = q
      · simp [hpq]
      · simp [hpq, Ne.symm hpq]

/-- An id leaves the one group that holds it; in the others the filter finds nothing. -/
theorem Indexed.group_delete (f : String) :
    (b.delete id).group f = (b.group f).filter (· != id) := by
  have hout : b.look? id ≠ some f → (b.group f).filter (· != id) = b.group f := by
    intro hl
    apply List.filter_eq_self.2
    intro i hi
    have hne : i ≠ id := by
      rintro rfl
      exact hl (h.mem_group_iff.1 hi)
    simpa using hne
  cases he : b.get? id with
  | none =>
    rw [hout (by simp [look?, he])]
    simp [delete_eq, he]
  | some e =>
    have hlook := look?_eq_of_get? he
    simp only [delete_eq, he, Option.elim_some, unlink, group]
    cases hf : e.fingerprint? with
    | none => exact (hout (by simp [hlook, hf])).symm
    | some g =>
      simp only [Option.elim_some, find?_leaveGroup]
      by_cases hfg : f = g
      · simp [hfg]
      · rw [if_neg hfg]
        exact (hout (by simpa [hlook, hf] using Ne.symm hfg)).symm

theorem Indexed.delete : (b.delete id).Indexed where
  keyed {k e} hk := by
    rw [get?_delete] at hk
    split at hk
    · cases hk
    · exact h.keyed hk
  occupant_iff {p k} := by
    rw [h.find?_occupants_delete, place?_delete]
    by_cases hp : b.place? id = some p
    · by_cases hk : k = id
      · simp [hk, hp]
      · have hno : b.place? k ≠ some p := fun hkp => hk (h.place_inj hkp hp)
        simp [hp, hk, hno]
    · by_cases hk : k = id
      · have hno : b.occupants.find? p ≠ some id := fun ho => hp (h.occupant_iff.1 ho)
        simp [hp, hk, hno]
      · simp [hp, hk, h.occupant_iff]
  mem_group_iff {f k} := by
    rw [h.group_delete, look?_delete]
    by_cases hk : k = id
    · simp [hk]
    · simp [hk, h.mem_group_iff]
  nodup_group f := by
    rw [h.group_delete]
    exact (h.nodup_group f).filter _
  group_nonempty f := by
    cases he : b.get? id with
    | none => simpa [delete_eq, he] using h.group_nonempty f
    | some e =>
      simp only [delete_eq, he, Option.elim_some, unlink]
      cases e.fingerprint? with
      | none => exact h.group_nonempty f
      | some g => exact leaveGroup_nonempty id h.group_nonempty g f

end Delete

section Link

variable {b : Board} {e : Entity}

@[simp] theorem place?_link (k : EntityId) :
    (b.link e).place? k = if k = e.id then e.position? else b.place? k := by
  rw [place?, get?_link]
  split <;> rfl

@[simp] theorem look?_link (k : EntityId) :
    (b.link e).look? k = if k = e.id then e.fingerprint? else b.look? k := by
  rw [look?, get?_link]
  split <;> rfl

theorem find?_occupants_link (p : Position) :
    (b.link e).occupants.find? p =
      if e.position? = some p then some e.id else b.occupants.find? p := by
  cases hq : e.position? with
  | none => simp [link, hq]
  | some q =>
    simp only [link, hq, Option.elim_some, SortedMap.find?_insert, Option.some.injEq]
    by_cases hpq : p = q
    · simp [hpq]
    · simp [hpq, Ne.symm hpq]

theorem group_link (f : String) :
    (b.link e).group f =
      if e.fingerprint? = some f then b.group f ++ [e.id] else b.group f := by
  cases hg : e.fingerprint? with
  | none => simp [link, hg, group]
  | some g =>
    simp only [link, hg, Option.elim_some, group, SortedMap.find?_insert, Option.some.injEq]
    by_cases hfg : f = g
    · simp [hfg]
    · simp [hfg, Ne.symm hfg]

theorem Indexed.not_mem_group (h : b.Indexed) {id : EntityId} (hnew : b.get? id = none)
    (f : String) : id ∉ b.group f := by
  rw [h.mem_group_iff, look?, hnew]
  exact Option.some_ne_none f ∘ Eq.symm

/-- An entity joins the maps under a new id and at a free position. -/
theorem Indexed.link (h : b.Indexed) (hnew : b.get? e.id = none)
    (hfree : ∀ p, e.position? = some p → b.occupants.find? p = none) : (b.link e).Indexed where
  keyed {k e'} hk := by
    rw [get?_link] at hk
    split at hk
    next he => cases hk; exact he.symm
    next => exact h.keyed hk
  occupant_iff {p k} := by
    have hplace : b.place? e.id = none := by simp [place?, hnew]
    have hself : b.occupants.find? p ≠ some e.id := fun ho => by
      simp [h.occupant_iff.1 ho] at hplace
    rw [find?_occupants_link, place?_link]
    by_cases hp : e.position? = some p
    · have hno : b.place? k ≠ some p := fun hk => by
        have ho := h.occupant_iff.2 hk
        simp [hfree p hp] at ho
      by_cases hk : k = e.id
      · simp [hp, hk]
      · simp [hp, hk, hno, Ne.symm hk]
    · by_cases hk : k = e.id
      · simp [hp, hk, hself]
      · simp [hp, hk, h.occupant_iff]
  mem_group_iff {f k} := by
    have hout := h.not_mem_group hnew f
    rw [group_link, look?_link]
    by_cases hf : e.fingerprint? = some f
    · by_cases hk : k = e.id
      · simp [hf, hk]
      · simp [hf, hk, h.mem_group_iff]
    · by_cases hk : k = e.id
      · simp [hf, hk, hout]
      · simp [hf, hk, h.mem_group_iff]
  nodup_group f := by
    have hout := h.not_mem_group hnew f
    rw [group_link]
    split
    · rw [List.nodup_append]
      refine ⟨h.nodup_group f, by simp, ?_⟩
      rintro i hi _ hj rfl
      exact hout (List.mem_singleton.1 hj ▸ hi)
    · exact h.nodup_group f
  group_nonempty f := by
    simp only [Board.link]
    cases e.fingerprint? with
    | none => exact h.group_nonempty f
    | some g =>
      simp only [Option.elim_some, SortedMap.find?_insert]
      split
      · simp
      · exact h.group_nonempty f

end Link

section Upsert

variable {b b' : Board}

theorem GainsColors.place?_eq (h : b.GainsColors b') (id : EntityId) :
    b'.place? id = b.place? id := by
  have hb := congrArg (Option.bind · Entity.position?) (h.bare_eq id)
  simpa [bare?, place?, Option.bind_map, Function.comp_def] using hb

theorem GainsColors.look?_eq (h : b.GainsColors b') (id : EntityId) :
    b'.look? id = b.look? id := by
  have hb := congrArg (Option.bind · Entity.fingerprint?) (h.bare_eq id)
  simpa [bare?, look?, Option.bind_map, Function.comp_def] using hb

/-- The maps do not depend on colours. -/
theorem Indexed.of_gainsColors (h : b.Indexed) (hc : b.GainsColors b')
    (ho : b'.occupants = b.occupants) (hg : b'.groups = b.groups) : b'.Indexed where
  keyed {id e'} he' := by
    have hb := hc.bare_eq id
    rw [bare?, he', Option.map_some, bare?, eq_comm, Option.map_eq_some_iff] at hb
    obtain ⟨e, he, hee⟩ := hb
    rw [← Entity.id_bare, ← hee, Entity.id_bare]
    exact h.keyed he
  occupant_iff {p id} := by rw [ho, hc.place?_eq]; exact h.occupant_iff
  mem_group_iff {f id} := by rw [group, hg, hc.look?_eq]; exact h.mem_group_iff
  nodup_group f := by rw [group, hg]; exact h.nodup_group f
  group_nonempty f := by rw [hg]; exact h.group_nonempty f

theorem Indexed.colorGroup (h : b.Indexed) (f : String) : (b.colorGroup f).Indexed :=
  h.of_gainsColors (gainsColors_colorGroup b f) (by simp) (by simp)

theorem replace_optimistic (b : Board) (e : Entity) :
    b.replace .optimistic e = (b.delete e.id).link (e.inheritColor (b.get? e.id)) := by
  rw [← remove_snd]
  rfl

theorem replace_confirmed (b : Board) (e : Entity) :
    b.replace .confirmed e =
      e.fingerprint?.elim (b.replace .optimistic e) (b.replace .optimistic e).colorGroup := by
  simp only [replace, Entity.fingerprint?_inheritColor]
  cases e.fingerprint? <;> rfl

/-- A confirmed change is the optimistic one, and colours on top. -/
theorem gainsColors_replace (b : Board) (s : Standing) (e : Entity) :
    (b.replace .optimistic e).GainsColors (b.replace s e) := by
  cases s with
  | optimistic => exact .refl _
  | confirmed =>
    rw [replace_confirmed]
    cases e.fingerprint? with
    | none => exact .refl _
    | some f => exact gainsColors_colorGroup _ f

theorem hasRoomFor_iff {e : Entity} :
    b.hasRoomFor e = true ↔
      ∀ p, e.position? = some p → ∀ id, b.occupants.find? p = some id → id = e.id := by
  cases hp : e.position? with
  | none => simp [hasRoomFor, hp]
  | some q => simp [hasRoomFor, hp, Option.all_eq_true]

theorem Indexed.replace (h : b.Indexed) (s : Standing) {e : Entity}
    (hroom : b.hasRoomFor e = true) : (b.replace s e).Indexed := by
  have hplaced : (b.replace .optimistic e).Indexed := by
    rw [replace_optimistic]
    apply (h.delete e.id).link
    · simp [get?_delete]
    · intro p hp
      rw [Entity.position?_inheritColor] at hp
      rw [h.find?_occupants_delete]
      split
      next => rfl
      next hne =>
        cases ho : b.occupants.find? p with
        | none => rfl
        | some id =>
          have hid := hasRoomFor_iff.1 hroom p hp id ho
          exact absurd (h.occupant_iff.1 ho) (hid ▸ hne)
  cases s with
  | optimistic => exact hplaced
  | confirmed =>
    rw [replace_confirmed]
    cases e.fingerprint? with
    | none => exact hplaced
    | some f => exact hplaced.colorGroup f

theorem Indexed.upsert (h : b.Indexed) (s : Standing) (e : Entity) : (b.upsert s e).Indexed := by
  rw [upsert_eq]
  split
  next hroom => exact h.replace s hroom
  next => exact h

theorem Indexed.apply (h : b.Indexed) (s : Standing) (a : Action) : (b.apply s a).Indexed := by
  cases a with
  | upsert e => exact h.upsert s e
  | delete id => exact h.delete id
  | ping p => exact h.upsert s (.ping p)

theorem Indexed.applyAll (h : b.Indexed) (s : Standing) (as : List Action) :
    (b.applyAll s as).Indexed := by
  induction as generalizing b with
  | nil => exact h
  | cons a as ih => exact ih (h.apply s a)

end Upsert

end SharedBoard.Board

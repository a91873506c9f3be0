import Mathlib.Data.List.Induction
import SharedBoard.Proofs.Board.Consistency

/-! Boards as results of changes. Along every history of upserts and deletes the derived maps follow
the entities, and a group lists its members by when they were last placed. -/
namespace SharedBoard

inductive Change where
  | upsert (s : Standing) (e : Entity)
  | delete (id : EntityId)
  deriving DecidableEq

/-- What an action does to a board, as a change. -/
def Change.ofAction (s : Standing) : Action → Change
  | .upsert e => .upsert s e
  | .delete id => .delete id
  | .ping p => .upsert s (.ping p)

namespace Board

def change (b : Board) : Change → Board
  | .upsert s e => b.upsert s e
  | .delete id => b.delete id

def changeAll (b : Board) (cs : List Change) : Board := cs.foldl change b

theorem changeAll_append (b : Board) (cs ds : List Change) :
    b.changeAll (cs ++ ds) = (b.changeAll cs).changeAll ds := List.foldl_append

theorem changeAll_concat (b : Board) (cs : List Change) (c : Change) :
    b.changeAll (cs ++ [c]) = (b.changeAll cs).change c := changeAll_append b cs [c]

theorem applyAll_eq_changeAll (b : Board) (s : Standing) (as : List Action) :
    b.applyAll s as = b.changeAll (as.map (Change.ofAction s)) := by
  induction as generalizing b with
  | nil => rfl
  | cons a as ih =>
    have hstep : b.apply s a = b.change (.ofAction s a) := by cases a <;> rfl
    rw [applyAll_cons, ih, hstep]
    rfl

theorem ofEntities_eq_changeAll (es : List Entity) :
    ofEntities es = empty.changeAll (es.map (Change.upsert .confirmed)) := by
  rw [ofEntities, changeAll, List.foldl_map]
  rfl

theorem Indexed.change {b : Board} (h : b.Indexed) (c : Change) : (b.change c).Indexed := by
  cases c with
  | upsert s e => exact h.upsert s e
  | delete id => exact h.delete id

theorem Indexed.changeAll {b : Board} (h : b.Indexed) (cs : List Change) :
    (b.changeAll cs).Indexed := by
  induction cs generalizing b with
  | nil => exact h
  | cons c cs ih => exact ih (h.change c)

/-- In a history that starts from the empty board, the change numbered `n` puts an entity under an
id: it is an upsert for that id, and the reply is that it found room. -/
def PlacedAt (cs : List Change) (n : Nat) (id : EntityId) : Prop :=
  ∃ s e, cs[n]? = some (.upsert s e) ∧ e.id = id ∧
    ((empty.changeAll (cs.take n)).place s e).2 = true

def LastPlacedAt (cs : List Change) (n : Nat) (id : EntityId) : Prop :=
  PlacedAt cs n id ∧ ∀ m, PlacedAt cs m id → m ≤ n

def LastPlacedBefore (cs : List Change) (i j : EntityId) : Prop :=
  ∃ m n, LastPlacedAt cs m i ∧ LastPlacedAt cs n j ∧ m < n

section History

variable {cs : List Change} {c : Change} {n : Nat} {id : EntityId}

theorem PlacedAt.lt_length (h : PlacedAt cs n id) : n < cs.length := by
  obtain ⟨s, e, hget, -⟩ := h
  exact (List.getElem?_eq_some_iff.1 hget).1

theorem placedAt_concat_of_lt (hn : n < cs.length) :
    PlacedAt (cs ++ [c]) n id ↔ PlacedAt cs n id := by
  rw [PlacedAt, List.getElem?_append_left hn, List.take_append_of_le_length (Nat.le_of_lt hn),
    PlacedAt]

theorem placedAt_concat_length :
    PlacedAt (cs ++ [c]) cs.length id ↔
      ∃ s e, c = .upsert s e ∧ e.id = id ∧ (empty.changeAll cs).hasRoomFor e = true := by
  simp [PlacedAt, place_snd]

theorem lastPlacedAt_concat_length (h : PlacedAt (cs ++ [c]) cs.length id) :
    LastPlacedAt (cs ++ [c]) cs.length id := by
  refine ⟨h, ?_⟩
  intro m hm
  have hlt := hm.lt_length
  rw [List.length_append, List.length_singleton] at hlt
  omega

theorem LastPlacedAt.concat (h : LastPlacedAt cs n id) (hc : ¬PlacedAt (cs ++ [c]) cs.length id) :
    LastPlacedAt (cs ++ [c]) n id := by
  refine ⟨(placedAt_concat_of_lt h.1.lt_length).2 h.1, ?_⟩
  intro m hm
  have hlt := hm.lt_length
  rw [List.length_append, List.length_singleton] at hlt
  by_cases heq : m = cs.length
  · exact absurd (heq ▸ hm) hc
  · exact h.2 m ((placedAt_concat_of_lt (by omega)).1 hm)

end History

/-- Members of a group in the order of their last placing, each with one. -/
def Ordered (cs : List Change) (ids : List EntityId) : Prop :=
  ids.Pairwise (LastPlacedBefore cs) ∧ ∀ id ∈ ids, ∃ n, LastPlacedAt cs n id

theorem Ordered.filter {cs : List Change} {ids : List EntityId} (h : Ordered cs ids)
    (p : EntityId → Bool) : Ordered cs (ids.filter p) :=
  ⟨h.1.filter p, fun id hid => h.2 id (List.mem_filter.1 hid).1⟩

/-- A change leaves the order of those whom it does not place. -/
theorem Ordered.concat {cs : List Change} {c : Change} {ids : List EntityId} (h : Ordered cs ids)
    (hc : ∀ id ∈ ids, ¬PlacedAt (cs ++ [c]) cs.length id) : Ordered (cs ++ [c]) ids := by
  constructor
  · refine h.1.imp_of_mem ?_
    rintro i j hi hj ⟨m, n, hm, hn, hlt⟩
    exact ⟨m, n, hm.concat (hc i hi), hn.concat (hc j hj), hlt⟩
  · intro id hid
    obtain ⟨n, hn⟩ := h.2 id hid
    exact ⟨n, hn.concat (hc id hid)⟩

/-- Whom a change places comes last. -/
theorem Ordered.concat_placed {cs : List Change} {c : Change} {ids : List EntityId} {id : EntityId}
    (h : Ordered (cs ++ [c]) ids) (hid : PlacedAt (cs ++ [c]) cs.length id)
    (hc : ∀ i ∈ ids, ¬PlacedAt (cs ++ [c]) cs.length i) :
    Ordered (cs ++ [c]) (ids ++ [id]) := by
  have hlast := lastPlacedAt_concat_length hid
  constructor
  · rw [List.pairwise_append]
    refine ⟨h.1, List.pairwise_singleton _ _, ?_⟩
    intro i hi j hj
    rw [List.mem_singleton.1 hj]
    obtain ⟨n, hn⟩ := h.2 i hi
    have hlt := hn.1.lt_length
    rw [List.length_append, List.length_singleton] at hlt
    have hne : n ≠ cs.length := by
      rintro rfl
      exact hc i hi hn.1
    exact ⟨n, cs.length, hn, hlast, by omega⟩
  · intro i hi
    rcases List.mem_append.1 hi with hi | hi
    · exact h.2 i hi
    · exact ⟨cs.length, List.mem_singleton.1 hi ▸ hlast⟩

theorem Indexed.group_upsert {b : Board} (h : b.Indexed) (s : Standing) {e : Entity}
    (hroom : b.hasRoomFor e = true) (f : String) :
    (b.upsert s e).group f =
      (b.group f).filter (· != e.id) ++ if e.fingerprint? = some f then [e.id] else [] := by
  have hgroups : (b.upsert s e).group f = (b.replace .optimistic e).group f := by
    rw [upsert_eq, if_pos hroom]
    cases s with
    | optimistic => rfl
    | confirmed =>
      rw [replace_confirmed]
      cases e.fingerprint? <;> simp [group]
  rw [hgroups, replace_optimistic, group_link, h.group_delete]
  by_cases hf : e.fingerprint? = some f <;> simp [hf]

theorem Indexed.group_placed {b : Board} (h : b.Indexed) {e : Entity}
    (hroom : b.hasRoomFor e = true) (f : String) :
    (b.replace .optimistic e).group f =
      (b.group f).filter (· != e.id) ++ if e.fingerprint? = some f then [e.id] else [] := by
  have hgroup := h.group_upsert .optimistic hroom f
  rwa [upsert_eq, if_pos hroom] at hgroup

/-- Every group of a board is in the order of its history. -/
theorem ordered_group (cs : List Change) (f : String) :
    Ordered cs ((empty.changeAll cs).group f) := by
  induction cs using List.reverseRecOn with
  | nil => exact ⟨.nil, fun id hid => nomatch hid⟩
  | append_singleton cs c ih =>
    have hb : (empty.changeAll cs).Indexed := indexed_empty.changeAll cs
    rw [changeAll_concat]
    cases c with
    | delete id =>
      have hnone : ∀ i, ¬PlacedAt (cs ++ [.delete id]) cs.length i := by
        intro i hi
        obtain ⟨s, e, hc, -⟩ := placedAt_concat_length.1 hi
        cases hc
      rw [change, hb.group_delete]
      exact (ih.filter _).concat fun i _ => hnone i
    | upsert s e =>
      by_cases hroom : (empty.changeAll cs).hasRoomFor e = true
      · have hplaced : PlacedAt (cs ++ [.upsert s e]) cs.length e.id :=
          placedAt_concat_length.2 ⟨s, e, rfl, rfl, hroom⟩
        have hothers : ∀ i ∈ ((empty.changeAll cs).group f).filter (· != e.id),
            ¬PlacedAt (cs ++ [.upsert s e]) cs.length i := by
          intro i hi hp
          obtain ⟨s', e', hc, hid, -⟩ := placedAt_concat_length.1 hp
          cases hc
          simp [hid] at hi
        have hrest := (ih.filter (· != e.id)).concat hothers
        rw [change, hb.group_upsert s hroom]
        split
        · exact hrest.concat_placed hplaced hothers
        · simpa using hrest
      · have hnone : ∀ i, ¬PlacedAt (cs ++ [.upsert s e]) cs.length i := by
          intro i hi
          obtain ⟨s', e', hc, -, hr⟩ := placedAt_concat_length.1 hi
          cases hc
          exact hroom hr
        rw [change, upsert_eq, if_neg hroom]
        exact ih.concat fun i _ => hnone i

/-- What a board promises along its history: each entity stands under its own id, the filled
positions are those of the entities other than pings, one entity each, and a group lists the
characters of one appearance, each once, by when they were last placed. -/
structure Coherent (b : Board) (cs : List Change) : Prop where
  keyed : ∀ id e, b.get? id = some e → e.id = id
  occupant_iff : ∀ p id,
    b.occupants.find? p = some id ↔ ∃ e, b.get? id = some e ∧ e.position? = some p
  one_per_position : ∀ p i j d e, b.get? i = some d → b.get? j = some e →
    d.position? = some p → e.position? = some p → i = j
  mem_group_iff : ∀ f id,
    id ∈ b.group f ↔ ∃ c, b.get? id = some (.character c) ∧ c.contents.fingerprint = f
  mem_group_of_contents_iff : ∀ (contents : Contents) id,
    id ∈ b.group contents.fingerprint ↔ ∃ c, b.get? id = some (.character c) ∧ c.contents = contents
  nodup_group : ∀ f, (b.group f).Nodup
  ordered_group : ∀ f, Ordered cs (b.group f)
  group_nonempty : ∀ f, b.groups.find? f ≠ some []
  consistent : b.isConsistent = true

theorem Indexed.coherent {b : Board} (h : b.Indexed) {cs : List Change}
    (hordered : ∀ f, Ordered cs (b.group f)) : b.Coherent cs where
  keyed _ _ he := h.keyed he
  occupant_iff _ _ := h.occupant_iff.trans place?_eq_some_iff
  one_per_position p i j d e hd he hp hq :=
    h.place_inj (place?_eq_some_iff.2 ⟨d, hd, hp⟩) (place?_eq_some_iff.2 ⟨e, he, hq⟩)
  mem_group_iff _ _ := h.mem_group_iff.trans look?_eq_some_iff
  mem_group_of_contents_iff contents id := by
    rw [h.mem_group_iff, look?_eq_some_iff]
    simp only [Contents.fingerprint_inj]
  nodup_group := h.nodup_group
  ordered_group := hordered
  group_nonempty := h.group_nonempty
  consistent := h.isConsistent

theorem coherent_changeAll (cs : List Change) : (empty.changeAll cs).Coherent cs :=
  (indexed_empty.changeAll cs).coherent (ordered_group cs)

end Board

end SharedBoard

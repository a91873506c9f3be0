import SharedBoard.Proofs.Board.Agreement

/-! The queries agree with a scan of all entities. Positions are ordered by cell first, so those from
the lowest to the highest of a cell are its own, by height; and whoever comes first in a list in
order comes before all others. -/
namespace SharedBoard

/-- A position lies between the lowest and the highest of a cell exactly if it is one of that cell. -/
theorem Position.between_iff (p : Position) (c : Cell) :
    compare p (c.atHeight Int32.minValue) ≠ .lt ∧ compare p (c.atHeight Int32.maxValue) ≠ .gt ↔
      p.cell = c := by
  rw [compare_eq_then, compare_eq_then, Cell.cell_atHeight, Cell.cell_atHeight]
  constructor
  · intro h
    cases hcell : compare p.cell c with
    | lt => simp [hcell] at h
    | eq => exact Std.LawfulEqOrd.eq_of_compare hcell
    | gt => simp [hcell] at h
  · rintro rfl
    rw [Std.ReflOrd.compare_self, Ordering.then, Ordering.then, Ne, Ne, Std.compare_eq_lt,
      Std.compare_eq_gt]
    exact ⟨Int32.not_lt.2 (Int32.minValue_le p.z), Int32.not_lt.2 (Int32.le_maxValue p.z)⟩

theorem Uuid.compare_eq_lt {a b : Uuid} : compare a b = .lt ↔ a.bits < b.bits :=
  compareOfLessAndEq_eq_lt

namespace Entity

/-- Two entities that fill positions, the first at the smaller height. -/
def Below (d e : Entity) : Prop :=
  ∃ p q, d.position? = some p ∧ e.position? = some q ∧ p.z < q.z

theorem Below.asymm {d e : Entity} (h : d.Below e) : ¬e.Below d := by
  rintro ⟨p, q, hp, hq, hlt⟩
  obtain ⟨q', p', hq', hp', hlt'⟩ := h
  obtain rfl := Option.some.inj (hp.symm.trans hp')
  obtain rfl := Option.some.inj (hq.symm.trans hq')
  exact Int32.lt_asymm hlt hlt'

/-- The entities of a cell that fill a position are all but its pings. -/
theorem exists_position?_iff (e : Entity) (c : Cell) :
    (∃ p, e.position? = some p ∧ p.cell = c) ↔ e.isPing = false ∧ e.cell = c := by
  cases e <;> simp [position?, isPing, cell]

end Entity

namespace Board

/-- An answer that is the entity with a property that comes before all others with it, and is missing
exactly if there is none. -/
structure Picks (before : Entity → Entity → Prop) (P : Entity → Prop) (answer : Option Entity) :
    Prop where
  some_iff : ∀ e, answer = some e ↔ P e ∧ ∀ d, P d → d = e ∨ before e d
  none_iff : answer = none ↔ ∀ e, ¬P e

theorem picks_head? {before : Entity → Entity → Prop} {P : Entity → Prop} {es : List Entity}
    (hasymm : ∀ {d e}, before d e → ¬before e d) (hes : es.Pairwise before)
    (hP : ∀ e, e ∈ es ↔ P e) : Picks before P es.head? := by
  obtain rfl : (· ∈ es) = P := funext fun e => propext (hP e)
  cases es with
  | nil => exact ⟨by simp, by simp⟩
  | cons a es =>
    obtain ⟨hfirst, -⟩ := List.pairwise_cons.1 hes
    refine ⟨?_, iff_of_false (by simp) fun hnone => hnone a List.mem_cons_self⟩
    intro e
    rw [List.head?_cons, Option.some.injEq]
    constructor
    · rintro rfl
      exact ⟨List.mem_cons_self, fun d hd => (List.mem_cons.1 hd).imp_right (hfirst d)⟩
    · rintro ⟨he, hbefore⟩
      rcases hbefore a List.mem_cons_self with hae | hea
      · exact hae
      · exact ((List.mem_cons.1 he).resolve_right fun hin => hasymm hea (hfirst e hin)).symm

section Queries

variable {b : Board} (h : b.Indexed) (c : Cell)
include h

theorem Indexed.mem_column {e : Entity} :
    e ∈ b.column c ↔ e ∈ b.toList ∧ e.isPing = false ∧ e.cell = c := by
  rw [← e.exists_position?_iff, h.mem_toList, column, SortedMap.range_eq_filter]
  simp only [List.mem_filterMap, List.mem_filter, Bool.and_eq_true, bne_iff_ne,
    Position.between_iff, Prod.exists, ← SortedMap.find?_eq_some_iff, h.occupant_iff]
  constructor
  · rintro ⟨p, id, ⟨hplace, hcell⟩, he⟩
    rw [h.keyed he]
    exact ⟨he, p, (place?_eq_of_get? he) ▸ hplace, hcell⟩
  · rintro ⟨he, p, hp, hcell⟩
    exact ⟨p, e.id, ⟨(place?_eq_of_get? he).trans hp, hcell⟩, he⟩

/-- A column goes up: the positions of one cell are ordered by height. -/
theorem Indexed.pairwise_column : (b.column c).Pairwise Entity.Below := by
  rw [column, SortedMap.range_eq_filter, List.pairwise_filterMap]
  apply (b.occupants.increasing.filter _).imp_of_mem
  rintro ⟨p, i⟩ ⟨q, j⟩ hp hq hlt d hd e he
  simp only [List.mem_filter, Bool.and_eq_true, bne_iff_ne, Position.between_iff,
    ← SortedMap.find?_eq_some_iff, h.occupant_iff] at hp hq
  refine ⟨p, q, (place?_eq_of_get? hd) ▸ hp.1, (place?_eq_of_get? he) ▸ hq.1, ?_⟩
  have hheights : compare p q = compare p.z q.z := by
    rw [Position.compare_eq_then, hp.2, hq.2, Std.ReflOrd.compare_self, Ordering.then]
  rwa [hheights, Std.compare_eq_lt] at hlt

theorem Indexed.pairwise_toList : b.toList.Pairwise fun d e => d.id.bits < e.id.bits := by
  rw [toList, SortedMap.values, List.pairwise_map]
  apply b.entities.increasing.imp_of_mem
  rintro ⟨i, d⟩ ⟨j, e⟩ hi hj hlt
  rw [h.keyed ((SortedMap.find?_eq_some_iff _ _ _).2 hi),
    h.keyed ((SortedMap.find?_eq_some_iff _ _ _).2 hj)]
  exact Uuid.compare_eq_lt.1 hlt

theorem Indexed.picks_topmost? :
    Picks (fun e d => d.Below e) (fun e => e ∈ b.toList ∧ e.isPing = false ∧ e.cell = c)
      (b.topmost? c) := by
  rw [topmost?, ← List.head?_reverse]
  apply picks_head? Entity.Below.asymm (List.pairwise_reverse.2 (h.pairwise_column c))
  intro e
  rw [List.mem_reverse, h.mem_column]

theorem Indexed.picks_bottommostCharacter? :
    Picks Entity.Below (fun e => e ∈ b.toList ∧ e.character?.isSome = true ∧ e.cell = c)
      (b.bottommostCharacter? c) := by
  rw [bottommostCharacter?, ← List.head?_filter]
  apply picks_head? Entity.Below.asymm ((h.pairwise_column c).filter _)
  intro e
  rw [List.mem_filter, h.mem_column]
  cases e <;> simp [Entity.character?, Entity.isPing]

theorem Indexed.picks_pingAt? :
    Picks (fun d e => d.id.bits < e.id.bits)
      (fun e => e ∈ b.toList ∧ e.isPing = true ∧ e.cell = c) (b.pingAt? c) := by
  rw [pingAt?, ← List.head?_filter]
  apply picks_head? (fun hlt => BitVec.not_lt.2 (BitVec.le_of_lt hlt)) (h.pairwise_toList.filter _)
  intro e
  rw [List.mem_filter, Bool.and_eq_true, beq_iff_eq]

end Queries

theorem Indexed.occupant?_eq_some_iff {b : Board} (h : b.Indexed) (p : Position) (e : Entity) :
    b.occupant? p = some e ↔ e ∈ b.toList ∧ e.position? = some p := by
  rw [occupant?, Option.bind_eq_some_iff, h.mem_toList]
  simp only [h.occupant_iff]
  constructor
  · rintro ⟨id, hplace, he⟩
    rw [h.keyed he]
    exact ⟨he, (place?_eq_of_get? he) ▸ hplace⟩
  · rintro ⟨he, hp⟩
    exact ⟨e.id, (place?_eq_of_get? he).trans hp, he⟩

/-- A position has one candidate at most. -/
theorem Indexed.picks_occupant? {b : Board} (h : b.Indexed) (p : Position) :
    Picks (fun _ _ => False) (fun e => e ∈ b.toList ∧ e.position? = some p) (b.occupant? p) := by
  simp only [← h.occupant?_eq_some_iff]
  refine ⟨?_, Option.eq_none_iff_forall_ne_some⟩
  intro e
  constructor
  · intro he
    exact ⟨he, fun d hd => .inl (Option.some.inj (hd.symm.trans he))⟩
  · exact And.left

/-- On every board that upserts and deletes bring about, a column lists the tokens of its cell, each
once, from bottom to top, and the other queries pick from what stands there: the highest token, the
lowest character, the only occupant of a position, and the ping of the smallest id. -/
theorem queries_agree_with_scan (cs : List Change) (c : Cell) (p : Position) :
    let b := empty.changeAll cs
    ((∀ e, e ∈ b.column c ↔ e ∈ b.toList ∧ e.isPing = false ∧ e.cell = c) ∧
      (b.column c).Nodup ∧ (b.column c).Pairwise Entity.Below) ∧
    Picks (fun e d => d.Below e) (fun e => e ∈ b.toList ∧ e.isPing = false ∧ e.cell = c)
      (b.topmost? c) ∧
    Picks Entity.Below (fun e => e ∈ b.toList ∧ e.character?.isSome = true ∧ e.cell = c)
      (b.bottommostCharacter? c) ∧
    Picks (fun _ _ => False) (fun e => e ∈ b.toList ∧ e.position? = some p) (b.occupant? p) ∧
    Picks (fun d e => d.id.bits < e.id.bits)
      (fun e => e ∈ b.toList ∧ e.isPing = true ∧ e.cell = c) (b.pingAt? c) := by
  intro b
  have h : b.Indexed := indexed_empty.changeAll cs
  have hup := h.pairwise_column c
  refine ⟨⟨fun _ => h.mem_column c, ?_, hup⟩, h.picks_topmost? c, h.picks_bottommostCharacter? c,
    h.picks_occupant? p, h.picks_pingAt? c⟩
  apply hup.imp
  rintro d e hlt rfl
  exact hlt.asymm hlt

/-- The stack of a cell reaches from the lowest height to the highest, and leaves out the next cell. -/
example :
    let roof : Floor := ⟨.ofNat 1, ⟨-1, 0, Int32.maxValue⟩, .icon "roof"⟩
    let root : Floor := ⟨.ofNat 2, ⟨-1, 0, Int32.minValue⟩, .icon "root"⟩
    let beside : Floor := ⟨.ofNat 3, ⟨-1, 1, Int32.minValue⟩, .icon "root"⟩
    (empty.changeAll [.upsert .confirmed (.floor roof), .upsert .optimistic (.floor root),
      .upsert .confirmed (.floor beside)]).column ⟨-1, 0⟩ = [.floor root, .floor roof] := by
  decide

end Board

end SharedBoard

import SharedBoard.Proofs.Board.Changes
import SharedBoard.Proofs.Board.Palette
import SharedBoard.Proofs.Board.Recoloring

/-! Boards on which characters that look the same are told apart by colours. Confirmed changes keep
a board so as long as the palette suffices, and then the order within the groups decides nothing: of
the characters of one look only the one that was just placed, or one that was alone before, waits for
a colour. -/
namespace SharedBoard.Board

/-- A character of which another looks the same has a colour. -/
def ToldApart (b : Board) : Prop :=
  ∀ i j c d, b.get? i = some (.character c) → b.get? j = some (.character d) →
    c.contents = d.contents → i ≠ j → c.color.isSome = true

/-- Whether no group is larger than the palette. -/
def fitsPalette (b : Board) : Bool := b.groups.values.all (·.length ≤ palette.length)

theorem toldApart_iff {b : Board} :
    b.ToldApart ↔ ∀ i j f, b.look? i = some f → b.look? j = some f → i ≠ j → b.awaits i = false := by
  constructor
  · intro h i j f hi hj hne
    obtain ⟨c, hc, rfl⟩ := look?_eq_some_iff.1 hi
    obtain ⟨d, hd, hlook⟩ := look?_eq_some_iff.1 hj
    have hcolor := h i j c d hc hd (Contents.fingerprint_inj.1 hlook.symm) hne
    simpa [awaits_of_get? hc] using hcolor
  · intro h i j c d hc hd hcontents hne
    have hi := h i j _ (look?_eq_some_iff.2 ⟨c, hc, rfl⟩)
      (look?_eq_some_iff.2 ⟨d, hd, hcontents ▸ rfl⟩) hne
    simpa [awaits_of_get? hc] using hi

theorem toldApart_empty : empty.ToldApart := fun _ _ _ _ hc => by simp at hc

theorem length_group_le {b : Board} (h : b.fitsPalette = true) (f : String) :
    (b.group f).length ≤ palette.length := by
  rw [group]
  cases hf : b.groups.find? f with
  | none => simp
  | some ids =>
    have hmem := (SortedMap.find?_eq_some_iff _ _ _).1 hf
    have hall := List.all_eq_true.1 h ids (List.mem_map.2 ⟨_, hmem, rfl⟩)
    simpa using hall

/-- A board holds nothing but what the other holds. -/
def PartOf (b b' : Board) : Prop := ∀ id e, b.get? id = some e → b'.get? id = some e

theorem partOf_delete (b : Board) (id : EntityId) : (b.delete id).PartOf b := by
  intro k e hk
  rw [get?_delete] at hk
  split at hk
  · cases hk
  · exact hk

theorem Indexed.exists_ne_of_length {b : Board} (h : b.Indexed) {f : String}
    (hmany : 1 < (b.group f).length) (i : EntityId) : ∃ j ∈ b.group f, j ≠ i := by
  by_contra hall
  simp only [not_exists, not_and, Decidable.not_not] at hall
  have hnodup := h.nodup_group f
  rw [List.eq_replicate_of_mem hall, List.nodup_replicate] at hnodup
  omega

theorem Indexed.one_lt_length {b : Board} (h : b.Indexed) {f : String} {i j : EntityId}
    (hi : b.look? i = some f) (hj : b.look? j = some f) (hne : i ≠ j) :
    1 < (b.group f).length := by
  have hpair : [i, j].Nodup := by simpa using hne
  have hsub : [i, j] ⊆ b.group f := by simp [h.mem_group_iff, hi, hj]
  exact (List.subperm_of_subset hpair hsub).length_le

namespace ToldApart

variable {b b' : Board}

theorem of_partOf (h : b'.ToldApart) (hpart : b.PartOf b') : b.ToldApart :=
  fun i j c d hc hd => h i j c d (hpart i _ hc) (hpart j _ hd)

theorem delete (h : b.ToldApart) (id : EntityId) : (b.delete id).ToldApart :=
  h.of_partOf (partOf_delete b id)

/-- Colouring a group again gives nobody anything. -/
theorem get?_colorGroup (h : b.ToldApart) (hb : b.Indexed) (f : String) (k : EntityId) :
    (b.colorGroup f).get? k = b.get? k := by
  have hnone : b.handedOut f = [] := by
    unfold handedOut
    split
    next hmany =>
      have hcolored : b.uncolored f = [] := by
        rw [uncolored, List.filter_eq_nil_iff]
        intro i hi
        obtain ⟨j, hj, hne⟩ := hb.exists_ne_of_length hmany i
        rw [toldApart_iff.1 h i j f (hb.mem_group_iff.1 hi) (hb.mem_group_iff.1 hj) hne.symm]
        exact Bool.false_ne_true
      rw [hcolored, List.zip_nil_left]
    next => rfl
  rw [hb.get?_colorGroup, hnone]
  rfl

end ToldApart

section Placed

variable (b : Board) (e : Entity) (k : EntityId)

theorem look?_replace_optimistic :
    (b.replace .optimistic e).look? k = if k = e.id then e.fingerprint? else b.look? k := by
  rw [look?, get?_replace_optimistic]
  split
  · exact Entity.fingerprint?_inheritColor e _
  · rfl

theorem awaits_replace_optimistic (hk : k ≠ e.id) :
    (b.replace .optimistic e).awaits k = b.awaits k := by
  rw [awaits, get?_replace_optimistic, if_neg hk, awaits]

end Placed

/-- A confirmed upsert colours the group that it adds to, and the others are as they were. -/
theorem ToldApart.upsert {b : Board} (h : b.ToldApart) (hb : b.Indexed) {e : Entity}
    (hfits : (b.upsert .confirmed e).fitsPalette = true) : (b.upsert .confirmed e).ToldApart := by
  rw [upsert_eq] at hfits ⊢
  split at hfits
  case isFalse hroom => rwa [if_neg hroom]
  case isTrue hroom =>
  rw [if_pos hroom]
  have hplaced : (b.replace .optimistic e).Indexed := hb.replace .optimistic hroom
  have hothers : ∀ i j g, (b.replace .optimistic e).look? i = some g →
      (b.replace .optimistic e).look? j = some g → i ≠ j → e.fingerprint? ≠ some g →
        (b.replace .optimistic e).awaits i = false := by
    intro i j g hi hj hne hg
    rw [look?_replace_optimistic] at hi hj
    split at hi
    next => exact absurd hi hg
    next hid =>
      split at hj
      next => exact absurd hj hg
      next => rw [awaits_replace_optimistic b e i hid, toldApart_iff.1 h i j g hi hj hne]
  rw [replace_confirmed] at hfits ⊢
  rw [toldApart_iff]
  cases hf : e.fingerprint? with
  | none =>
    intro i j g hi hj hne
    exact hothers i j g hi hj hne (by simp [hf])
  | some f =>
    rw [hf, Option.elim_some] at hfits
    have hsize : ((b.replace .optimistic e).group f).length ≤ palette.length := by
      simpa [group] using length_group_le hfits f
    intro i j g hi hj hne
    rw [Option.elim_some, (gainsColors_colorGroup _ f).look?_eq] at hi hj
    by_cases hg : g = f
    · subst hg
      exact hplaced.not_awaits_colorGroup (hplaced.mem_group_iff.2 hi)
        (hplaced.one_lt_length hi hj hne) hsize
    · have hgroup : e.fingerprint? ≠ some g := by
        rw [hf]
        simpa using Ne.symm hg
      rw [Option.elim_some, hplaced.awaits_colorGroup, hothers i j g hi hj hne hgroup]
      rfl

end SharedBoard.Board

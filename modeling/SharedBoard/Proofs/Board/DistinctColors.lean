import SharedBoard.Proofs.Board.Changes
import SharedBoard.Proofs.Board.Palette
import SharedBoard.Proofs.Board.Recoloring

/-! Boards whose colours all came from the palette. A colour that is handed out is held by nobody of
the same look, and one that is inherited stays under its id, so characters that look the same hold
different colours for as long as no entity brings a colour of its own. -/
namespace SharedBoard

/-- The colour that a change brings along. -/
def Change.color? : Change → Option String
  | .upsert _ e => e.color?
  | .delete _ => none

namespace Board

/-- Characters that look the same hold different colours, and every colour is a palette entry. -/
structure DistinctColors (b : Board) : Prop where
  eq_of_color : ∀ {i j f color}, b.look? i = some f → b.look? j = some f →
    b.color? i = some color → b.color? j = some color → i = j
  mem_palette : ∀ {id color}, b.color? id = some color → color ∈ palette

theorem distinctColors_empty : empty.DistinctColors where
  eq_of_color _ _ hi _ := nomatch hi
  mem_palette h := nomatch h

section HandedOut

variable {α β : Type} [BEq α] [LawfulBEq α] {xs : List α} {ys : List β} {i j : α} {y : β}

theorem lookup_zip_inj (hys : ys.Nodup) (hi : (xs.zip ys).lookup i = some y)
    (hj : (xs.zip ys).lookup j = some y) : i = j := by
  obtain ⟨m, hm⟩ := List.mem_iff_getElem?.1 (mem_of_lookup_zip hi)
  obtain ⟨n, hn⟩ := List.mem_iff_getElem?.1 (mem_of_lookup_zip hj)
  rw [List.getElem?_zip_eq_some] at hm hn
  have hmn : m = n := by
    obtain ⟨hlt, -⟩ := List.getElem?_eq_some_iff.1 hm.2
    exact (List.getElem?_inj hlt hys).1 (hm.2.trans hn.2.symm)
  subst hmn
  exact Option.some.inj (hm.1.symm.trans hn.1)

end HandedOut

theorem handedOut_inj {b : Board} {f color : String} {i j : EntityId}
    (hi : (b.handedOut f).lookup i = some color) (hj : (b.handedOut f).lookup j = some color) :
    i = j := by
  unfold handedOut at hi hj
  split at hi
  · rw [if_pos ‹_›] at hj
    exact lookup_zip_inj (nodup_palette.filter _) hi hj
  · cases hi

namespace DistinctColors

variable {b b' : Board}

/-- A board keeps its colours apart when all of them stood under the same ids, on the same looks. -/
theorem of_colors (h : b.DistinctColors)
    (hcolors : ∀ id color, b'.color? id = some color →
      b.color? id = some color ∧ b'.look? id = b.look? id) : b'.DistinctColors where
  eq_of_color {i j _ color} hlooki hlookj hi hj := by
    obtain ⟨hi, hlook⟩ := hcolors i color hi
    obtain ⟨hj, hlook'⟩ := hcolors j color hj
    exact h.eq_of_color (hlook ▸ hlooki) (hlook' ▸ hlookj) hi hj
  mem_palette {id color} hc := h.mem_palette (hcolors id color hc).1

theorem delete (h : b.DistinctColors) (id : EntityId) : (b.delete id).DistinctColors := by
  apply h.of_colors
  intro k color hk
  rw [color?, get?_delete] at hk
  rw [look?_delete]
  split at hk
  · cases hk
  next hne => exact ⟨hk, if_neg hne⟩

/-- An entity without a colour of its own holds that of a predecessor of its look, or none. -/
theorem placed (h : b.DistinctColors) {e : Entity} (he : e.color? = none) :
    (b.replace .optimistic e).DistinctColors := by
  apply h.of_colors
  intro k color hk
  rw [color?, get?_replace_optimistic] at hk
  rw [look?, get?_replace_optimistic]
  split at hk
  next hid =>
    subst hid
    rw [Option.bind_some, Entity.color?_inheritColor, he, Option.none_or] at hk
    obtain ⟨prev, hprev, hc⟩ := Option.bind_eq_some_iff.1 hk
    split at hc
    next hlook =>
      refine ⟨color?_eq_some_iff.2 ⟨prev, hprev, hc⟩, ?_⟩
      rw [if_pos rfl, Option.bind_some, Entity.fingerprint?_inheritColor, look?_eq_of_get? hprev,
        hlook]
    next => cases hc
  next hid => exact ⟨hk, by rw [if_neg hid, look?]⟩

/-- Nobody is handed a colour that another of the group holds, and no two are handed the same. -/
theorem colorGroup (h : b.DistinctColors) (hb : b.Indexed) (f : String) :
    (b.colorGroup f).DistinctColors := by
  have hfresh : ∀ {i j g color}, (b.handedOut f).lookup i = some color → b.look? i = some g →
      b.look? j = some g → b.color? j ≠ some color := by
    intro i j g color hi hlooki hlookj
    obtain ⟨hwaits, hfree⟩ := mem_of_handedOut hi
    have hgroup : b.look? i = some f := hb.mem_group_iff.1 (List.mem_filter.1 hwaits).1
    rw [hgroup, ← hlookj] at hlooki
    exact (mem_freeColors_iff.1 hfree).2 j (hb.mem_group_iff.2 hlooki.symm)
  constructor
  · intro i j g color hlooki hlookj hi hj
    rw [(gainsColors_colorGroup b f).look?_eq] at hlooki hlookj
    rw [hb.color?_colorGroup, Option.or_eq_some_iff] at hi hj
    rcases hi with hi | ⟨-, hi⟩ <;> rcases hj with hj | ⟨-, hj⟩
    · exact handedOut_inj hi hj
    · exact absurd hj (hfresh hi hlooki hlookj)
    · exact absurd hi (hfresh hj hlookj hlooki)
    · exact h.eq_of_color hlooki hlookj hi hj
  · intro id color hc
    rw [hb.color?_colorGroup, Option.or_eq_some_iff] at hc
    rcases hc with hc | ⟨-, hc⟩
    · exact (mem_freeColors_iff.1 (mem_of_handedOut hc).2).1
    · exact h.mem_palette hc

theorem upsert (h : b.DistinctColors) (hb : b.Indexed) (s : Standing) {e : Entity}
    (he : e.color? = none) : (b.upsert s e).DistinctColors := by
  rw [upsert_eq]
  split
  case isFalse => exact h
  case isTrue hroom =>
  cases s with
  | optimistic => exact h.placed he
  | confirmed =>
    rw [replace_confirmed]
    cases e.fingerprint? with
    | none => exact h.placed he
    | some f => exact (h.placed he).colorGroup (hb.replace .optimistic hroom) f

end DistinctColors

theorem DistinctColors.change {b : Board} (h : b.DistinctColors) (hb : b.Indexed) {c : Change}
    (hc : c.color? = none) : (b.change c).DistinctColors := by
  cases c with
  | upsert s e => exact h.upsert hb s hc
  | delete id => exact h.delete id

theorem DistinctColors.changeAll {b : Board} (h : b.DistinctColors) (hb : b.Indexed)
    {cs : List Change} (hcs : ∀ c ∈ cs, c.color? = none) : (b.changeAll cs).DistinctColors := by
  induction cs generalizing b with
  | nil => exact h
  | cons c cs ih =>
    obtain ⟨hc, hcs⟩ := List.forall_mem_cons.1 hcs
    exact ih (h.change hb hc) (hb.change c) hcs

/-- In every history in which no entity brings a colour, confirmed or not, no two characters of the
same contents ever hold one colour, and every colour is a palette entry. -/
theorem colors_distinct {cs : List Change} (hcs : ∀ c ∈ cs, c.color? = none) :
    let b := empty.changeAll cs
    (∀ i j c d color, b.get? i = some (.character c) → b.get? j = some (.character d) →
        c.contents = d.contents → c.color = some color → d.color = some color → i = j) ∧
      ∀ id c color, b.get? id = some (.character c) → c.color = some color → color ∈ palette := by
  intro b
  have h : b.DistinctColors := distinctColors_empty.changeAll indexed_empty hcs
  have hcolor : ∀ {id c color}, b.get? id = some (.character c) → c.color = some color →
      b.color? id = some color := by
    intro id c color hid hc
    exact color?_eq_some_iff.2 ⟨_, hid, hc⟩
  constructor
  · intro i j c d color hi hj hcontents hc hd
    have hlooki : b.look? i = some c.contents.fingerprint := look?_eq_some_iff.2 ⟨c, hi, rfl⟩
    have hlookj : b.look? j = some c.contents.fingerprint :=
      look?_eq_some_iff.2 ⟨d, hj, by rw [hcontents]⟩
    exact h.eq_of_color hlooki hlookj (hcolor hi hc) (hcolor hj hd)
  · intro id c color hid hc
    exact h.mem_palette (hcolor hid hc)

def elfAt (id : Nat) (x : Int32) : Entity := .character ⟨.ofNat id, ⟨x, 0, 0⟩, .icon "elf", none⟩

/-- Three elves get their colours. The first is deleted, the second becomes a floor, and a fourth one
is only guessed until the second comes back. -/
def elves : List Change :=
  [.upsert .confirmed (elfAt 1 0), .upsert .optimistic (elfAt 2 1), .upsert .confirmed (elfAt 3 2),
    .delete (.ofNat 1), .upsert .confirmed (.floor ⟨.ofNat 2, ⟨1, 0, 0⟩, .icon "elf"⟩),
    .upsert .optimistic (elfAt 4 0), .upsert .confirmed (elfAt 2 5)]

theorem colors_distinct_elves :
    (∀ c ∈ elves, c.color? = none) ∧
      let b := empty.changeAll elves
      [2, 3, 4].map (fun n => b.color? (.ofNat n)) =
          [some "#3C7DD9", some "#3FA66B", some "#D94B4B"] ∧
        ∀ i j c d color, b.get? i = some (.character c) → b.get? j = some (.character d) →
          c.contents = d.contents → c.color = some color → d.color = some color → i = j := by
  have hcs : ∀ c ∈ elves, c.color? = none := by decide
  exact ⟨hcs, by decide, (colors_distinct hcs).1⟩

end Board

end SharedBoard

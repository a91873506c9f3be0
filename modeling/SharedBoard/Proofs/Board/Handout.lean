import SharedBoard.Proofs.Board.Upserts

/-! Which colours a character that is confirmed brings its group. Once it has joined the group and
inherited, the members without a colour take, in group order, the palette entries that no member
holds, in palette order; for a guess, and for a character that stays alone, nothing is handed out. -/
namespace SharedBoard.Board

section Joined

variable (b : Board) (c : Character)

/-- The group of a character once it has joined it: the others, and the character last. -/
def groupWith : List EntityId := (b.group c.contents.fingerprint).filter (· != c.id) ++ [c.id]

/-- The colours once a character has joined and inherited, before any is handed out. -/
def colorWith? (k : EntityId) : Option String :=
  if k = c.id then b.carriedColor? (.character c) else b.color? k

/-- The members that then have no colour, in group order. -/
def uncoloredWith : List EntityId := (b.groupWith c).filter fun k => (b.colorWith? c k).isNone

/-- The palette entries that then no member holds, in palette order. -/
def freeWith : List String :=
  palette.filter fun color => ∀ k ∈ b.groupWith c, b.colorWith? c k ≠ some color

/-- Who is given which colour in a group of two or more. -/
def handoutWith : List (EntityId × String) :=
  if 1 < (b.groupWith c).length then (b.uncoloredWith c).zip (b.freeWith c) else []

end Joined

theorem Indexed.awaits_of_mem_group {b : Board} (h : b.Indexed) {f : String} {k : EntityId}
    (hk : k ∈ b.group f) : b.awaits k = (b.color? k).isNone := by
  obtain ⟨d, hd, -⟩ := look?_eq_some_iff.1 (h.mem_group_iff.1 hk)
  rw [awaits_of_get? hd, color?, hd]
  rfl

section Placed

variable {b : Board} (h : b.Indexed) {c : Character} (hroom : b.hasRoomFor (.character c) = true)
include h hroom

theorem Indexed.group_with (s : Standing) :
    (b.upsert s (.character c)).group c.contents.fingerprint = b.groupWith c := by
  rw [h.group_upsert s hroom, groupWith]
  simp [Entity.fingerprint?, Entity.character?, Entity.id]

theorem Indexed.group_placed_with :
    (b.replace .optimistic (.character c)).group c.contents.fingerprint = b.groupWith c := by
  rw [← h.group_with hroom .optimistic, upsert_eq, if_pos hroom]

theorem Indexed.handedOut_placed :
    (b.replace .optimistic (.character c)).handedOut c.contents.fingerprint =
      b.handoutWith c := by
  have hplaced := h.replace .optimistic hroom
  have hgroup := h.group_placed_with hroom
  have hcolor : ∀ k, (b.replace .optimistic (.character c)).color? k = b.colorWith? c k :=
    color?_placed b (.character c)
  have huncolored : (b.replace .optimistic (.character c)).uncolored c.contents.fingerprint =
      b.uncoloredWith c := by
    rw [uncolored, uncoloredWith, ← hgroup]
    apply List.filter_congr
    intro k hk
    rw [hplaced.awaits_of_mem_group hk, hcolor]
  have hfree : (b.replace .optimistic (.character c)).freeColors c.contents.fingerprint =
      b.freeWith c := by
    apply List.filter_congr
    intro color _
    rw [Bool.eq_iff_iff]
    simp [mem_usedColors_iff, hgroup, hcolor]
  rw [handedOut, hgroup, huncolored, hfree, handoutWith]

/-- A confirmed character gives each member what is handed out to it, and leaves the others. -/
theorem Indexed.color?_upsert_with (k : EntityId) :
    (b.upsert .confirmed (.character c)).color? k =
      ((b.handoutWith c).lookup k).or (b.colorWith? c k) := by
  rw [h.color?_upsert_confirmed hroom, ← h.handedOut_placed hroom]
  rfl

end Placed

/-- In lists side by side, the first without repetition, a member of the first finds what stands
beside it. -/
theorem lookup_zip_of_getElem? {α β : Type} [BEq α] [LawfulBEq α] {xs : List α} (hxs : xs.Nodup)
    (ys : List β) {i : Nat} {x : α} (hi : xs[i]? = some x) : (xs.zip ys).lookup x = ys[i]? := by
  induction xs generalizing ys i with
  | nil => simp at hi
  | cons a xs ih =>
    obtain ⟨ha, hxs⟩ := List.nodup_cons.1 hxs
    cases ys with
    | nil => simp
    | cons y ys =>
      cases i with
      | zero => simp_all
      | succ i =>
        have hi : xs[i]? = some x := by simpa using hi
        have hne : x ≠ a := by
          rintro rfl
          exact ha (List.mem_of_getElem? hi)
        simpa [List.lookup_cons, beq_false_of_ne hne] using ih hxs ys hi

/-- How a group of two or more comes out of a confirmed upsert of one of its members. -/
structure HandsOut (b : Board) (c : Character) (b' : Board) : Prop where
  /-- Uncoloured members take free entries, each the one of its number, as long as there are any. -/
  taken : ∀ (i : Nat) k, (b.uncoloredWith c)[i]? = some k → b'.color? k = (b.freeWith c)[i]?
  kept : ∀ k ∈ b.groupWith c, k ∉ b.uncoloredWith c → b'.color? k = b.colorWith? c k
  outside : ∀ k ∉ b.groupWith c, b'.get? k = b.get? k
  /-- Who stays without a colour finds every palette entry held in the group. -/
  exhausted : ∀ k ∈ b.groupWith c, b'.color? k = none →
    ∀ color ∈ palette, ∃ j ∈ b.groupWith c, b'.color? j = some color
  /-- What is handed out is a palette entry that nobody in the group held. -/
  fresh : ∀ k ∈ b.uncoloredWith c, ∀ color, b'.color? k = some color →
    color ∈ palette ∧ ∀ j ∈ b.groupWith c, b.colorWith? c j ≠ some color

section HandsOut

variable {b : Board} (h : b.Indexed) {c : Character} (hroom : b.hasRoomFor (.character c) = true)
include h hroom

theorem Indexed.mem_groupWith_iff (s : Standing) (k : EntityId) :
    k ∈ b.groupWith c ↔
      ∃ d, (b.upsert s (.character c)).get? k = some (.character d) ∧ d.contents = c.contents := by
  rw [← h.group_with hroom s, (h.upsert s _).mem_group_iff, look?_eq_some_iff]
  simp only [Contents.fingerprint_inj]

/-- Whoever is no uncoloured member has the colour that it had before. -/
theorem Indexed.color?_upsert_of_colored {k : EntityId} (hk : k ∉ b.uncoloredWith c) :
    (b.upsert .confirmed (.character c)).color? k = b.colorWith? c k := by
  rw [h.color?_upsert_with hroom, handoutWith]
  split
  · rw [lookup_zip_eq_none hk, Option.none_or]
  · rfl

theorem Indexed.color?_upsert_of_uncolored (hmany : 1 < (b.groupWith c).length) {i : Nat}
    {k : EntityId} (hk : (b.uncoloredWith c)[i]? = some k) :
    (b.upsert .confirmed (.character c)).color? k = (b.freeWith c)[i]? := by
  have hnodup : (b.uncoloredWith c).Nodup := by
    rw [uncoloredWith, ← h.group_with hroom .confirmed]
    exact ((h.upsert _ _).nodup_group _).filter _
  have hnone : b.colorWith? c k = none := by
    simpa using (List.mem_filter.1 (List.mem_of_getElem? hk)).2
  rw [h.color?_upsert_with hroom, handoutWith, if_pos hmany, lookup_zip_of_getElem? hnodup _ hk,
    hnone, Option.or_none]

theorem Indexed.handsOut (hmany : 1 < (b.groupWith c).length) :
    HandsOut b c (b.upsert .confirmed (.character c)) where
  taken i k := h.color?_upsert_of_uncolored hroom hmany
  kept k _ hk := h.color?_upsert_of_colored hroom hk
  outside k hk := by
    by_contra hchanged
    have hne : k ≠ c.id := by
      rintro rfl
      exact hk (by simp [groupWith])
    obtain ⟨-, next, d, hnext, hd, hcontents, -⟩ := h.gained_of_upsert hne hchanged
    obtain rfl : c = next := Entity.character.inj hnext
    have hmember : k ∈ b.group c.contents.fingerprint :=
      h.mem_group_iff.2 (look?_eq_some_iff.2 ⟨d, hd, by rw [hcontents]⟩)
    exact hk (by simp [groupWith, hmember, hne])
  exhausted k hk hnone color hcolor := by
    have hwaits : k ∈ b.uncoloredWith c := by
      by_contra hcolored
      rw [h.color?_upsert_of_colored hroom hcolored] at hnone
      exact hcolored (List.mem_filter.2 ⟨hk, by simp [hnone]⟩)
    obtain ⟨i, hi⟩ := List.mem_iff_getElem?.1 hwaits
    have hshort : (b.freeWith c).length ≤ i := by
      rw [h.color?_upsert_of_uncolored hroom hmany hi] at hnone
      simpa using hnone
    by_cases hheld : ∃ j ∈ b.groupWith c, b.colorWith? c j = some color
    · obtain ⟨j, hj, hjc⟩ := hheld
      have hcolored : j ∉ b.uncoloredWith c := by simp [uncoloredWith, hjc]
      exact ⟨j, hj, (h.color?_upsert_of_colored hroom hcolored).trans hjc⟩
    · have hfree : color ∈ b.freeWith c := by
        simpa [freeWith, hcolor] using hheld
      obtain ⟨n, hn⟩ := List.mem_iff_getElem?.1 hfree
      have hlt : n < (b.uncoloredWith c).length := by
        have hni := (List.getElem?_eq_some_iff.1 hn).1
        have hii := (List.getElem?_eq_some_iff.1 hi).1
        omega
      have hj := List.getElem?_eq_getElem hlt
      refine ⟨(b.uncoloredWith c)[n], (List.mem_filter.1 (List.getElem_mem hlt)).1, ?_⟩
      rw [h.color?_upsert_of_uncolored hroom hmany hj, hn]
  fresh k hk color hcolor := by
    obtain ⟨i, hi⟩ := List.mem_iff_getElem?.1 hk
    rw [h.color?_upsert_of_uncolored hroom hmany hi] at hcolor
    simpa [freeWith] using List.mem_of_getElem? hcolor

end HandsOut

/-- On every consistent board a character that finds room joins the group of its contents, as the last
member. Confirmed in a group of two or more it has the palette handed out; a guess, or a character
that stays alone, leaves all colours as they are once it has inherited. -/
theorem upsert_hands_out {b : Board} (h : b.isConsistent = true) {c : Character}
    (hroom : b.hasRoomFor (.character c) = true) :
    (∀ s, (b.upsert s (.character c)).group c.contents.fingerprint = b.groupWith c ∧
      ∀ k, k ∈ b.groupWith c ↔
        ∃ d, (b.upsert s (.character c)).get? k = some (.character d) ∧
          d.contents = c.contents) ∧
    (1 < (b.groupWith c).length → HandsOut b c (b.upsert .confirmed (.character c))) ∧
    ∀ s, s = .optimistic ∨ (b.groupWith c).length = 1 →
      ∀ k, (b.upsert s (.character c)).color? k = b.colorWith? c k := by
  have hb := indexed_of_isConsistent h
  refine ⟨fun s => ⟨hb.group_with hroom s, hb.mem_groupWith_iff hroom s⟩, hb.handsOut hroom, ?_⟩
  intro s hs k
  cases s with
  | optimistic => exact color?_upsert_optimistic hroom k
  | confirmed =>
    have halone : ¬1 < (b.groupWith c).length := by
      rcases hs with hs | hs
      · cases hs
      · omega
    rw [hb.color?_upsert_with hroom, handoutWith, if_neg halone]
    rfl

/-- A goblin moves and keeps its colour. The one in black keeps a colour that is no palette entry, and
the two that were guessed take the first entry, which is free again, and the third. -/
theorem upsert_hands_out_goblins :
    (goblins.isConsistent = true ∧
        goblins.hasRoomFor (.character (goblinAt 3 7 none)) = true) ∧
      goblins.groupWith (goblinAt 3 7 none) = [2, 4, 5, 3].map Uuid.ofNat ∧
      let moved := goblins.upsert .confirmed (.character (goblinAt 3 7 none))
      moved.color? (.ofNat 4) = some "#D94B4B" ∧ moved.color? (.ofNat 5) = some "#3FA66B" ∧
        moved.color? (.ofNat 2) = some "#000000" ∧ moved.color? (.ofNat 3) = some "#3C7DD9" := by
  have h : goblins.isConsistent = true := by decide
  have hroom : goblins.hasRoomFor (.character (goblinAt 3 7 none)) = true := by decide
  obtain ⟨-, hmany, -⟩ := upsert_hands_out h hroom
  have hout := hmany (by decide)
  refine ⟨⟨h, hroom⟩, by decide, ?_, ?_, ?_, ?_⟩
  · exact (hout.taken 0 (.ofNat 4) (by decide)).trans (by decide)
  · exact (hout.taken 1 (.ofNat 5) (by decide)).trans (by decide)
  · exact (hout.kept (.ofNat 2) (by decide) (by decide)).trans (by decide)
  · exact (hout.kept (.ofNat 3) (by decide) (by decide)).trans (by decide)

end SharedBoard.Board

import SharedBoard.Proofs.Board.Effects

/-! Confirming a batch twice. What a pass leaves under an id is the doing of the last action on it
that is admitted, its last word; so the second pass leaves what the first did exactly if the same
actions have the last word in both. Colours stay in the second pass unless it renews them. -/
namespace SharedBoard

/-- Whether an action, when it is admitted, takes the colour of a character away: it deletes the
character, gives it another look, or names another colour. -/
def Action.renews (a : Action) (look color : Option String) : Bool :=
  a.payload?.all fun e => e.fingerprint? != look || (e.color?.isSome && e.color? != color)

namespace Board

/-- The board after the first actions of a batch. -/
def after (b : Board) (as : List Action) (n : Nat) : Board := b.applyAll .confirmed (as.take n)

/-- The action numbered `n` of a batch has a word on an id: it is on that id, and the board of its
turn admits it. -/
def WordAt (b : Board) (as : List Action) (n : Nat) (id : EntityId) : Prop :=
  ∃ a, as[n]? = some a ∧ a.target = id ∧ (b.after as n).admits a = true

def LastWordAt (b : Board) (as : List Action) (n : Nat) (id : EntityId) : Prop :=
  b.WordAt as n id ∧ ∀ m, b.WordAt as m id → m ≤ n

/-- A pass renews an id: an action with a word on it takes away the colour that it had before the
pass. -/
def RenewedIn (b : Board) (as : List Action) (id : EntityId) : Prop :=
  ∃ n a, as[n]? = some a ∧ a.target = id ∧ (b.after as n).admits a = true ∧
    a.renews (b.look? id) (b.color? id) = true

section Words

variable {b : Board} {a : Action} {as : List Action} {n : Nat} {id : EntityId}

theorem wordAt_cons_zero : b.WordAt (a :: as) 0 id ↔ id = a.target ∧ b.admits a = true := by
  constructor
  · rintro ⟨a', ha, htarget, hadmits⟩
    obtain rfl : a = a' := Option.some.inj ha
    exact ⟨htarget.symm, hadmits⟩
  · rintro ⟨hid, hadmits⟩
    exact ⟨a, rfl, hid.symm, hadmits⟩

theorem wordAt_cons_succ :
    b.WordAt (a :: as) (n + 1) id ↔ (b.apply .confirmed a).WordAt as n id := Iff.rfl

/-- The words from some number on are those of the pass that starts there. -/
theorem wordAt_drop {m : Nat} :
    (b.after as n).WordAt (as.drop n) m id ↔ b.WordAt as (n + m) id := by
  rw [WordAt, WordAt, after, after, after, ← applyAll_append, ← List.take_add, List.getElem?_drop]

theorem exists_lastWordAt (h : b.WordAt as n id) : ∃ m, b.LastWordAt as m id := by
  induction as generalizing b n with
  | nil =>
    obtain ⟨a, ha, -⟩ := h
    cases ha
  | cons a as ih =>
    by_cases hlater : ∃ k, (b.apply .confirmed a).WordAt as k id
    · obtain ⟨k, hk⟩ := hlater
      obtain ⟨m, hm, hlast⟩ := ih hk
      refine ⟨m + 1, wordAt_cons_succ.2 hm, ?_⟩
      rintro (_ | j) hj
      · exact Nat.zero_le _
      · exact Nat.succ_le_succ (hlast j (wordAt_cons_succ.1 hj))
    · have hnone : ∀ k, ¬b.WordAt (a :: as) (k + 1) id := fun k hk => hlater ⟨k, hk⟩
      refine ⟨0, ?_, ?_⟩
      · cases n with
        | zero => exact h
        | succ k => exact absurd h (hnone k)
      · rintro (_ | j) hj
        · exact Nat.le_refl 0
        · exact absurd hj (hnone j)

/-- An id on which nothing has a word keeps what stands there. -/
theorem bare?_of_no_word (h : ∀ n, ¬b.WordAt as n id) :
    (b.applyAll .confirmed as).bare? id = b.bare? id := by
  induction as generalizing b with
  | nil => rfl
  | cons a as ih =>
    have hfirst : ¬(id = a.target ∧ b.admits a = true) := fun hw => h 0 (wordAt_cons_zero.2 hw)
    rw [applyAll_cons, ih fun n => h (n + 1), bare?_apply, if_neg hfirst]

theorem bare?_of_no_word_from (h : ∀ m, b.WordAt as m id → m < n) :
    (b.applyAll .confirmed as).bare? id = (b.after as n).bare? id := by
  have hnone : ∀ m, ¬(b.after as n).WordAt (as.drop n) m id := by
    intro m hm
    have hlt := h _ (wordAt_drop.1 hm)
    omega
  rw [← bare?_of_no_word hnone, after, ← applyAll_append, List.take_append_drop]

/-- The last word on an id decides what stands there. -/
theorem LastWordAt.bare?_eq (h : b.LastWordAt as n id) (ha : as[n]? = some a) :
    (b.applyAll .confirmed as).bare? id = a.payload?.map Entity.bare := by
  obtain ⟨⟨a', ha', htarget, hadmits⟩, hlast⟩ := h
  obtain rfl : a' = a := Option.some.inj (ha'.symm.trans ha)
  have hsucc : b.after as (n + 1) = (b.after as n).apply .confirmed a' := by
    rw [after, List.take_add_one, ha', applyAll_append]
    rfl
  rw [bare?_of_no_word_from fun m hm => Nat.lt_succ_of_le (hlast m hm), hsucc, bare?_apply,
    if_pos ⟨htarget.symm, hadmits⟩]

end Words

/-- An action that has the last word on one board, and none on another, leaves on the first one what
the second one has no room for. -/
theorem LastWordAt.bare?_ne {b c : Board} {as : List Action} {n : Nat} {id : EntityId}
    (hb : b.Indexed) (h : c.LastWordAt as n id) (hnone : ∀ m, b.WordAt as m id → m < n) :
    (b.applyAll .confirmed as).bare? id ≠ (c.applyAll .confirmed as).bare? id := by
  have hturn : (b.after as n).Indexed := hb.applyAll .confirmed _
  obtain ⟨a, ha, htarget, -⟩ := h.1
  have hnoroom : ¬(b.after as n).admits a = true := by
    intro hadmits
    exact Nat.lt_irrefl n (hnone n ⟨a, ha, htarget, hadmits⟩)
  simp only [hturn.admits_iff, Classical.not_forall] at hnoroom
  obtain ⟨p, hp, k, hk, hne⟩ := hnoroom
  intro hsame
  have hplace := congrArg (Option.bind · Entity.position?) hsame
  simp only [h.bare?_eq ha, bare?_of_no_word_from hnone, ← place?_eq_bare?] at hplace
  have hfilled : (a.payload?.map Entity.bare).bind Entity.position? = some p := by
    rw [← hp, Action.position?]
    cases a.payload? <;> simp
  rw [hfilled] at hplace
  exact hne (hturn.place_inj hk (htarget ▸ hplace))

theorem LastWordAt.of_bare?_eq {b c : Board} {as : List Action} {n : Nat} {id : EntityId}
    (hb : b.Indexed) (hc : c.Indexed)
    (hsame : (b.applyAll .confirmed as).bare? id = (c.applyAll .confirmed as).bare? id)
    (h : c.LastWordAt as n id) : b.LastWordAt as n id := by
  have hlater : ∃ m, b.WordAt as m id ∧ n ≤ m := by
    apply Classical.byContradiction
    intro hnone
    simp only [not_exists, not_and, Nat.not_le] at hnone
    exact h.bare?_ne hb hnone hsame
  obtain ⟨m, hm, hnm⟩ := hlater
  obtain ⟨j, hj⟩ := exists_lastWordAt hm
  have hnj : n ≤ j := Nat.le_trans hnm (hj.2 m hm)
  rcases Nat.lt_or_eq_of_le hnj with hlt | rfl
  · exact absurd hsame.symm (hj.bare?_ne hc fun k hk => Nat.lt_of_le_of_lt (h.2 k hk) hlt)
  · exact hj

/-- A second pass leaves under an id what the first one left, up to the colour, exactly if the same
action has the last word on it in both. -/
theorem bare?_again_iff {b : Board} (hb : b.Indexed) (as : List Action) (id : EntityId) :
    ((b.applyAll .confirmed as).applyAll .confirmed as).bare? id =
        (b.applyAll .confirmed as).bare? id ↔
      ∀ n, b.LastWordAt as n id ↔ (b.applyAll .confirmed as).LastWordAt as n id := by
  have hc := hb.applyAll .confirmed as
  constructor
  · intro hsame n
    exact ⟨LastWordAt.of_bare?_eq hc hb hsame, LastWordAt.of_bare?_eq hb hc hsame.symm⟩
  · intro hwords
    by_cases hword : ∃ n, (b.applyAll .confirmed as).WordAt as n id
    · obtain ⟨n, hn⟩ := hword
      obtain ⟨m, hm⟩ := exists_lastWordAt hn
      obtain ⟨a, ha, -⟩ := hm.1
      rw [hm.bare?_eq ha, ((hwords m).2 hm).bare?_eq ha]
    · exact bare?_of_no_word fun n hn => hword ⟨n, hn⟩

section Colors

variable {b : Board} {as : List Action} {id : EntityId} {color : String}

/-- An action that does not take a colour away leaves it, and the look that it goes with. -/
theorem color?_apply_of_not_renews {a : Action}
    (h : id = a.target → b.admits a = true → a.renews (b.look? id) (b.color? id) = false)
    (hcolor : b.color? id = some color) :
    (b.apply .confirmed a).color? id = some color ∧
      (b.apply .confirmed a).look? id = b.look? id := by
  have hgains := gainsColors_apply b .confirmed a
  suffices hguess : (b.apply .optimistic a).color? id = some color ∧
      (b.apply .optimistic a).look? id = b.look? id from
    ⟨hgains.color_kept id color hguess.1, (hgains.look?_eq id).trans hguess.2⟩
  rw [color?, look?, get?_apply]
  split
  next hin =>
    have hkept := h hin.1 hin.2
    obtain ⟨e, he, hec⟩ := color?_eq_some_iff.1 hcolor
    rw [hcolor, look?_eq_of_get? he] at hkept
    rw [he, look?_eq_of_get? he]
    cases hp : a.payload? with
    | none => simp [Action.renews, hp] at hkept
    | some p =>
      simp only [Action.renews, hp, Option.all_some, Bool.or_eq_false_iff, bne_eq_false_iff_eq,
        Bool.and_eq_false_iff, Option.isSome_eq_false_iff, Option.isNone_iff_eq_none] at hkept
      obtain ⟨hlook, hnone | hnamed⟩ := hkept
      · simp [Entity.color?_inheritColor, hnone, hlook, hec]
      · simp [Entity.color?_inheritColor, hnamed, hlook]
  next => exact ⟨hcolor, rfl⟩

/-- A colour that is not renewed stays. -/
theorem color?_of_not_renewedIn (h : ¬b.RenewedIn as id) (hcolor : b.color? id = some color) :
    (b.applyAll .confirmed as).color? id = some color := by
  induction as generalizing b with
  | nil => exact hcolor
  | cons a as ih =>
    have hfirst : id = a.target → b.admits a = true →
        a.renews (b.look? id) (b.color? id) = false := by
      intro hid hadmits
      rw [← Bool.not_eq_true]
      intro hrenews
      exact h ⟨0, a, rfl, hid.symm, hadmits, hrenews⟩
    obtain ⟨hkept, hlook⟩ := color?_apply_of_not_renews hfirst hcolor
    apply ih _ hkept
    rintro ⟨n, x, hx, htarget, hadmits, hrenews⟩
    rw [hlook, hkept, ← hcolor] at hrenews
    exact h ⟨n + 1, x, hx, htarget, hadmits, hrenews⟩

end Colors

/-- Confirming a batch again changes nothing exactly if the same actions have the last word both
times, and every character that was left uncoloured the first time, or is renewed the second time,
ends in the colour that it had. -/
theorem get?_again_iff {b once : Board} {as : List Action} (hb : b.Indexed)
    (honce : b.applyAll .confirmed as = once) :
    (∀ id, (once.applyAll .confirmed as).get? id = once.get? id) ↔
      (∀ id n, b.LastWordAt as n id ↔ once.LastWordAt as n id) ∧
        ∀ id, once.color? id = none ∨ once.RenewedIn as id →
          (once.applyAll .confirmed as).color? id = once.color? id := by
  subst honce
  constructor
  · intro hsame
    refine ⟨fun id => (bare?_again_iff hb as id).1 ?_, fun id _ => ?_⟩
    · exact congrArg (Option.map Entity.bare) (hsame id)
    · exact congrArg (Option.bind · Entity.color?) (hsame id)
  · rintro ⟨hwords, hcolors⟩ id
    apply get?_eq_of_bare?_eq ((bare?_again_iff hb as id).2 (hwords id))
    by_cases hopen : (b.applyAll .confirmed as).color? id = none ∨
        (b.applyAll .confirmed as).RenewedIn as id
    · exact hcolors id hopen
    · rw [not_or] at hopen
      obtain ⟨color, hcolor⟩ := Option.ne_none_iff_exists'.1 hopen.1
      rw [hcolor]
      exact color?_of_not_renewedIn hopen.2 hcolor

end Board

end SharedBoard

import SharedBoard.Proofs.Board.Agreement
import SharedBoard.Proofs.Replica.Acknowledgement

/-! Where the colours of the view come from. A guess hands out no colours. As long as the pending
actions name none either, each colour of the view was inherited from one replacement to the next, and
in the end from the confirmed board. -/
namespace SharedBoard

/-- The colour that an action names. -/
def Action.color? (a : Action) : Option String := a.payload?.bind Entity.color?

theorem Action.color?_eq_none {a : Action}
    (h : ∀ c, a = .upsert (.character c) → c.color = none) : a.color? = none := by
  cases a with
  | upsert e =>
    cases e with
    | character c => exact h c rfl
    | floor f => rfl
    | ping p => rfl
  | delete id => rfl
  | ping p => rfl

namespace Board

variable {base b : Board}

/-- The second board has no colours but those of the first, on characters of the same look. -/
def LendsColors (base b : Board) : Prop :=
  ∀ id color, b.color? id = some color → base.color? id = some color ∧ base.look? id = b.look? id

theorem LendsColors.refl (b : Board) : b.LendsColors b := fun _ _ h => ⟨h, rfl⟩

theorem LendsColors.apply (h : base.LendsColors b) {a : Action} (ha : a.color? = none) :
    base.LendsColors (b.apply .optimistic a) := by
  intro k color hk
  have hget := get?_apply b a k
  by_cases htakes : k = a.target ∧ b.admits a = true
  · rw [if_pos htakes] at hget
    cases hp : a.payload? with
    | none =>
      rw [color?, hget, hp] at hk
      cases hk
    | some e =>
      have hunnamed : e.color? = none := by rwa [Action.color?, hp, Option.bind_some] at ha
      rw [hp, Option.map_some] at hget
      rw [color?, hget, Option.bind_some, Entity.color?_inheritColor, hunnamed,
        Option.none_or] at hk
      obtain ⟨prev, hprev, hinherits⟩ := Option.bind_eq_some_iff.1 hk
      obtain ⟨hsame, hcolor⟩ := Option.ite_none_right_eq_some.1 hinherits
      obtain ⟨hbase, hlook⟩ := h k color (color?_eq_some_iff.2 ⟨prev, hprev, hcolor⟩)
      refine ⟨hbase, hlook.trans ?_⟩
      rw [look?_eq_of_get? hprev, look?_eq_of_get? hget, Entity.fingerprint?_inheritColor, hsame]
  · rw [if_neg htakes] at hget
    have hlook : (b.apply .optimistic a).look? k = b.look? k := by rw [look?, hget, look?]
    rw [color?, hget] at hk
    rw [hlook]
    exact h k color hk

theorem LendsColors.applyAll (h : base.LendsColors b) {as : List Action}
    (has : ∀ a ∈ as, a.color? = none) : base.LendsColors (b.applyAll .optimistic as) := by
  induction as generalizing b with
  | nil => exact h
  | cons a as ih =>
    obtain ⟨ha, has⟩ := List.forall_mem_cons.1 has
    exact ih (h.apply ha) has

/-- A colour on the second board is that of a character of the first. -/
theorem LendsColors.exists_character (h : base.LendsColors b) (hbase : base.Indexed) {c : Character}
    {color : String} (hc : b.get? c.id = some (.character c)) (hcolor : c.color = some color) :
    ∃ c', .character c' ∈ base.toList ∧ c'.id = c.id ∧ c'.contents = c.contents ∧
      c'.color = some color := by
  obtain ⟨hlent, hlook⟩ := h c.id color (color?_eq_some_iff.2 ⟨_, hc, hcolor⟩)
  rw [look?_eq_of_get? hc] at hlook
  obtain ⟨c', hc', hsame⟩ := look?_eq_some_iff.1 hlook
  have hid : c'.id = c.id := hbase.keyed hc'
  have hmem : .character c' ∈ base.toList := by
    rw [hbase.mem_toList, ← hc']
    exact congrArg base.get? hid
  rw [color?, hc', Option.bind_some] at hlent
  exact ⟨c', hmem, hid, Contents.fingerprint_inj.1 hsame, hlent⟩

end Board

namespace Replica

/-- The view invents no colour: if no character that is to be sent names one, then every character of
the view that has a colour stands on the confirmed board with the same id, look and colour. -/
theorem view_invents_no_color {r : Replica} (hr : r.Reachable)
    (hpending : ∀ c, .upsert (.character c) ∈ r.pending → c.color = none) (c : Character)
    (color : String) (hc : .character c ∈ r.view.toList) (hcolor : c.color = some color) :
    ∃ c', .character c' ∈ r.confirmed.toList ∧ c'.id = c.id ∧ c'.contents = c.contents ∧
      c'.color = some color := by
  obtain ⟨hconfirmed, hview⟩ := hr.indexed
  have hnames : ∀ a ∈ r.pending, a.color? = none := by
    intro a ha
    apply Action.color?_eq_none
    rintro d rfl
    exact hpending d ha
  have hlends : r.confirmed.LendsColors r.view := by
    rw [hr.inStep, replay]
    exact (Board.LendsColors.refl r.confirmed).applyAll hnames
  exact hlends.exists_character hconfirmed (hview.mem_toList.1 hc) hcolor

/-- Two orcs are confirmed. The first moves; the second turns into an elf and back, with the elf under
way and the orc unsent; and a third finds the position of the first taken. -/
def turncoats : Replica :=
  (empty 1).run [.receive [.upsert (orcAt 1 0), .upsert (orcAt 2 1)] none,
    .edit (.upsert (orcAt 1 5)),
    .edit (.upsert (.character ⟨.ofNat 2, ⟨1, 0, 0⟩, .icon "elf", none⟩)), .collect (.ofNat 8),
    .edit (.upsert (orcAt 2 1)), .edit (.upsert (orcAt 3 5))]

theorem view_invents_no_color_turncoats :
    let moved : Character := ⟨.ofNat 1, ⟨5, 0, 0⟩, .icon "orc", some "#D94B4B"⟩
    (∀ c, .upsert (.character c) ∈ turncoats.pending → c.color = none) ∧
      .character moved ∈ turncoats.view.toList ∧
      (∃ c', .character c' ∈ turncoats.confirmed.toList ∧ c'.id = moved.id ∧
        c'.contents = moved.contents ∧ c'.color = some "#D94B4B") ∧
      (turncoats.confirmed.color? (.ofNat 2) = some "#3C7DD9" ∧
        turncoats.view.color? (.ofNat 2) = none) := by
  intro moved
  have hpending : ∀ c, .upsert (.character c) ∈ turncoats.pending → c.color = none := by
    have hnames : ∀ a ∈ turncoats.pending, a.color? = none := by decide
    exact fun c hc => hnames _ hc
  have hmoved : .character moved ∈ turncoats.view.toList := by decide
  exact ⟨hpending, hmoved,
    view_invents_no_color (reachable_run _ _) hpending moved _ hmoved rfl, by decide⟩

end Replica

end SharedBoard

import SharedBoard.Proofs.Board.Agreement
import SharedBoard.Proofs.Replica.Convergence

/-! A replica that joins later, from a snapshot of the confirmed board, against one that was there all
along. Their confirmed boards list the characters of one look in different orders, and still hold the
same entities in the same colours, whatever follows, as long as the palette suffices for every look. -/
namespace SharedBoard.Replica

/-- The board on which a call builds the confirmed one. -/
def base (r : Replica) : Call → Board
  | .load _ => .empty
  | _ => r.confirmed

/-- What a call takes on that board, as confirmed. -/
def confirms (r : Replica) : Call → List Action
  | .receive actions _ => actions
  | .load es => es.map .upsert
  | .expirePing id => if (r.confirmed.get? id).any Entity.isPing then [.delete id] else []
  | _ => []

/-- The boards that the confirmed board goes through in a run: those before a call and after every
single action that it takes. -/
def stages (r : Replica) : List Call → List Board
  | [] => [r.confirmed]
  | c :: cs => r.confirmed :: ((r.base c).stages (r.confirms c) ++ (r.call c).1.stages cs)

theorem confirmed_call_eq (r : Replica) (c : Call) :
    (r.call c).1.confirmed = (r.base c).applyAll .confirmed (r.confirms c) := by
  rw [confirmed_call_input]
  cases c with
  | load es => exact Board.ofEntities_eq_applyAll es
  | expirePing id =>
    simp only [Call.input?, Option.elim_some, Board.absorb, base, confirms]
    split <;> rfl
  | _ => rfl

section Agree

variable {r s : Replica} (h : r.confirmed.Agree s.confirmed)
include h

theorem agree_base (c : Call) : (r.base c).Agree (s.base c) := by
  cases c with
  | load es => exact Board.indexed_empty.agree_refl Board.toldApart_empty
  | _ => exact h

theorem confirms_eq (c : Call) : r.confirms c = s.confirms c := by
  cases c with
  | expirePing id => rw [confirms, h.get?_eq, confirms]
  | _ => rfl

/-- A call keeps two confirmed boards in agreement, through all stages of what it confirms. -/
theorem agree_call {c : Call}
    (hfits : ∀ b ∈ (r.base c).stages (r.confirms c), b.fitsPalette = true) :
    (r.call c).1.confirmed.Agree (s.call c).1.confirmed ∧
      (∀ b ∈ (r.base c).stages (r.confirms c), b.ToldApart) ∧
      ∀ b ∈ (s.base c).stages (s.confirms c), b.ToldApart := by
  rw [confirmed_call_eq, confirmed_call_eq, ← confirms_eq h]
  exact (agree_base h c).applyAll hfits

theorem agree_run {calls : List Call} (hfits : ∀ b ∈ r.stages calls, b.fitsPalette = true) :
    (r.run calls).confirmed.Agree (s.run calls).confirmed ∧
      (∀ b ∈ r.stages calls, b.ToldApart) ∧ ∀ b ∈ s.stages calls, b.ToldApart := by
  induction calls generalizing r s with
  | nil => simpa [stages] using ⟨h, h.toldApart, h.toldApart'⟩
  | cons c cs ih =>
    obtain ⟨-, hrest⟩ := List.forall_mem_cons.1 hfits
    obtain ⟨hcall, hrest⟩ := List.forall_mem_append.1 hrest
    obtain ⟨hnext, hleft, hright⟩ := agree_call h hcall
    obtain ⟨hlast, hlefts, hrights⟩ := ih hnext hrest
    exact ⟨hlast,
      List.forall_mem_cons.2 ⟨h.toldApart, List.forall_mem_append.2 ⟨hleft, hlefts⟩⟩,
      List.forall_mem_cons.2 ⟨h.toldApart', List.forall_mem_append.2 ⟨hright, hrights⟩⟩⟩

end Agree

theorem confirmed_mem_stages (r : Replica) (calls : List Call) : r.confirmed ∈ r.stages calls := by
  cases calls <;> exact List.mem_cons_self

theorem mem_stages_append {r : Replica} {cs ds : List Call} {b : Board}
    (h : b ∈ (r.run cs).stages ds) : b ∈ r.stages (cs ++ ds) := by
  induction cs generalizing r with
  | nil => exact h
  | cons c cs ih => exact List.mem_cons_of_mem _ (List.mem_append_right _ (ih h))

/-- A replica joins with a snapshot of another's confirmed board, in whatever order, and both go on
with the same calls. If no group of the other's confirmed board was ever larger than the palette,
their confirmed boards hold the same in the end, colours included, and in neither run did two
characters ever look the same without having colours. -/
theorem rejoin_agrees (undoLimit undoLimit' : Nat) (before after : List Call) {es : List Entity}
    (hfits : ∀ b ∈ (empty undoLimit).stages (before ++ after), b.fitsPalette = true)
    (hes : es.Perm ((empty undoLimit).run before).confirmed.toList) :
    let stayed := (empty undoLimit).run (before ++ after)
    let rejoined := (empty undoLimit').run (.load es :: after)
    rejoined.confirmed.sameEntities stayed.confirmed = true ∧
      (∀ b ∈ (empty undoLimit).stages (before ++ after), b.ToldApart) ∧
      ∀ b ∈ (empty undoLimit').stages (.load es :: after), b.ToldApart := by
  intro stayed rejoined
  have hempty : (empty undoLimit).confirmed.Agree (empty undoLimit).confirmed :=
    Board.indexed_empty.agree_refl Board.toldApart_empty
  obtain ⟨-, htold, -⟩ := agree_run hempty hfits
  have hsnapshot : ((empty undoLimit).run before).confirmed.ToldApart :=
    htold _ (mem_stages_append (confirmed_mem_stages _ after))
  have hindexed : ((empty undoLimit).run before).confirmed.Indexed :=
    (reachable_run undoLimit before).indexed.1
  obtain ⟨hload, hloading⟩ := Board.agree_of_perm_toList hindexed hsnapshot hes
  have hjoined : ((empty undoLimit).run before).confirmed.Agree
      ((empty undoLimit').call (.load es)).1.confirmed := hload
  obtain ⟨hlast, -, hlater⟩ := agree_run hjoined fun b hb => hfits b (mem_stages_append hb)
  refine ⟨?_, htold, ?_⟩
  · rw [Board.sameEntities_iff]
    intro id
    rw [show stayed = _ from run_append _ before after]
    exact (hlast.get?_eq id).symm
  · exact List.forall_mem_cons.2
      ⟨Board.toldApart_empty, List.forall_mem_append.2 ⟨hloading, hlater⟩⟩

/-- Three orcs, of which the first comes again, and an elf. -/
def untilSnapshot : List Call :=
  [.receive [.upsert (orcAt 1 0), .upsert (orcAt 2 1), .upsert (orcAt 3 2), .delete (.ofNat 1),
    .upsert (orcAt 1 3), .upsert (.character ⟨.ofNat 4, ⟨4, 0, 0⟩, .icon "elf", none⟩),
    .ping ⟨.ofNat 9, ⟨0, 0⟩⟩] none]

/-- Another orc finds no room and then comes elsewhere, and the elf becomes an orc. -/
def sinceSnapshot : List Call :=
  [.receive [.upsert (orcAt 5 1), .upsert (orcAt 5 5)] none, .expirePing (.ofNat 9),
    .receive [.delete (.ofNat 5), .upsert (orcAt 4 4), .upsert (orcAt 6 5)] none]

/-- The snapshot lists the orcs in another order, in which they then stay. -/
theorem rejoin_agrees_orcs :
    ((∀ b ∈ (empty 1).stages (untilSnapshot ++ sinceSnapshot), b.fitsPalette = true) ∧
      ((empty 1).run untilSnapshot).confirmed.toList.reverse.Perm
        ((empty 1).run untilSnapshot).confirmed.toList) ∧
    (let stayed := (empty 1).run (untilSnapshot ++ sinceSnapshot)
      let snapshot := ((empty 1).run untilSnapshot).confirmed.toList.reverse
      let rejoined := (empty 1).run (.load snapshot :: sinceSnapshot)
      rejoined.confirmed.sameEntities stayed.confirmed = true ∧
        rejoined.confirmed.group "icon:orc" ≠ stayed.confirmed.group "icon:orc") := by
  have hfits : ∀ b ∈ (empty 1).stages (untilSnapshot ++ sinceSnapshot),
      b.fitsPalette = true := by decide
  have hes := List.reverse_perm ((empty 1).run untilSnapshot).confirmed.toList
  exact ⟨⟨hfits, hes⟩, (rejoin_agrees 1 1 untilSnapshot sinceSnapshot hfits hes).1, by decide⟩

end SharedBoard.Replica

import SharedBoard.Proofs.Replica.Acknowledgement
import SharedBoard.Proofs.Replica.Histories
import SharedBoard.Proofs.Session.History
import SharedBoard.Proofs.Undo.Recorded

/-! Edits that the server confirmed are undone, and the undoing is confirmed in its turn. The entries
were recorded on the view before the edits; their inverses go to a confirmed board that has gained
colours since, and the confirmed board comes back but for colours gained. -/
namespace SharedBoard

/-- What takes an entry back puts no ping on the board. -/
theorem Recorded.createdPing?_inverse (x : Recorded) : x.entry.inverse.createdPing? = none :=
  (UndoEntry.createdPing?_of_ofAction? x.ofAction?_eq).1

theorem createdPing?_of_mem_takeBack {xs : List Recorded} {a : Action} (ha : a ∈ takeBack xs) :
    a.createdPing? = none := by
  rw [takeBack, ← List.map_reverse, List.map_map] at ha
  obtain ⟨x, -, rfl⟩ := List.mem_map.1 ha
  exact x.createdPing?_inverse

/-- Edits that led to a view are taken back, as confirmed, on a board that gained colours over that
view. -/
theorem Leads.takeBack_confirmed {b b' d : Board} {xs : List Recorded} (h : Leads b xs b')
    (hb : b.Indexed) (hd : d.Indexed) (hgains : b'.GainsColors d) :
    b.GainsColors (d.applyAll .confirmed (SharedBoard.takeBack xs)) :=
  (h.takeBack hb).1.trans (hgains.applyAll (h.indexed hb) hd .confirmed _)

namespace History

theorem run_records {h : History} (hfuture : h.future = []) (limit : Nat)
    (entries : List UndoEntry) :
    h.run limit (entries.map .record) = { h with opened := h.opened ++ entries } := by
  induction entries generalizing h with
  | nil => simp
  | cons entry entries ih =>
    rw [List.map_cons, run_cons, step, ih rfl, record]
    simp [hfuture]

/-- Undoing takes an open group back. -/
theorem step_undo_of_opened {h : History} {limit : Nat} (hlimit : 1 ≤ limit)
    (hfuture : h.future = []) (hopened : h.opened ≠ []) :
    (h.step limit .undo).2 = some (h.opened.reverse.map UndoEntry.inverse) := by
  obtain ⟨n, rfl⟩ := Nat.exists_eq_add_of_le' hlimit
  simp [step, fence?, undo?, hfuture, hopened, List.rtake_concat_succ]

end History

namespace Session

/-- Sends what is unsent as one update, and has it confirmed as it was sent. -/
def confirmUnsent (s : Session) (now : Instant) (id : UpdateId) : Session :=
  let (sent, update) := s.collect id
  update.elim sent fun u => sent.confirmed now u.id u.actions

/-- Whether a call edits a token: it puts no ping on a board, and no ping stands under its id. -/
def Call.editsTokenOn (b : Board) : Call → Bool
  | .upsert e => (Action.upsert e).isUndoableOn b
  | .delete id => (Action.delete id).isUndoableOn b
  | _ => false

/-- Whether all calls edit tokens of the view of their moment. -/
def editsTokens (s : Session) : List (Instant × Call) → Bool
  | [] => true
  | c :: cs => c.2.editsTokenOn s.view && (s.call c.1 c.2).1.editsTokens cs

/-- The actions that a list of calls takes on the view. -/
def editedActions (edits : List (Instant × Call)) : List Action :=
  edits.filterMap fun c => c.2.action?

theorem Call.action?_of_editsTokenOn {b : Board} {c : Call} (h : c.editsTokenOn b = true) :
    ∃ a, c.action? = some a ∧ a.isUndoableOn b = true ∧ a.createdPing? = none := by
  have hno : ∀ a : Action, a.isUndoableOn b = true → a.createdPing? = none := by
    intro a ha
    rw [Action.isUndoableOn, Bool.and_eq_true, Option.isNone_iff_eq_none] at ha
    exact ha.1
  cases c with
  | upsert e => exact ⟨_, rfl, h, hno _ h⟩
  | delete id => exact ⟨_, rfl, h, hno _ h⟩
  | _ => cases h

theorem editedActions_ne_nil {s : Session} {edits : List (Instant × Call)}
    (h : s.editsTokens edits = true) (hne : edits ≠ []) : editedActions edits ≠ [] := by
  cases edits with
  | nil => exact absurd rfl hne
  | cons c edits =>
    rw [editsTokens, Bool.and_eq_true] at h
    obtain ⟨a, ha, -⟩ := Call.action?_of_editsTokenOn h.1
    simp [editedActions, ha]

theorem call_of_editsTokenOn {s : Session} (now : Instant) {c : Call}
    (h : c.editsTokenOn s.view = true) {a : Action} (ha : c.action? = some a) :
    (s.call now c).1 = s.edit a ∧
      s.event? c = (UndoEntry.ofAction? s.view a).map History.Event.record := by
  cases c with
  | upsert e =>
    cases ha
    exact ⟨rfl, rfl⟩
  | delete id =>
    cases ha
    exact ⟨rfl, rfl⟩
  | _ => cases h

/-- What edits of tokens do to a replica: they lead from view to view, are recorded on the way, and
wait to be sent. -/
structure Edited (s s' : Session) (xs : List Recorded) (as : List Action) : Prop where
  leads : Leads s.view xs s'.view
  view_eq : s'.view = s.view.applyAll .optimistic as
  confirmed_eq : s'.replica.confirmed = s.replica.confirmed
  unsent_eq : s'.replica.unsent = s.replica.unsent ++ as

theorem edited_edit (s : Session) {a : Action} (h : a.isUndoableOn s.view = true) :
    s.Edited (s.edit a) (Recorded.ofEdit s.view a) [a] := by
  have hview : (s.edit a).view = s.view.apply .optimistic a := Replica.view_edit s.replica a
  exact {
    leads := hview ▸ leads_ofEdit h
    view_eq := hview
    confirmed_eq := Replica.confirmed_edit s.replica a
    unsent_eq := Replica.unsent_edit s.replica a }

theorem Edited.trans {s t u : Session} {xs ys : List Recorded} {as bs : List Action}
    (h : s.Edited t xs as) (h' : t.Edited u ys bs) : s.Edited u (xs ++ ys) (as ++ bs) where
  leads := h.leads.append h'.leads
  view_eq := by rw [h'.view_eq, h.view_eq, Board.applyAll_append]
  confirmed_eq := h'.confirmed_eq.trans h.confirmed_eq
  unsent_eq := by rw [h'.unsent_eq, h.unsent_eq, List.append_assoc]

/-- Edits of tokens are recorded one by one, and none of them puts a ping on the board. -/
theorem edited_run {s : Session} {edits : List (Instant × Call)} (h : s.editsTokens edits = true) :
    (∀ a ∈ editedActions edits, a.createdPing? = none) ∧
      ∃ xs, s.Edited (s.run edits) xs (editedActions edits) ∧
        s.events edits = (xs.map Recorded.entry).map .record := by
  induction edits generalizing s with
  | nil =>
    have hsame : s.Edited s [] [] := ⟨rfl, rfl, rfl, (List.append_nil _).symm⟩
    exact ⟨fun a ha => (List.not_mem_nil ha).elim, [], hsame, rfl⟩
  | cons c edits ih =>
    rw [editsTokens, Bool.and_eq_true] at h
    obtain ⟨htoken, hrest⟩ := h
    obtain ⟨hnone, ys, hys, hevents⟩ := ih hrest
    obtain ⟨a, ha, hundoable, hping⟩ := Call.action?_of_editsTokenOn htoken
    obtain ⟨hcall, hevent⟩ := call_of_editsTokenOn c.1 htoken ha
    have hactions : editedActions (c :: edits) = a :: editedActions edits := by
      simp [editedActions, ha]
    refine ⟨?_, Recorded.ofEdit s.view a ++ ys, ?_, ?_⟩
    · rw [hactions]
      exact List.forall_mem_cons.2 ⟨hping, hnone⟩
    · rw [hcall] at hys
      rw [run_cons, hcall, hactions]
      exact (edited_edit s hundoable).trans hys
    · rw [events, hevents, hevent, List.map_append, List.map_append, map_entry_ofEdit]
      cases UndoEntry.ofAction? s.view a <;> rfl

section ConfirmUnsent

variable {s : Session} (hunsent : s.replica.unsent ≠ [])
include hunsent

theorem isSome_collect (id : UpdateId) : (s.collect id).2.isSome = true := by
  simp [collect, Replica.collect, hunsent]

/-- Without new pings, what is sent is confirmed as a whole. -/
theorem replica_confirmUnsent (hpings : ∀ a ∈ s.replica.unsent, a.createdPing? = none)
    (now : Instant) (id : UpdateId) :
    (s.confirmUnsent now id).replica =
      (s.replica.collect id).1.receive s.replica.unsent (some id) := by
  have hall : s.replica.unsent.filter (fun a => !a.createdPing?.any s.expired.contains) =
      s.replica.unsent := by
    apply List.filter_eq_self.2
    intro a ha
    rw [hpings a ha]
    rfl
  simp [confirmUnsent, collect, Replica.collect, hunsent, confirmed, hall]

theorem settled_confirmUnsent (hpings : ∀ a ∈ s.replica.unsent, a.createdPing? = none)
    (now : Instant) (id : UpdateId) :
    (s.confirmUnsent now id).replica.unsent = [] ∧
      (s.confirmUnsent now id).replica.ledger = s.replica.ledger ∧
      (s.confirmUnsent now id).replica.confirmed =
        s.replica.confirmed.applyAll .confirmed s.replica.unsent := by
  rw [replica_confirmUnsent hunsent hpings]
  refine ⟨?_, ?_, ?_⟩
  · simp [Replica.unsent_receive, Replica.collect, hunsent]
  · rw [Replica.ledger_receive, Replica.ledger_collect]
  · rw [Replica.confirmed_receive, Replica.confirmed_collect]

end ConfirmUnsent

/-- Undoing edits that were just confirmed gives the actions that take them back, to be sent. -/
theorem undo_of_opened {s : Session} {h : History} {limit : Nat} (hk : s.replica.Keeps h limit)
    (hfuture : h.future = []) (hopened : h.opened ≠ []) :
    s.undo.2 = true ∧
      s.undo.1.replica.unsent =
        s.replica.unsent ++ h.opened.reverse.map UndoEntry.inverse ∧
      s.undo.1.replica.confirmed = s.replica.confirmed := by
  have hfollows := hk.follows_undo
  rw [History.step_undo_of_opened hk.wellFormed.limit_pos hfuture hopened] at hfollows
  exact ⟨hfollows.reply_eq, hfollows.unsent_eq,
    (Replica.confirmed_step _ _).trans (Replica.confirmed_fence _)⟩

theorem exists_keeps {s : Session} (hs : s.Reachable)
    (hopen : s.replica.ledger.sets.getLast? = some []) (hredo : s.replica.ledger.canRedo = false) :
    ∃ h limit, s.replica.Keeps h limit ∧ h.opened = [] ∧ h.future = [] := by
  obtain ⟨settings, calls, rfl⟩ := hs
  have hk := keeps_run (s := ofSettings settings) (Replica.keeps_empty settings.maxUndoSets) calls
  have hholds := hk.wellFormed.holds
  rw [hk.ledger_eq] at hopen hredo
  refine ⟨_, _, hk, ?_, ?_⟩
  · simpa [History.toLedger] using hopen
  · by_contra hne
    rw [hholds.canRedo_iff.2 hne] at hredo
    cases hredo

/-- Edits of tokens on a settled session are sent and confirmed, undone, and the undoing sent and
confirmed in its turn, whenever one of them was recorded. The confirmed board then holds what it held
before, in the colours that it had. -/
theorem confirmed_reversal {s : Session} (hs : s.Reachable) (hflight : s.replica.inFlight = [])
    (hunsent : s.replica.unsent = []) (hopen : s.replica.ledger.sets.getLast? = some [])
    (hredo : s.replica.ledger.canRedo = false) {edits : List (Instant × Call)}
    (hedits : s.editsTokens edits = true) (hrecorded : s.events edits ≠ [])
    (now now' : Instant) (id id' : UpdateId) :
    let made := s.run edits
    let settled := made.confirmUnsent now id
    let undone := settled.undo.1
    let reversed := undone.confirmUnsent now' id'
    ((made.collect id).2.isSome = true ∧ settled.undo.2 = true ∧
        (undone.collect id').2.isSome = true) ∧
      s.replica.confirmed.GainsColors reversed.replica.confirmed := by
  intro made settled undone reversed
  obtain ⟨h, limit, hkeeps, hopened, hfuture⟩ := exists_keeps hs hopen hredo
  obtain ⟨hpings, xs, hedited, hevents⟩ := edited_run hedits
  have hview : s.view = s.replica.confirmed := by
    rw [view, hs.replica.inStep, Replica.replay, Replica.pending, hflight, hunsent]
    rfl
  have hindexed : s.replica.confirmed.Indexed := hs.replica.indexed.1
  have hwaiting : made.replica.unsent = editedActions edits := by
    rw [hedited.unsent_eq, hunsent, List.nil_append]
  have hsent : made.replica.unsent ≠ [] := by
    rw [hwaiting]
    apply editedActions_ne_nil hedits
    rintro rfl
    exact hrecorded rfl
  obtain ⟨hnone, hledger, hconfirmed⟩ := settled_confirmUnsent hsent (hwaiting ▸ hpings) now id
  have hgroup := (keeps_run hkeeps edits).of_ledger_eq hledger
  rw [hevents, History.run_records hfuture, hopened, List.nil_append] at hgroup
  have hentries : xs.map Recorded.entry ≠ [] := by
    intro hnil
    rw [hnil] at hevents
    exact hrecorded hevents
  obtain ⟨hundo, hinverses, hkept⟩ := undo_of_opened hgroup hfuture hentries
  rw [hnone, List.nil_append] at hinverses
  have hback : undone.replica.unsent = takeBack xs := hinverses
  have hresent : undone.replica.unsent ≠ [] := by simpa [hback, takeBack] using hentries
  obtain ⟨-, -, hreversed⟩ :=
    settled_confirmUnsent hresent (fun a ha => createdPing?_of_mem_takeBack (hback ▸ ha)) now' id'
  refine ⟨⟨isSome_collect hsent id, hundo, isSome_collect hresent id'⟩, ?_⟩
  have hgains : made.view.GainsColors settled.replica.confirmed := by
    rw [hconfirmed, hwaiting, hedited.confirmed_eq, hedited.view_eq, hview]
    exact (Board.GainsColors.refl _).applyAll hindexed hindexed .confirmed _
  have hsettled : settled.replica.confirmed.Indexed := by
    rw [hconfirmed, hedited.confirmed_eq]
    exact hindexed.applyAll .confirmed _
  rw [hreversed, hback, hkept, ← hview]
  exact hedited.leads.takeBack_confirmed (hview ▸ hindexed) hsettled hgains

/-- A session on a board with one orc, which has no colour. -/
def withOrc : Session :=
  (ofSettings {}).run [(0, .confirmed (.ofNat 9) [.upsert (Replica.orcAt 1 0)])]

/-- A second orc is refused the place of the first, and takes one of its own; the first is deleted,
and comes back elsewhere. -/
def orcEdits : List (Instant × Call) :=
  [(1, .upsert (Replica.orcAt 2 0)), (1, .upsert (Replica.orcAt 2 1)),
    (2, .delete (.ofNat 1)), (3, .upsert (Replica.orcAt 1 5)), (4, .delete (.ofNat 8))]

/-- The first orc has a colour in the end, which the second one's coming gave it. -/
theorem confirmed_reversal_withOrc :
    (withOrc.Reachable ∧ withOrc.replica.inFlight = [] ∧ withOrc.replica.unsent = [] ∧
      withOrc.replica.ledger.sets.getLast? = some [] ∧
      withOrc.replica.ledger.canRedo = false ∧ withOrc.editsTokens orcEdits = true ∧
      withOrc.events orcEdits ≠ []) ∧
    (let settled := (withOrc.run orcEdits).confirmUnsent 5 (.ofNat 10)
      let reversed := settled.undo.1.confirmUnsent 6 (.ofNat 11)
      settled.undo.2 = true ∧
        withOrc.replica.confirmed.GainsColors reversed.replica.confirmed ∧
        withOrc.replica.confirmed.color? (.ofNat 1) = none ∧
        (reversed.replica.confirmed.color? (.ofNat 1)).isSome = true) := by
  have hreachable : withOrc.Reachable := reachable_run _ _
  have hflight : withOrc.replica.inFlight = [] := by decide
  have hunsent : withOrc.replica.unsent = [] := by decide
  have hopen : withOrc.replica.ledger.sets.getLast? = some [] := by decide
  have hredo : withOrc.replica.ledger.canRedo = false := by decide
  have hedits : withOrc.editsTokens orcEdits = true := by decide
  have hrecorded : withOrc.events orcEdits ≠ [] := by decide
  have hreversal := confirmed_reversal hreachable hflight hunsent hopen hredo hedits hrecorded
    5 6 (.ofNat 10) (.ofNat 11)
  exact ⟨⟨hreachable, hflight, hunsent, hopen, hredo, hedits, hrecorded⟩,
    hreversal.1.2.1, hreversal.2, by decide, by decide⟩

end Session

end SharedBoard

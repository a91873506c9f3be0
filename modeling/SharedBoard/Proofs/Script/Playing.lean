import SharedBoard.Proofs.Board.Queries
import SharedBoard.Proofs.Json.Indented
import SharedBoard.Proofs.Replica.Histories
import SharedBoard.Proofs.Script.Reading
import SharedBoard.Proofs.Session.Calls
import SharedBoard.Proofs.Wire.RoundTrip

/-! What playing a script prints. Each event is one call on a session that starts new, and the board
that is printed is the one after the last of them. -/
namespace SharedBoard.Script

/-! ## Events as calls -/

/-- The call that an event makes; a ping, and an update without an id, takes the new one. -/
def Event.call (newId : Uuid) : Event → Session.Call
  | .command c => c.toCall newId
  | .collect id => .collect (id.getD newId)

def Event.takesId : Event → Bool
  | .command c => c.takesId
  | .collect id => id.isNone

/-- One call for each event, in order; `taken` new ids were taken before. -/
def calls (fresh : Nat → Uuid) : Nat → List Event → List Session.Call
  | _, [] => []
  | taken, e :: es =>
    e.call (fresh taken) :: calls fresh (if e.takesId then taken + 1 else taken) es

section Playing

variable (fresh : Nat → Uuid) (settings : Settings)

theorem Playback.step_eq (p : Playback) (e : Event) :
    p.step fresh e = ⟨(p.session.call 0 (e.call (fresh p.taken))).1,
      if e.takesId then p.taken + 1 else p.taken⟩ := by
  cases e with
  | command c => rfl
  | collect id => cases id <;> rfl

theorem foldl_step (p : Playback) (es : List Event) :
    (es.foldl (Playback.step fresh) p).session =
      p.session.run ((calls fresh p.taken es).map fun c => (0, c)) := by
  induction es generalizing p with
  | nil => rfl
  | cons e es ih =>
    rw [List.foldl_cons, ih, Playback.step_eq, calls, List.map_cons, Session.run_cons]

/-- The session on which the calls of the events are made, one after the other, from a new one. -/
theorem play_eq_run (es : List Event) :
    play fresh settings es =
      (Session.ofSettings settings).run ((calls fresh 0 es).map fun c => (0, c)) :=
  foldl_step fresh _ es

end Playing

/-! ## Printed boards -/

/-- The text is a JSON array of the entities of a board: each of them once, by increasing id. -/
def Lists (b : Board) (text : String) : Prop :=
  ∃ es : List Entity, Json.ofText text = .ok (.arr (es.map Entity.toJson)) ∧
    es.Pairwise (fun d e => d.id.bits < e.id.bits) ∧ ∀ e, e ∈ es ↔ ∃ id, b.get? id = some e

theorem lists_render {b : Board} (h : b.Indexed) : Lists b (render b) := by
  have hstored : ∀ e, e ∈ b.toList ↔ ∃ id, b.get? id = some e := by
    intro e
    rw [h.mem_toList]
    constructor
    · intro he
      exact ⟨e.id, he⟩
    · rintro ⟨id, he⟩
      rwa [h.keyed he]
  have hfits : Json.Fits 3 (.arr (b.toList.map Entity.toJson)) := .arr fun v hv => by
    obtain ⟨e, -, rfl⟩ := List.mem_map.1 hv
    exact Wire.fits_entity e
  exact ⟨b.toList, Json.ofText_pretty (hfits.mono (by decide)), h.pairwise_toList, hstored⟩

theorem Layer.indexed_board (layer : Layer) {s : Session} (h : s.Reachable) :
    (layer.board s).Indexed := by
  obtain ⟨hconfirmed, hview⟩ := h.replica.indexed
  cases layer with
  | view => exact hview
  | confirmed => exact hconfirmed

/-! ## Whole scripts -/

section Runs

variable (fresh : Nat → Uuid) (settings : Settings) (layer : Layer) (text : String)

theorem run_eq_ok_iff (out : String) :
    run fresh settings layer text = .ok out ↔ ∃ es, Reads (lines text.toList) es ∧
      out = render (layer.board (play fresh settings es)) := by
  simp only [run, ← eventsFrom_eq_ok_iff 1, ← events_eq]
  cases events text <;> simp [Except.map, eq_comm]

theorem run_eq_error_iff (bad : BadLine) :
    run fresh settings layer text = .error bad ↔
      ∃ k, StopsAt (lines text.toList) k bad.fault ∧ bad.number = k + 1 := by
  simp only [Nat.add_comm _ 1, ← eventsFrom_eq_error_iff, ← events_eq, run]
  cases events text <;> simp [Except.map]

end Runs

/-- Reading a script takes the events of its lines, each once and in order, and playing it makes their
calls, one after the other, on a new session. A script whose lines are all faultless prints the board
after the last call: the array of its entities, each once and by increasing id. Any other script prints
no board, but has the number, counted from 1 over all lines, of the first one at fault, whatever stands
after it. Lines without an event can come and go, and lines can be indented anew, without a change of
what is printed. -/
theorem run_reads_lines (fresh : Nat → Uuid) (settings : Settings) (layer : Layer) (text : String) :
    let ls := lines text.toList
    let board es := layer.board
      ((Session.ofSettings settings).run ((calls fresh 0 es).map fun c => (0, c)))
    (List.intercalate ['\n'] ls = text.toList ∧
      ∀ line ∈ ls, '\n' ∉ line ∧ Blank.Trims line (Blank.trim line)) ∧
    ((∃ out, run fresh settings layer text = .ok out) ↔ ∀ line ∈ ls, Faultless line) ∧
    (∀ out, run fresh settings layer text = .ok out ↔
      ∃ es, Reads ls es ∧ out = render (board es)) ∧
    (∀ bad, run fresh settings layer text = .error bad ↔
      ∃ k, StopsAt ls k bad.fault ∧ bad.number = k + 1) ∧
    (∀ other : String, Respaced ls (lines other.toList) → ∀ out,
      run fresh settings layer other = .ok out ↔ run fresh settings layer text = .ok out) ∧
    ∀ es, Lists (board es) (render (board es)) := by
  intro ls board
  have hok : ∀ out, run fresh settings layer text = .ok out ↔
      ∃ es, Reads ls es ∧ out = render (board es) := by
    intro out
    simp only [run_eq_ok_iff, play_eq_run, ls, board]
  have hlines : ∀ line ∈ ls, '\n' ∉ line ∧ Blank.Trims line (Blank.trim line) :=
    fun line hline => ⟨not_mem_lines text.toList line hline, Blank.trims_trim line⟩
  refine ⟨⟨intercalate_lines _, hlines⟩, ?_, hok, run_eq_error_iff fresh settings layer text, ?_, ?_⟩
  · rw [← exists_reads_iff]
    simp only [hok]
    constructor
    · rintro ⟨_, es, hreads, -⟩
      exact ⟨es, hreads⟩
    · rintro ⟨es, hreads⟩
      exact ⟨_, es, hreads, rfl⟩
  · intro other hspaced out
    simp only [run_eq_ok_iff, ls, hspaced.reads_iff]
  · intro es
    exact lists_render (layer.indexed_board (Session.reachable_run settings _))

/-- Line 5 is no event: the comment and the blank lines before it count. -/
example :
    run Uuid.ofNat {} .view
      "# two steps\r\n\r\n\t\x7b\"event\":\"undo\"\x7d\r\n\n  redo\n\x7b\"event\":\"fence\"\x7d" =
      .error ⟨5, .malformed⟩ := by
  cbv

end SharedBoard.Script

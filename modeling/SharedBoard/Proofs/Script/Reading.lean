import SharedBoard.Proofs.Text.Trimming
import SharedBoard.Script

/-! How a script is read. The events of a script are those of its lines, in order, and the lines that
hold none may come, go and be indented anew; the first line that holds something else ends the reading,
and its number counts every line before it. -/
namespace SharedBoard.Script

open Json (Fault)

/-- No line breaks are left inside the lines. -/
theorem not_mem_lines (cs : List Char) : ∀ line ∈ lines cs, '\n' ∉ line := by
  induction cs with
  | nil => simp [lines]
  | cons c cs ih =>
    change ∀ line ∈ consChar c (lines cs), '\n' ∉ line
    cases h : lines cs with
    | nil => by_cases hc : c = '\n' <;> simp [consChar, hc, eq_comm]
    | cons first rest =>
      rw [h] at ih
      by_cases hc : c = '\n'
      · simpa [consChar, hc] using ih
      · simpa [consChar, hc, Ne.symm hc] using ih

/-! ## Lines that hold events -/

/-- Trimmed, the line is neither empty nor a comment. -/
def HoldsEvent (line : List Char) : Prop :=
  Blank.trim line ≠ [] ∧ (Blank.trim line).head? ≠ some '#'

def eventOf (line : List Char) : Except Fault Event :=
  Event.ofText (String.ofList (Blank.trim line))

def Faultless (line : List Char) : Prop := HoldsEvent line → ∃ e, eventOf line = .ok e

/-- The lines hold these events, in order, and no others. -/
inductive Reads : List (List Char) → List Event → Prop
  | nil : Reads [] []
  | pass {line : List Char} {ls : List (List Char)} {es : List Event} (hline : ¬HoldsEvent line)
    (h : Reads ls es) : Reads (line :: ls) es
  | take {line : List Char} {ls : List (List Char)} {e : Event} {es : List Event}
    (hline : HoldsEvent line) (he : eventOf line = .ok e) (h : Reads ls es) :
    Reads (line :: ls) (e :: es)

/-- After `k` faultless lines comes one that should hold an event and does not. -/
def StopsAt (ls : List (List Char)) (k : Nat) (fault : Fault) : Prop :=
  ∃ before line after, ls = before ++ line :: after ∧ before.length = k ∧
    (∀ l ∈ before, Faultless l) ∧ HoldsEvent line ∧ eventOf line = .error fault

section Lines

variable {line : List Char} {ls : List (List Char)} {es : List Event}

theorem isSignificant_trim_iff (line : List Char) :
    isSignificant (Blank.trim line) = true ↔ HoldsEvent line := by
  simp [isSignificant, HoldsEvent]

theorem reads_nil_iff : Reads [] es ↔ es = [] := by
  constructor
  · rintro ⟨⟩
    rfl
  · rintro rfl
    exact .nil

theorem reads_pass_iff (hline : ¬HoldsEvent line) : Reads (line :: ls) es ↔ Reads ls es := by
  constructor
  · intro h
    cases h with
    | pass _ h => exact h
    | take h _ _ => exact absurd h hline
  · exact .pass hline

theorem reads_take_iff (hline : HoldsEvent line) :
    Reads (line :: ls) es ↔ ∃ e rest, eventOf line = .ok e ∧ Reads ls rest ∧ es = e :: rest := by
  constructor
  · intro h
    cases h with
    | pass h _ => exact absurd hline h
    | take _ he h => exact ⟨_, _, he, h, rfl⟩
  · rintro ⟨e, rest, he, h, rfl⟩
    exact .take hline he h

theorem exists_reads_iff : (∃ es, Reads ls es) ↔ ∀ line ∈ ls, Faultless line := by
  constructor
  · rintro ⟨es, h⟩
    induction h with
    | nil => exact List.forall_mem_nil _
    | pass hline _ ih => exact List.forall_mem_cons.2 ⟨fun h => absurd h hline, ih⟩
    | take _ he _ ih => exact List.forall_mem_cons.2 ⟨fun _ => ⟨_, he⟩, ih⟩
  · intro hgood
    induction ls with
    | nil => exact ⟨[], .nil⟩
    | cons line ls ih =>
      obtain ⟨hfirst, hrest⟩ := List.forall_mem_cons.1 hgood
      obtain ⟨es, h⟩ := ih hrest
      by_cases hline : HoldsEvent line
      · obtain ⟨e, he⟩ := hfirst hline
        exact ⟨e :: es, .take hline he h⟩
      · exact ⟨es, .pass hline h⟩

theorem not_faultless {fault : Fault} (hline : HoldsEvent line)
    (hfault : eventOf line = .error fault) : ¬Faultless line := by
  intro hgood
  obtain ⟨e, he⟩ := hgood hline
  cases he.symm.trans hfault

theorem stopsAt_cons_iff {k : Nat} {fault : Fault} :
    StopsAt (line :: ls) k fault ↔
      k = 0 ∧ HoldsEvent line ∧ eventOf line = .error fault ∨
        Faultless line ∧ ∃ j, k = j + 1 ∧ StopsAt ls j fault := by
  constructor
  · rintro ⟨before, bad, after, hls, rfl, hgood, hbad⟩
    cases before with
    | nil =>
      obtain ⟨rfl, rfl⟩ := List.cons.inj hls
      exact .inl ⟨rfl, hbad⟩
    | cons first before =>
      obtain ⟨rfl, rfl⟩ := List.cons.inj hls
      obtain ⟨hfirst, hgood⟩ := List.forall_mem_cons.1 hgood
      exact .inr ⟨hfirst, before.length, rfl, before, bad, after, rfl, rfl, hgood, hbad⟩
  · rintro (⟨rfl, hbad⟩ | ⟨hline, _, rfl, before, bad, after, rfl, rfl, hgood, hbad⟩)
    · exact ⟨[], line, ls, rfl, rfl, List.forall_mem_nil _, hbad⟩
    · exact ⟨line :: before, bad, after, rfl, rfl, List.forall_mem_cons.2 ⟨hline, hgood⟩, hbad⟩

theorem stopsAt_cons_of_faultless {k : Nat} {fault : Fault} (hline : Faultless line) :
    StopsAt (line :: ls) k fault ↔ ∃ j, k = j + 1 ∧ StopsAt ls j fault := by
  rw [stopsAt_cons_iff, and_iff_right hline, or_iff_right]
  rintro ⟨-, hholds, hfault⟩
  exact not_faultless hholds hfault hline

theorem stopsAt_cons_of_error {k : Nat} {fault found : Fault} (hline : HoldsEvent line)
    (hfound : eventOf line = .error found) :
    StopsAt (line :: ls) k fault ↔ k = 0 ∧ found = fault := by
  rw [stopsAt_cons_iff, hfound, and_iff_right hline, Except.error.injEq, or_iff_left]
  exact fun h => not_faultless hline hfound h.1

end Lines

/-! ## Reading in one pass -/

/-- The events of some lines, the first of which has number `n`. -/
def eventsFrom (n : Nat) (ls : List (List Char)) : Except BadLine (List Event) :=
  (((ls.map Blank.trim).zipIdx n).filter fun l => isSignificant l.1).mapM readLine

theorem events_eq (text : String) : events text = eventsFrom 1 (lines text.toList) := rfl

section OnePass

variable {line : List Char} {ls : List (List Char)} {es : List Event} (n : Nat)

theorem eventsFrom_nil : eventsFrom n [] = .ok [] := rfl

theorem eventsFrom_pass (hline : ¬HoldsEvent line) :
    eventsFrom n (line :: ls) = eventsFrom (n + 1) ls := by
  have hskip := mt (isSignificant_trim_iff line).1 hline
  simp only [eventsFrom, List.map_cons, List.zipIdx_cons, List.filter_cons, hskip, if_false,
    Bool.false_eq_true]

theorem eventsFrom_take (hline : HoldsEvent line) :
    eventsFrom n (line :: ls) =
      match eventOf line with
      | .ok e => (eventsFrom (n + 1) ls).map (e :: ·)
      | .error fault => .error ⟨n, fault⟩ := by
  have hkeep := (isSignificant_trim_iff line).2 hline
  simp only [eventsFrom, List.map_cons, List.zipIdx_cons, List.filter_cons, hkeep, if_true,
    List.mapM_cons]
  change ((eventOf line).mapError _ >>= _) = _
  cases eventOf line with
  | ok e => exact (bind_pure_comp (e :: ·) (eventsFrom (n + 1) ls)).trans rfl
  | error fault => rfl

theorem eventsFrom_eq_ok_iff : eventsFrom n ls = .ok es ↔ Reads ls es := by
  induction ls generalizing n es with
  | nil => rw [eventsFrom_nil, reads_nil_iff, Except.ok.injEq, eq_comm]
  | cons line ls ih =>
    by_cases hline : HoldsEvent line
    · rw [eventsFrom_take n hline, reads_take_iff hline]
      cases eventOf line with
      | error fault => simp
      | ok e =>
        simp only [← ih (n + 1)]
        cases eventsFrom (n + 1) ls <;> simp [Except.map, eq_comm]
    · rw [eventsFrom_pass n hline, reads_pass_iff hline, ih]

theorem eventsFrom_eq_error_iff (bad : BadLine) :
    eventsFrom n ls = .error bad ↔ ∃ k, StopsAt ls k bad.fault ∧ bad.number = n + k := by
  induction ls generalizing n with
  | nil => simp [eventsFrom_nil, StopsAt]
  | cons line ls ih =>
    have hafter : Faultless line → ((∃ k, StopsAt (line :: ls) k bad.fault ∧ bad.number = n + k) ↔
        eventsFrom (n + 1) ls = .error bad) := by
      intro hgood
      rw [ih]
      constructor
      · rintro ⟨k, hstops, hnumber⟩
        obtain ⟨k, rfl, h⟩ := (stopsAt_cons_of_faultless hgood).1 hstops
        exact ⟨k, h, by omega⟩
      · rintro ⟨k, h, hnumber⟩
        exact ⟨k + 1, (stopsAt_cons_of_faultless hgood).2 ⟨k, rfl, h⟩, by omega⟩
    by_cases hline : HoldsEvent line
    · rw [eventsFrom_take n hline]
      cases he : eventOf line with
      | error fault =>
        simp only [stopsAt_cons_of_error hline he]
        constructor
        · rintro ⟨⟩
          exact ⟨0, ⟨rfl, rfl⟩, rfl⟩
        · rintro ⟨_, ⟨rfl, rfl⟩, hnumber⟩
          rw [← Nat.add_zero n, ← hnumber]
      | ok e =>
        rw [hafter fun _ => ⟨e, he⟩]
        cases eventsFrom (n + 1) ls <;> simp [Except.map]
    · rw [eventsFrom_pass n hline, hafter fun h => absurd h hline]

end OnePass

/-! ## Lines without events -/

/-- Lines without an event come and go, and lines are indented anew. -/
inductive Respaced : List (List Char) → List (List Char) → Prop
  | nil : Respaced [] []
  | insert {line : List Char} {ls ms : List (List Char)} (hline : ¬HoldsEvent line)
    (h : Respaced ls ms) : Respaced ls (line :: ms)
  | remove {line : List Char} {ls ms : List (List Char)} (hline : ¬HoldsEvent line)
    (h : Respaced ls ms) : Respaced (line :: ls) ms
  | indent {text pre post pre' post' : List Char} {ls ms : List (List Char)}
    (hpads : ∀ c ∈ pre ++ post ++ pre' ++ post', Blank.isBlank c = true) (h : Respaced ls ms) :
    Respaced ((pre ++ text ++ post) :: ls) ((pre' ++ text ++ post') :: ms)

/-- Events are read the same however the lines without one lie between them. -/
theorem Respaced.reads_iff {ls ms : List (List Char)} (h : Respaced ls ms) (es : List Event) :
    Reads ls es ↔ Reads ms es := by
  induction h generalizing es with
  | nil => rfl
  | insert hline _ ih => rw [ih, reads_pass_iff hline]
  | remove hline _ ih => rw [reads_pass_iff hline, ih]
  | @indent text pre post pre' post' ls ms hpads _ ih =>
    simp only [List.forall_mem_append] at hpads
    obtain ⟨⟨⟨hpre, hpost⟩, hpre'⟩, hpost'⟩ := hpads
    have htrim : Blank.trim (pre ++ text ++ post) = Blank.trim (pre' ++ text ++ post') := by
      rw [Blank.trim_append_blanks hpost, Blank.trim_append_blanks hpost',
        Blank.trim_blanks_append hpre, Blank.trim_blanks_append hpre']
    have hholds : HoldsEvent (pre ++ text ++ post) ↔ HoldsEvent (pre' ++ text ++ post') := by
      rw [HoldsEvent, HoldsEvent, htrim]
    have hevent : eventOf (pre ++ text ++ post) = eventOf (pre' ++ text ++ post') := by
      rw [eventOf, eventOf, htrim]
    by_cases hline : HoldsEvent (pre ++ text ++ post)
    · simp only [reads_take_iff hline, reads_take_iff (hholds.1 hline), hevent, ih]
    · rw [reads_pass_iff hline, reads_pass_iff (mt hholds.2 hline), ih]

end SharedBoard.Script

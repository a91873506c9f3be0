import SharedBoard.Proofs.Json.Values

/-! Values that are written over indented lines are read back. Between the brackets the indented form
differs from the one in one line by the gaps before the items and before the closing bracket. -/
namespace SharedBoard.Json

theorem isBlank_of_mem_newLine (level : Nat) : ∀ c ∈ newLine level, isBlank c = true := by
  simp [newLine, isBlank]

section Layout

variable (level : Nat)

theorem prettyElements_eq (es : List Json) :
    (if es.isEmpty then [] else [',']) ++ prettyElements level es =
      spacedAfter (newLine (level + 1)) (newLine level) ']' (es.map (prettyChars (level + 1))) := by
  induction es with
  | nil => rfl
  | cons e es ih => simp [prettyElements, spacedAfter, ← ih]

theorem prettyChars_arr (es : List Json) :
    prettyChars level (.arr es) = '[' ::
      spaced (newLine (level + 1)) (newLine level) ']' (es.map (prettyChars (level + 1))) := by
  cases es with
  | nil => rfl
  | cons e es => simp [prettyChars, prettyElements, spaced, ← prettyElements_eq]

theorem prettyMembers_eq (ms : List (String × Json)) :
    (if ms.isEmpty then [] else [',']) ++ prettyMembers level ms =
      spacedAfter (newLine (level + 1)) (newLine level) '\x7d'
        (ms.map fun m => quote m.1 ++ ':' :: ' ' :: prettyChars (level + 1) m.2) := by
  induction ms with
  | nil => rfl
  | cons m ms ih => simp [prettyMembers, spacedAfter, ← ih]

theorem prettyChars_obj (ms : List (String × Json)) :
    prettyChars level (.obj ms) = '\x7b' ::
      spaced (newLine (level + 1)) (newLine level) '\x7d'
        (ms.map fun m => quote m.1 ++ ':' :: ' ' :: prettyChars (level + 1) m.2) := by
  cases ms with
  | nil => rfl
  | cons m ms => simp [prettyChars, prettyMembers, spaced, ← prettyMembers_eq]

theorem startsItem_prettyChars (v : Json) : StartsItem (v.prettyChars level) := by
  cases v with
  | arr es =>
    rw [prettyChars_arr]
    exact ⟨_, _, rfl, by decide⟩
  | obj ms =>
    rw [prettyChars_obj]
    exact ⟨_, _, rfl, by decide⟩
  | null => exact startsItem_compactChars _
  | bool b => exact startsItem_compactChars _
  | int i => exact startsItem_compactChars _
  | real isNegative n e => exact startsItem_compactChars _
  | str s => exact startsItem_compactChars _

end Layout

/-- A blank before a value is passed over. -/
theorem readValue_blank (depth : Nat) (cs : List Char) :
    readValue depth (' ' :: cs) = readValue depth cs := by
  have hskip : skipBlanks (' ' :: cs) = skipBlanks cs := rfl
  cases depth <;> simp only [readValue, readShallow, hskip]

/-- A value is read back at whatever level it was written. -/
theorem readValue_prettyChars {depth : Nat} {v : Json} (h : Fits depth v) :
    ∀ level rest, EndsValue rest →
      readValue depth (v.prettyChars level ++ rest) = .ok (v, rest) := by
  induction h with
  | null => exact fun _ => readValue_compactChars .null
  | bool b => exact fun _ => readValue_compactChars (.bool b)
  | int hi => exact fun _ => readValue_compactChars (.int hi)
  | str s => exact fun _ => readValue_compactChars (.str s)
  | arr _ ih =>
    intro level rest _
    rw [prettyChars_arr]
    refine readValue_square (isBlank_of_mem_newLine _) (isBlank_of_mem_newLine _) rest ?_
    exact takesAll_elements (prettyChars (level + 1)) (fun e _ => startsItem_prettyChars _ e)
      fun e he => ih e he (level + 1)
  | obj _ ih =>
    intro level rest _
    rw [prettyChars_obj]
    refine readValue_curly (isBlank_of_mem_newLine _) (isBlank_of_mem_newLine _) rest ?_
    apply takesAll_members fun v => ' ' :: prettyChars (level + 1) v
    intro m hm rest hrest
    rw [List.cons_append, readValue_blank]
    exact ih m hm (level + 1) rest hrest

/-- An indented text is read back, with a line break at its end. -/
theorem ofText_pretty {v : Json} (h : Fits maxDepth v) : ofText (v.pretty ++ "\n") = .ok v := by
  have hends : EndsValue ['\n'] := by
    rintro _ ⟨⟩
    exact .inl rfl
  have hread := readValue_prettyChars h 0 ['\n'] hends
  have htext : (v.pretty ++ "\n").toList = v.prettyChars 0 ++ ['\n'] := by simp [pretty]
  rw [ofText, readAll, htext, hread]
  rfl

end SharedBoard.Json

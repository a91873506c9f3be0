import SharedBoard.Proofs.Json.Numbers
import SharedBoard.Proofs.Json.Strings

/-! Written values are read back. The reader of a sequence goes from item to item as the writer did,
and a value is followed by a comma, by a closing bracket or by the end of the text, so it is clear
where it ends. -/
namespace SharedBoard.Json

/-- Whether a text ends the value before it: at a blank, at a comma, at a closing bracket or at once. -/
def EndsValue (cs : List Char) : Prop :=
  ∀ c ∈ cs.head?, isBlank c = true ∨ c ∈ [',', ']', '\x7d']

/-- Whether a text starts as an item can: with neither a blank nor a closing bracket. -/
def StartsItem (cs : List Char) : Prop :=
  ∃ c rest, cs = c :: rest ∧ isBlank c = false ∧ c ∉ [']', '\x7d']

theorem endsValue_comma (cs : List Char) : EndsValue (',' :: cs) := by simp [EndsValue]

theorem endsValue_close (b : Bracket) (cs : List Char) : EndsValue (b.close :: cs) := by
  cases b <;> simp [EndsValue, Bracket.close]

theorem EndsValue.endsNumber {cs : List Char} (h : EndsValue cs) : EndsNumber cs := by
  have hblank : ∀ c, isBlank c = true → c ∈ [' ', '\t', '\n', '\r'] := by simp [isBlank, or_assoc]
  have hends : ∀ c ∈ [' ', '\t', '\n', '\r'] ++ [',', ']', '\x7d'],
      c.isDigit = false ∧ c ∉ ['.', 'e', 'E'] := by simp
  intro c hc
  exact hends c (List.mem_append.2 ((h c hc).imp_left (hblank c)))

theorem StartsItem.append {cs : List Char} (h : StartsItem cs) (rest : List Char) :
    StartsItem (cs ++ rest) := by
  obtain ⟨c, more, rfl, hc⟩ := h
  exact ⟨c, more ++ rest, rfl, hc⟩

theorem skipBlanks_cons {c : Char} (h : isBlank c = false) (cs : List Char) :
    skipBlanks (c :: cs) = c :: cs := by simp [skipBlanks, h]

theorem skipBlanks_append {gap : List Char} (h : ∀ c ∈ gap, isBlank c = true) (cs : List Char) :
    skipBlanks (gap ++ cs) = skipBlanks cs := List.dropWhile_append_of_pos h

theorem StartsItem.skipBlanks_eq {cs : List Char} (h : StartsItem cs) : skipBlanks cs = cs := by
  obtain ⟨c, rest, rfl, hblank, -⟩ := h
  exact skipBlanks_cons hblank rest

namespace Bracket

variable (b : Bracket)

theorem isBlank_close : isBlank b.close = false := by cases b <;> rfl

theorem comma_ne_close : ',' ≠ b.close := by cases b <;> decide

theorem ne_close {c : Char} (h : c ∉ [']', '\x7d']) : c ≠ b.close := by
  cases b <;> (rintro rfl; exact h (by decide))

end Bracket

section Sequences

variable {σ : Type} {item : σ → Reader σ} {s next s' : σ} (b : Bracket) {turn : Char}
  {budget gap last cs rest : List Char}

theorem endsValue_last (hlast : ∀ c ∈ last, isBlank c = true) (rest : List Char) :
    EndsValue (last ++ b.close :: rest) := by
  cases last with
  | nil => exact endsValue_close b rest
  | cons c last =>
    rintro _ ⟨⟩
    exact .inl (hlast c List.mem_cons_self)

theorem readItems_last (hlast : ∀ c ∈ last, isBlank c = true)
    (h : item s cs = .ok (s', last ++ b.close :: rest)) :
    readItems b.close item (turn :: budget) s cs = .ok (s', rest) := by
  simp [readItems, h, skipBlanks_append hlast, skipBlanks_cons b.isBlank_close]

theorem readItems_more (hgap : ∀ c ∈ gap, isBlank c = true)
    (h : item s cs = .ok (next, ',' :: (gap ++ rest))) (hstart : StartsItem rest) :
    readItems b.close item (turn :: budget) s cs = readItems b.close item budget next rest := by
  obtain ⟨c, more, rfl, hblank, hclose⟩ := hstart
  have hcomma : isBlank ',' = false := rfl
  simp [readItems, h, skipBlanks_cons hcomma, b.comma_ne_close, skipBlanks_append hgap,
    skipBlanks_cons hblank, b.ne_close hclose]

/-- The reader of an item takes texts off the front, one after the other, whatever follows them. -/
inductive TakesAll (item : σ → Reader σ) : σ → List (List Char) → σ → Prop
  | nil (s : σ) : TakesAll item s [] s
  | cons {s next s' : σ} {t : List Char} {ts : List (List Char)} (hstart : StartsItem t)
      (hitem : ∀ rest, EndsValue rest → item s (t ++ rest) = .ok (next, rest))
      (hrest : TakesAll item next ts s') : TakesAll item s (t :: ts) s'

/-- A reader that puts each item before those in its state takes off all items of a list. -/
theorem takesAll_map {α : Type} {write : α → List Char} {xs : List α} (state : List α → σ)
    (hstart : ∀ x ∈ xs, StartsItem (write x))
    (hitem : ∀ x ∈ xs, ∀ acc rest, EndsValue rest →
      item (state acc) (write x ++ rest) = .ok (state (x :: acc), rest)) :
    TakesAll item (state []) (xs.map write) (state xs.reverse) := by
  have hacc : ∀ acc, TakesAll item (state acc) (xs.map write) (state (xs.reverse ++ acc)) := by
    induction xs with
    | nil => exact fun acc => .nil (state acc)
    | cons x xs ih =>
      obtain ⟨hx, hxs⟩ := List.forall_mem_cons.1 hstart
      obtain ⟨hread, hreads⟩ := List.forall_mem_cons.1 hitem
      intro acc
      rw [List.reverse_cons, List.append_assoc]
      exact .cons hx (hread acc) (ih hxs hreads (x :: acc))
  simpa using hacc []

/-- Texts with commas between them, and a closing bracket. -/
def separated (close : Char) : List (List Char) → List Char
  | [] => [close]
  | [t] => t ++ [close]
  | t :: t' :: ts => t ++ ',' :: separated close (t' :: ts)

/-- What comes after a text: the others, each with a comma and a gap before it, and the closing
bracket after a last gap. -/
def spacedAfter (gap last : List Char) (close : Char) : List (List Char) → List Char
  | [] => last ++ [close]
  | t :: ts => ',' :: (gap ++ (t ++ spacedAfter gap last close ts))

/-- Texts with commas between them, a gap before each, and a closing bracket after a last gap; without
any text there are no gaps. -/
def spaced (gap last : List Char) (close : Char) : List (List Char) → List Char
  | [] => [close]
  | t :: ts => gap ++ (t ++ spacedAfter gap last close ts)

theorem separated_eq_spaced (close : Char) (ts : List (List Char)) :
    separated close ts = spaced [] [] close ts := by
  fun_induction separated close ts with
  | case1 => rfl
  | case2 t => rfl
  | case3 t t' ts ih => rw [ih]; rfl

variable {t : List Char} {ts : List (List Char)}

theorem TakesAll.startsItem (h : TakesAll item s (t :: ts) s') : StartsItem t := by
  cases h with
  | cons hstart hitem hrest => exact hstart

theorem length_lt_spacedAfter (gap last : List Char) (close : Char) (ts : List (List Char)) :
    ts.length < (spacedAfter gap last close ts).length := by
  induction ts with
  | nil => simp [spacedAfter]
  | cons t ts ih => simp only [spacedAfter, List.length_cons, List.length_append]; omega

/-- One turn for each item is enough. -/
theorem readItems_spaced (hgap : ∀ c ∈ gap, isBlank c = true) (hlast : ∀ c ∈ last, isBlank c = true)
    (rest : List Char) (h : TakesAll item s (t :: ts) s')
    (hbudget : (t :: ts).length ≤ budget.length) :
    readItems b.close item budget s (t ++ (spacedAfter gap last b.close ts ++ rest)) =
      .ok (s', rest) := by
  induction ts generalizing s t budget with
  | nil =>
    obtain ⟨turn, budget, rfl⟩ := List.exists_cons_of_length_pos (Nat.zero_lt_of_lt hbudget)
    cases h with
    | cons hstart hitem hrest =>
    cases hrest
    rw [spacedAfter, List.append_assoc]
    exact readItems_last b hlast (hitem _ (endsValue_last b hlast rest))
  | cons t' ts ih =>
    obtain ⟨turn, budget, rfl⟩ := List.exists_cons_of_length_pos (Nat.zero_lt_of_lt hbudget)
    cases h with
    | cons hstart hitem hrest =>
    have hmore := hrest.startsItem.append (spacedAfter gap last b.close ts ++ rest)
    rw [spacedAfter, List.cons_append, List.append_assoc, List.append_assoc,
      readItems_more b hgap (hitem _ (endsValue_comma _)) hmore]
    exact ih hrest (Nat.le_of_succ_le_succ hbudget)

/-- A sequence is read back item by item. -/
theorem readSequence_spaced (hgap : ∀ c ∈ gap, isBlank c = true)
    (hlast : ∀ c ∈ last, isBlank c = true) (rest : List Char) (h : TakesAll item s ts s') :
    readSequence b.close item s (spaced gap last b.close ts ++ rest) = .ok (s', rest) := by
  unfold readSequence
  cases ts with
  | nil =>
    cases h
    simp [spaced, skipBlanks_cons b.isBlank_close]
  | cons t ts =>
    have hstart := h.startsItem.append (spacedAfter gap last b.close ts ++ rest)
    have hlen := length_lt_spacedAfter gap last b.close ts
    have hbudget : (t :: ts).length ≤ (t ++ (spacedAfter gap last b.close ts ++ rest)).length := by
      simp only [List.length_cons, List.length_append]
      omega
    have hitems := readItems_spaced b hgap hlast rest h hbudget
    rw [spaced, List.append_assoc, List.append_assoc, skipBlanks_append hgap, hstart.skipBlanks_eq]
    obtain ⟨c, more, hmore, -, hclose⟩ := hstart
    rw [hmore] at hitems ⊢
    simp only [b.ne_close hclose, if_false, hitems]

theorem readSequence_separated (rest : List Char) (h : TakesAll item s ts s') :
    readSequence b.close item s (separated b.close ts ++ rest) = .ok (s', rest) := by
  rw [separated_eq_spaced]
  exact readSequence_spaced b (by simp) (by simp) rest h

theorem readSequence_square (rest : List Char) (h : TakesAll item s ts s') :
    readSequence ']' item s (separated ']' ts ++ rest) = .ok (s', rest) :=
  readSequence_separated .square rest h

theorem readSequence_curly (rest : List Char) (h : TakesAll item s ts s') :
    readSequence '\x7d' item s (separated '\x7d' ts ++ rest) = .ok (s', rest) :=
  readSequence_separated .curly rest h

end Sequences

section Values

theorem compactElements_eq (es : List Json) :
    compactElements es = separated ']' (es.map compactChars) := by
  induction es with
  | nil => rfl
  | cons e es ih =>
    cases es with
    | nil => rfl
    | cons e' es =>
      rw [compactElements, ih]
      · rfl
      · exact List.cons_ne_nil e' es

/-- A member in one line. -/
def memberChars (m : String × Json) : List Char := quote m.1 ++ ':' :: compactChars m.2

theorem compactMembers_eq (ms : List (String × Json)) :
    compactMembers ms = separated '\x7d' (ms.map memberChars) := by
  induction ms with
  | nil => rfl
  | cons m ms ih =>
    cases ms with
    | nil => rfl
    | cons m' ms =>
      rw [compactMembers, ih]
      · simp [separated, memberChars]
      · exact List.cons_ne_nil m' ms

/-- A digit is none of the characters that mean something else at the start of a value. -/
theorem not_mem_of_isDigit {c : Char} (h : c.isDigit = true) :
    c ∉ [' ', '\t', '\n', '\r', '[', ']', '\x7b', '\x7d', '"', '-'] := by
  have hother : ∀ d ∈ [' ', '\t', '\n', '\r', '[', ']', '\x7b', '\x7d', '"', '-'],
      d.isDigit = false := by simp
  intro hc
  rw [hother c hc] at h
  cases h

theorem startsItem_of_isDigit {c : Char} (h : c.isDigit = true) (cs : List Char) :
    StartsItem (c :: cs) := by
  have hc := not_mem_of_isDigit h
  simp only [List.mem_cons, List.not_mem_nil, or_false, not_or] at hc
  exact ⟨c, cs, rfl, by simp [isBlank, hc], by simp [hc]⟩

theorem exists_digit_ofNat (n : Nat) : ∃ c cs, Decimal.ofNat n = c :: cs ∧ c.isDigit = true := by
  obtain ⟨c, cs, hn⟩ := List.exists_cons_of_ne_nil (Decimal.ofNat_ne_nil n)
  exact ⟨c, cs, hn, Decimal.isDigit_of_mem_ofNat (hn ▸ List.mem_cons_self)⟩

theorem startsItem_compactChars (v : Json) : StartsItem v.compactChars := by
  have hnumber : ∀ n rest, StartsItem (Decimal.ofNat n ++ rest) := by
    intro n rest
    obtain ⟨c, cs, hn, hc⟩ := exists_digit_ofNat n
    rw [hn]
    exact startsItem_of_isDigit hc _
  have hother : ∀ {c : Char} (cs : List Char), isBlank c = false ∧ c ∉ [']', '\x7d'] →
      StartsItem (c :: cs) := fun cs hc => ⟨_, cs, rfl, hc⟩
  cases v with
  | null => exact hother _ (by decide)
  | bool b => cases b <;> exact hother _ (by decide)
  | int i =>
    rw [compactChars, Decimal.ofInt]
    split
    · exact hother _ (by decide)
    · simpa using hnumber i.natAbs []
  | real isNegative n e =>
    rw [compactChars, realChars]
    cases isNegative with
    | true => exact hother _ (by decide)
    | false => simpa using hnumber n _
  | str s => exact hother _ (by decide)
  | arr es => exact hother _ (by decide)
  | obj ms => exact hother _ (by decide)

/-- The values of a text with brackets nested at most `depth` deep, as long as all its numbers are
whole. -/
inductive Fits : Nat → Json → Prop
  | null {depth : Nat} : Fits depth .null
  | bool {depth : Nat} (b : Bool) : Fits depth (.bool b)
  | int {depth : Nat} {i : Int} (h : IsWhole i) : Fits depth (.int i)
  | str {depth : Nat} (s : String) : Fits depth (.str s)
  | arr {depth : Nat} {es : List Json} (h : ∀ e ∈ es, Fits depth e) : Fits (depth + 1) (.arr es)
  | obj {depth : Nat} {ms : List (String × Json)} (h : ∀ m ∈ ms, Fits depth m.2) :
    Fits (depth + 1) (.obj ms)

theorem Fits.mono {depth depth' : Nat} {v : Json} (h : Fits depth v) (hle : depth ≤ depth') :
    Fits depth' v := by
  induction h generalizing depth' with
  | null => exact .null
  | bool b => exact .bool b
  | int hi => exact .int hi
  | str s => exact .str s
  | arr _ ih =>
    obtain ⟨d, rfl⟩ := Nat.exists_eq_add_of_le' (Nat.le_trans (Nat.le_add_left 1 _) hle)
    exact .arr fun e he => ih e he (Nat.le_of_succ_le_succ hle)
  | obj _ ih =>
    obtain ⟨d, rfl⟩ := Nat.exists_eq_add_of_le' (Nat.le_trans (Nat.le_add_left 1 _) hle)
    exact .obj fun m hm => ih m hm (Nat.le_of_succ_le_succ hle)

section Scalars

variable (nested : Bracket → Reader Json) {rest : List Char}

theorem readShallow_digit {c : Char} (h : c.isDigit = true) (cs : List Char) :
    readShallow nested (c :: cs) = readNumber false (c :: cs) := by
  have hc := not_mem_of_isDigit h
  simp only [List.mem_cons, List.not_mem_nil, or_false, not_or] at hc
  have hblank : isBlank c = false := by simp [isBlank, hc]
  simp [readShallow, skipBlanks_cons hblank, bracket?, hc, h]

theorem readShallow_int {i : Int} (hi : IsWhole i) (h : EndsNumber rest) :
    readShallow nested (Decimal.ofInt i ++ rest) = .ok (.int i, rest) := by
  unfold Decimal.ofInt
  split
  next hneg => exact readNumber_of_neg hi hneg h
  next hpos =>
    obtain ⟨c, cs, hn, hc⟩ := exists_digit_ofNat i.natAbs
    have hread := readNumber_of_nonneg hi (Int.not_lt.1 hpos) h
    rw [hn, List.cons_append] at hread ⊢
    rw [readShallow_digit nested hc, hread]

theorem readShallow_str (s : String) :
    readShallow nested (quote s ++ rest) = .ok (.str s, rest) := by
  have hread : readShallow nested (quote s ++ rest) =
      (readString (s.toList.flatMap escape ++ '"' :: rest)).bind fun p => .ok (.str p.1, p.2) := by
    rw [quote_append]
    rfl
  rw [hread, readString_quote]
  rfl

theorem readShallow_bracket (b : Bracket) {c : Char} (hc : bracket? c = some b)
    (hblank : isBlank c = false) : readShallow nested (c :: rest) = nested b rest := by
  simp [readShallow, skipBlanks_cons hblank, hc]

end Scalars

/-- What is read without regard to nested values is read at any depth. -/
theorem readValue_of_shallow {cs : List Char} {read : Except Fault (Json × List Char)}
    (h : ∀ nested, readShallow nested cs = read) (depth : Nat) : readValue depth cs = read := by
  cases depth <;> exact h _

theorem startsItem_memberChars (m : String × Json) : StartsItem (memberChars m) :=
  ⟨_, _, rfl, by decide⟩

theorem readName_quote (name : String) (rest : List Char) :
    readName (quote name ++ rest) = .ok (name, rest) := by
  rw [quote_append]
  exact readString_quote name rest

theorem readName_memberChars (m : String × Json) (rest : List Char) :
    readName (memberChars m ++ rest) = .ok (m.1, ':' :: (m.2.compactChars ++ rest)) := by
  rw [memberChars, List.append_assoc]
  exact readName_quote m.1 _

theorem readColon_cons (rest : List Char) : readColon (':' :: rest) = .ok rest := rfl

/-- A member is read back by its name and its value. -/
theorem member_quote {read : Reader Json} {name : String} {v : Json} {cs rest : List Char}
    (acc : List (String × Json)) (h : read (cs ++ rest) = .ok (v, rest)) :
    member read acc (quote name ++ ':' :: cs ++ rest) = .ok ((name, v) :: acc, rest) := by
  rw [List.append_assoc, member, readName_quote]
  simp only [bind, Except.bind, List.cons_append, readColon_cons, h]
  rfl

section Brackets

variable {read : Reader Json} (write : Json → List Char)

theorem takesAll_elements {es : List Json} (hstart : ∀ e ∈ es, StartsItem (write e))
    (h : ∀ e ∈ es, ∀ rest, EndsValue rest → read (write e ++ rest) = .ok (e, rest)) :
    TakesAll (element read) [] (es.map write) es.reverse := by
  refine takesAll_map id hstart ?_
  intro e he acc rest hrest
  rw [element, h e he rest hrest]
  rfl

theorem takesAll_members {ms : List (String × Json)}
    (h : ∀ m ∈ ms, ∀ rest, EndsValue rest → read (write m.2 ++ rest) = .ok (m.2, rest)) :
    TakesAll (member read) [] (ms.map fun m => quote m.1 ++ ':' :: write m.2) ms.reverse :=
  takesAll_map id (fun _ _ => ⟨_, _, rfl, by decide⟩)
    fun m hm acc _ hrest => member_quote acc (h m hm _ hrest)

variable {depth : Nat} {gap last : List Char} {ts : List (List Char)}

theorem readValue_square {es : List Json} (hgap : ∀ c ∈ gap, isBlank c = true)
    (hlast : ∀ c ∈ last, isBlank c = true) (rest : List Char)
    (h : TakesAll (element (readValue depth)) [] ts es.reverse) :
    readValue (depth + 1) ('[' :: (spaced gap last ']' ts ++ rest)) = .ok (.arr es, rest) := by
  have hes := readSequence_spaced .square hgap hlast rest h
  rw [Bracket.close] at hes
  rw [readValue, readShallow_bracket _ .square rfl rfl]
  simp [hes, bind, Except.bind, pure, Except.pure]

theorem readValue_curly {ms : List (String × Json)} (hgap : ∀ c ∈ gap, isBlank c = true)
    (hlast : ∀ c ∈ last, isBlank c = true) (rest : List Char)
    (h : TakesAll (member (readValue depth)) [] ts ms.reverse) :
    readValue (depth + 1) ('\x7b' :: (spaced gap last '\x7d' ts ++ rest)) = .ok (.obj ms, rest) := by
  have hms := readSequence_spaced .curly hgap hlast rest h
  rw [Bracket.close] at hms
  rw [readValue, readShallow_bracket _ .curly rfl rfl]
  simp [hms, bind, Except.bind, pure, Except.pure]

end Brackets

/-- A value is read back wherever brackets may be nested as deep as it has them. -/
theorem readValue_compactChars {depth : Nat} {v : Json} (h : Fits depth v) :
    ∀ rest, EndsValue rest → readValue depth (v.compactChars ++ rest) = .ok (v, rest) := by
  have hnone : ∀ c ∈ ([] : List Char), isBlank c = true := by simp
  induction h with
  | null => exact fun _ _ => readValue_of_shallow (fun _ => rfl) _
  | bool b => cases b <;> exact fun _ _ => readValue_of_shallow (fun _ => rfl) _
  | int hi =>
    intro rest hrest
    exact readValue_of_shallow (fun nested => readShallow_int nested hi hrest.endsNumber) _
  | str s => exact fun _ _ => readValue_of_shallow (fun nested => readShallow_str nested s) _
  | arr _ ih =>
    intro rest _
    have hes := takesAll_elements compactChars (fun e _ => startsItem_compactChars e) ih
    rw [compactChars, compactElements_eq, separated_eq_spaced]
    exact readValue_square hnone hnone rest hes
  | obj _ ih =>
    intro rest _
    rw [compactChars, compactMembers_eq, separated_eq_spaced]
    exact readValue_curly hnone hnone rest (takesAll_members compactChars ih)

/-- What reads a written value to its end reads the text of it. -/
theorem readAll_compact {α : Type} {read : Reader α} {v : Json} {a : α}
    (h : read v.compactChars = .ok (a, [])) : readAll read v.compact = .ok a := by
  rw [readAll, compact, String.toList_ofList, h]
  rfl

end Values

end SharedBoard.Json

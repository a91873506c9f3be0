import SharedBoard.Json.Reader
import SharedBoard.Json.Writer

/-! Written strings are read back. Each character is written as itself or as one escape, and a turn
of the reader takes exactly that much off the text, whatever comes next. -/
namespace SharedBoard.Json

/-- The escapes of one letter that are written are among those that are read. -/
theorem lookup_shortEscapes : ∀ p ∈ letterEscapes, shortEscapes.lookup p.2 = some p.1 := by decide

theorem length_le_byteCount (cs : List Char) : cs.length ≤ byteCount cs := by
  induction cs with
  | nil => exact Nat.le_refl 0
  | cons c cs ih =>
    have hpos := c.utf8Size_pos
    rw [List.length_cons, byteCount]
    omega

/-- A code unit in four digits is read back. -/
theorem readUnit_digits {u : Nat} (h : u < 0x10000) (rest : List Char) :
    readUnit (Hex.digits 4 u ++ rest) = .ok (u, rest) := by
  have hlen : (Hex.digits 4 u).length = 4 := Hex.length_digits 4 u
  have htake : (Hex.digits 4 u ++ rest).take 4 = Hex.digits 4 u := List.take_left' hlen
  have hdrop : (Hex.digits 4 u ++ rest).drop 4 = rest := List.drop_left' hlen
  have hbytes := length_le_byteCount (Hex.digits 4 u)
  have hnumber : Hex.number? (Hex.digits 4 u) = some u := by
    rw [Hex.number?_digits]
    exact congrArg some (Nat.mod_eq_of_lt h)
  rw [readUnit, htake, hdrop, if_neg (by omega), hnumber]

theorem toNat_of_control {c : Char} (h : c < ' ') : c.toNat < 0x20 := h

/-- A control character stands far below the surrogates. -/
theorem readCodePoint_control {c : Char} (h : c < ' ') (rest : List Char) :
    readCodePoint (Hex.digits 4 c.toNat ++ rest) = .ok (c, rest) := by
  have hlt := toNat_of_control h
  have hlow : isLowSurrogate c.toNat = false := by
    rw [isLowSurrogate, Bool.and_eq_false_iff, decide_eq_false_iff_not]
    omega
  have hhigh : isHighSurrogate c.toNat = false := by
    rw [isHighSurrogate, Bool.and_eq_false_iff, decide_eq_false_iff_not]
    omega
  have hunit : readUnit (Hex.digits 4 c.toNat ++ rest) = .ok (c.toNat, rest) :=
    readUnit_digits (by omega) rest
  simp [readCodePoint, hunit, bind, Except.bind, hlow, hhigh, pure, Except.pure]

theorem readEscape_letter {c letter : Char} (h : letterEscapes.lookup c = some letter)
    (rest : List Char) : readEscape (letter :: rest) = .ok (c, rest) := by
  obtain ⟨before, after, hsplit, -⟩ := List.lookup_eq_some_iff.1 h
  have hmem : (c, letter) ∈ letterEscapes := by simp [hsplit]
  rw [readEscape, lookup_shortEscapes _ hmem]

theorem readEscape_unit {c : Char} (h : c < ' ') (rest : List Char) :
    readEscape ('u' :: Hex.digits 4 c.toNat ++ rest) = .ok (c, rest) :=
  readCodePoint_control h rest

/-- What needs no escape is neither a quote nor a backslash. -/
theorem ne_of_lookup_letterEscapes {c : Char} (h : letterEscapes.lookup c = none) :
    c ≠ '"' ∧ c ≠ '\\' := by
  constructor <;> (rintro rfl; exact absurd h (by decide))

/-- A turn takes one written character. -/
theorem readChars_escape (c b : Char) (budget read rest : List Char) :
    readChars (b :: budget) read (escape c ++ rest) = readChars budget (c :: read) rest := by
  unfold escape
  cases hc : letterEscapes.lookup c with
  | some letter =>
    rw [List.cons_append, List.cons_append, List.nil_append, readChars, if_neg (by decide),
      if_pos rfl, readEscape_letter hc]
  | none =>
    obtain ⟨hquote, hbackslash⟩ := ne_of_lookup_letterEscapes hc
    dsimp only
    split
    next hcontrol =>
      rw [List.cons_append, readChars, if_neg (by decide), if_pos rfl, readEscape_unit hcontrol]
    next hcontrol =>
      rw [List.cons_append, List.nil_append, readChars, if_neg hquote, if_neg hbackslash,
        if_neg hcontrol]

theorem readChars_escaped (cs : List Char) {budget : List Char} (read rest : List Char)
    (h : cs.length < budget.length) :
    readChars budget read (cs.flatMap escape ++ '"' :: rest) = .ok (read.reverse ++ cs, rest) := by
  induction cs generalizing budget read with
  | nil =>
    obtain ⟨b, budget, rfl⟩ := List.exists_cons_of_length_pos h
    rw [List.flatMap_nil, List.nil_append, readChars, if_pos rfl, List.append_nil]
  | cons c cs ih =>
    obtain ⟨b, budget, rfl⟩ := List.exists_cons_of_length_pos (Nat.zero_lt_of_lt h)
    rw [List.flatMap_cons, List.append_assoc, readChars_escape,
      ih (c :: read) (Nat.lt_of_succ_lt_succ h), List.reverse_cons, List.append_assoc,
      List.singleton_append]

theorem escape_ne_nil (c : Char) : escape c ≠ [] := by
  unfold escape
  split
  · simp
  · split <;> simp

theorem length_le_flatMap_escape (cs : List Char) : cs.length ≤ (cs.flatMap escape).length := by
  induction cs with
  | nil => exact Nat.le_refl 0
  | cons c cs ih =>
    have hpos := List.length_pos_iff.2 (escape_ne_nil c)
    rw [List.flatMap_cons, List.length_append, List.length_cons]
    omega

theorem quote_append (s : String) (rest : List Char) :
    quote s ++ rest = '"' :: (s.toList.flatMap escape ++ '"' :: rest) := by simp [quote]

/-- A string is read back from its quotes. -/
theorem readString_quote (s : String) (rest : List Char) :
    readString (s.toList.flatMap escape ++ '"' :: rest) = .ok (s, rest) := by
  have hlen : s.toList.length < (s.toList.flatMap escape ++ '"' :: rest).length := by
    have hle := length_le_flatMap_escape s.toList
    rw [List.length_append, List.length_cons]
    omega
  rw [readString, readChars_escaped s.toList [] rest hlen]
  simp [bind, Except.bind, pure, Except.pure]

end SharedBoard.Json

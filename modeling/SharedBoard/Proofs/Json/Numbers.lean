import Mathlib.Data.List.Basic
import SharedBoard.Json.Reader
import SharedBoard.Json.Writer

/-! Written whole numbers are read back. A number ends where something comes that cannot go on with
it, such as a comma or a bracket, or where the text ends. -/
namespace SharedBoard

namespace Decimal

theorem ofDigitChars_mono (ds : List Char) (n : Nat) : n ≤ Nat.ofDigitChars 10 ds n := by
  induction ds generalizing n with
  | nil => exact Nat.le_refl n
  | cons d ds ih =>
    rw [Nat.ofDigitChars_cons]
    have hle := ih (10 * n + (d.toNat - '0'.toNat))
    omega

theorem ofNat_ne_nil (n : Nat) : ofNat n ≠ [] := Nat.toDigits_ne_nil

/-- A number is its last digit after those before it. -/
theorem ofNat_of_ge {n : Nat} (h : 10 ≤ n) : ofNat n = ofNat (n / 10) ++ ofNat (n % 10) := by
  have hsplit : n = 10 * (n / 10) + n % 10 := by omega
  conv_lhs => rw [ofNat, hsplit]
  exact (Nat.toDigits_append_toDigits (by decide) (by omega) (by omega)).symm

theorem ofNat_of_lt {n : Nat} (h : n < 10) : ofNat n = [n.digitChar] :=
  Nat.toDigits_of_lt_base h

theorem digitChar_ne_zero : ∀ d < 10, d ≠ 0 → d.digitChar ≠ '0' := by decide

/-- Only zero starts with a zero. -/
theorem head?_ofNat_ne (n : Nat) (h : n ≠ 0) : (ofNat n).head? ≠ some '0' := by
  induction n using Nat.strongRecOn with
  | ind n ih =>
    by_cases hlt : n < 10
    · rw [ofNat_of_lt hlt, List.head?_cons, Ne, Option.some.injEq]
      exact digitChar_ne_zero n hlt h
    · rw [ofNat_of_ge (by omega), List.head?_append_of_ne_nil _ (ofNat_ne_nil _)]
      exact ih (n / 10) (by omega) (by omega)

end Decimal

namespace Json

open Decimal

/-- Whether a text does not go on with a number before it. -/
def EndsNumber (cs : List Char) : Prop := ∀ c ∈ cs.head?, c.isDigit = false ∧ c ∉ ['.', 'e', 'E']

variable {rest : List Char}

theorem readDigits_ofNat (n : Nat) (h : EndsNumber rest) :
    readDigits (ofNat n ++ rest) = .ok (ofNat n, rest) := by
  have hdigits : ∀ c ∈ ofNat n, c.isDigit = true := fun c hc => isDigit_of_mem_ofNat hc
  have hstop : rest.takeWhile Char.isDigit = [] ∧ rest.dropWhile Char.isDigit = rest := by
    cases rest with
    | nil => exact ⟨rfl, rfl⟩
    | cons c cs => simp [(h c rfl).1]
  have htake : (ofNat n ++ rest).takeWhile Char.isDigit = ofNat n := by
    rw [List.takeWhile_append_of_pos hdigits, hstop.1, List.append_nil]
  have hdrop : (ofNat n ++ rest).dropWhile Char.isDigit = rest := by
    rw [List.dropWhile_append_of_pos hdigits, hstop.2]
  unfold readDigits
  rw [htake, hdrop]
  split
  next hnil => exact absurd hnil (ofNat_ne_nil n)
  next => rfl

theorem readWhole_ofNat (n : Nat) (h : EndsNumber rest) :
    readWhole (ofNat n ++ rest) = .ok (ofNat n, rest) := by
  have hzero : ¬((ofNat n).head? = some '0' ∧ (ofNat n).length > 1) := by
    rintro ⟨hhead, hlen⟩
    by_cases hn : n = 0
    · subst hn
      exact absurd hlen (by decide)
    · exact head?_ofNat_ne n hn hhead
  rw [readWhole, readDigits_ofNat n h]
  simpa [bind, Except.bind, pure, Except.pure] using hzero

theorem readFraction_of_ends (h : EndsNumber rest) : readFraction rest = .ok (none, rest) := by
  unfold readFraction
  split
  next => exact absurd (h '.' rfl).2 (by decide)
  next => rfl

theorem readExponent_of_ends (h : EndsNumber rest) : readExponent rest = .ok (none, rest) := by
  cases rest with
  | nil => rfl
  | cons c cs =>
    have hc : ¬(c = 'e' ∨ c = 'E') := by
      have hne := (h c rfl).2
      simp only [List.mem_cons, List.not_mem_nil, or_false, not_or] at hne
      rintro (he | he)
      · exact hne.2.1 he
      · exact hne.2.2 he
    simp [readExponent, hc]

/-- All digits are taken as long as the number that they write has 64 bits. -/
theorem takeDigits_of_lt (ds : List Char) {n : Nat}
    (h : Nat.ofDigitChars 10 ds n < UInt64.size) :
    takeDigits n ds = (Nat.ofDigitChars 10 ds n, 0) := by
  induction ds generalizing n with
  | nil => rfl
  | cons d ds ih =>
    rw [Nat.ofDigitChars_cons] at h ⊢
    have hnext : 10 * n + value d < UInt64.size := Nat.lt_of_le_of_lt (ofDigitChars_mono ds _) h
    rw [takeDigits, if_pos hnext]
    exact ih h

theorem readNumber_ofNat {isNegative : Bool} {n : Nat} {i : Int} (hn : n < UInt64.size)
    (hi : wholeValue? isNegative n = some i) (h : EndsNumber rest) :
    readNumber isNegative (ofNat n ++ rest) = .ok (.int i, rest) := by
  have hvalue : Nat.ofDigitChars 10 (ofNat n) 0 = n :=
    Nat.ofDigitChars_toDigits (by decide) (by decide)
  have htake : takeDigits 0 (ofNat n) = (n, 0) := by
    rw [takeDigits_of_lt (ofNat n) (hvalue.symm ▸ hn), hvalue]
  simp [readNumber, readWhole_ofNat n h, readFraction_of_ends h, readExponent_of_ends h, htake, hi,
    bind, Except.bind, pure, Except.pure]

/-- The whole numbers of 64 bits, signed or not. -/
def IsWhole (i : Int) : Prop := -(1 <<< 63 : Nat) ≤ i ∧ i < UInt64.size

theorem readNumber_of_nonneg {i : Int} (hi : IsWhole i) (hpos : 0 ≤ i) (h : EndsNumber rest) :
    readNumber false (ofNat i.natAbs ++ rest) = .ok (.int i, rest) := by
  have hhi := hi.2
  have hvalue : wholeValue? false i.natAbs = some i := congrArg some (Int.natAbs_of_nonneg hpos)
  exact readNumber_ofNat (by omega) hvalue h

theorem readNumber_of_neg {i : Int} (hi : IsWhole i) (hneg : i < 0) (h : EndsNumber rest) :
    readNumber true (ofNat i.natAbs ++ rest) = .ok (.int i, rest) := by
  have hlo := hi.1
  have hsize : UInt64.size = 2 ^ 64 := rfl
  have hbound : (0 < i.natAbs && i.natAbs ≤ 1 <<< 63) = true := by
    rw [Bool.and_eq_true, decide_eq_true_eq, decide_eq_true_eq]
    omega
  have hvalue : wholeValue? true i.natAbs = some i := by
    rw [wholeValue?, if_pos rfl, if_pos hbound, Option.some.injEq]
    omega
  exact readNumber_ofNat (by omega) hvalue h

end Json

end SharedBoard

/-!
Hexadecimal numbers of a fixed width. Digits are written in lower case and read in either case, and
reading what was written gives the number back, less what the width cut off (`number?_digits`).
-/

namespace SharedBoard.Hex

def value? (c : Char) : Option Nat :=
  if '0' ≤ c ∧ c ≤ '9' then some (c.toNat - '0'.toNat)
  else if 'a' ≤ c ∧ c ≤ 'f' then some (c.toNat - 'a'.toNat + 10)
  else if 'A' ≤ c ∧ c ≤ 'F' then some (c.toNat - 'A'.toNat + 10)
  else none

/-- The last `width` digits of a number. -/
def digits : (width : Nat) → Nat → List Char
  | 0, _ => []
  | width + 1, n => digits width (n / 16) ++ [Nat.digitChar (n % 16)]

/-- The number that a row of digits writes; none when one of the characters is no digit. -/
def number? (cs : List Char) : Option Nat :=
  cs.foldlM (fun n c => (value? c).map (16 * n + ·)) 0

theorem value?_digitChar : ∀ d < 16, value? (Nat.digitChar d) = some d := by decide

@[simp] theorem length_digits (width n : Nat) : (digits width n).length = width := by
  induction width generalizing n with
  | zero => rfl
  | succ width ih => simp [digits, ih]

theorem number?_digits (width n : Nat) :
    number? (digits width n) = some (n % Nat.pow 16 width) := by
  simp only [number?, Nat.pow_eq]
  induction width generalizing n with
  | zero => simp [digits, Nat.mod_one]
  | succ width ih =>
    have hmod : n % 16 ^ (width + 1) = 16 * (n / 16 % 16 ^ width) + n % 16 := by
      rw [Nat.pow_succ', Nat.mod_mul, Nat.add_comm]
    simp [digits, List.foldlM_append, ih, value?_digitChar _ (Nat.mod_lt n (by decide)), hmod]

end SharedBoard.Hex

import SharedBoard.Text.Hex

/-!
128-bit identifiers. They are ordered as numbers, which is the order of their written form, and are
written as hyphenated lower-case hexadecimal. Four written forms are read, in either case.
-/

namespace SharedBoard

structure Uuid where
  bits : BitVec 128
  deriving DecidableEq, Inhabited

namespace Uuid

instance : Ord Uuid := ⟨compareOn bits⟩

instance : Std.TransOrd Uuid := inferInstanceAs (Std.TransCmp (compareOn bits))

instance : Std.LawfulEqOrd Uuid where
  eq_of_compare {a b} h := by
    obtain ⟨a⟩ := a
    obtain ⟨b⟩ := b
    exact congrArg Uuid.mk (Std.LawfulEqOrd.eq_of_compare h)

def ofNat (n : Nat) : Uuid := ⟨BitVec.ofNat 128 n⟩

/-- The written form: 32 digits in groups of 8, 4, 4, 4 and 12. -/
def chars (u : Uuid) : List Char :=
  let ds := Hex.digits 32 u.bits.toNat
  ds.take 8 ++ '-' :: (ds.drop 8).take 4 ++ '-' :: (ds.drop 12).take 4 ++
    '-' :: (ds.drop 16).take 4 ++ '-' :: ds.drop 20

def text (u : Uuid) : String := String.ofList u.chars

instance : ToString Uuid := ⟨text⟩

def ofDigits? (cs : List Char) : Option Uuid :=
  if cs.length = 32 then (Hex.number? cs).map ofNat else none

/-- Reads 32 digits in their five groups. -/
def ofGroups? (cs : List Char) : Option Uuid :=
  if cs.length = 36 ∧ [8, 13, 18, 23].all (fun i => cs[i]? == some '-') then
    ofDigits? (cs.take 8 ++ (cs.drop 9).take 4 ++ (cs.drop 14).take 4 ++ (cs.drop 19).take 4 ++
      cs.drop 24)
  else none

/-- What may stand around the five groups, before and after. -/
def wrappings : List (List Char × List Char) :=
  [([], []), (['\x7b'], ['\x7d']), (['u', 'r', 'n', ':', 'u', 'u', 'i', 'd', ':'], [])]

def ofWrapped? (cs : List Char) (w : List Char × List Char) : Option Uuid :=
  if w.1.isPrefixOf cs && w.2.isSuffixOf cs then
    ofGroups? ((cs.drop w.1.length).take (cs.length - w.1.length - w.2.length))
  else none

def ofChars? (cs : List Char) : Option Uuid :=
  (ofDigits? cs).or (wrappings.findSome? (ofWrapped? cs))

def ofText? (s : String) : Option Uuid := ofChars? s.toList

/-- Five groups of digits with hyphens between them read as the digits do. -/
theorem ofGroups?_hyphenated {a b c d e : List Char} (ha : a.length = 8) (hb : b.length = 4)
    (hc : c.length = 4) (hd : d.length = 4) (he : e.length = 12) :
    ofGroups? (a ++ '-' :: b ++ '-' :: c ++ '-' :: d ++ '-' :: e) =
      ofDigits? (a ++ b ++ c ++ d ++ e) := by
  simp [ofGroups?, List.getElem?_append, List.drop_append, List.drop_of_length_le, *]

theorem ofText?_text (u : Uuid) : ofText? u.text = some u := by
  have hmod : u.bits.toNat % Nat.pow 16 32 = u.bits.toNat := Nat.mod_eq_of_lt u.bits.isLt
  have hdigits : ofDigits? (Hex.digits 32 u.bits.toNat) = some u := by
    rw [ofDigits?, if_pos (Hex.length_digits 32 _), Hex.number?_digits, hmod]
    simp [ofNat]
  have hgroups : ofGroups? u.chars = some u := by
    rw [chars, ofGroups?_hyphenated (by simp) (by simp) (by simp) (by simp) (by simp),
      ← List.take_add, ← List.take_add, ← List.take_add, List.take_append_drop, hdigits]
  have hlen : u.chars.length = 36 := by simp [chars]
  have hbare : ofWrapped? u.chars ([], []) = some u := by
    simp [ofWrapped?, List.isSuffixOf, hgroups]
  simp [ofText?, text, ofChars?, ofDigits?, hlen, wrappings, hbare]

end Uuid

end SharedBoard

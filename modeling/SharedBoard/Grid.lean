/-!
The board grid: flat cells, and positions that add a stack height. Positions are ordered by cell and
then by height, so the positions of one cell are neighbours in the order.
-/

namespace SharedBoard

structure Cell where
  x : Int32
  y : Int32
  deriving DecidableEq, Inhabited

/-- A place for one token: a cell and the height within its stack. -/
structure Position where
  x : Int32
  y : Int32
  z : Int32
  deriving DecidableEq, Inhabited

namespace Cell

instance : Ord Cell := ⟨compareLex (compareOn x) (compareOn y)⟩

instance : Std.TransOrd Cell := inferInstanceAs (Std.TransCmp (compareLex (compareOn x) (compareOn y)))

theorem compare_eq_eq {a b : Cell} : compare a b = .eq ↔ compare a.x b.x = .eq ∧ compare a.y b.y = .eq :=
  compareLex_eq_eq

instance : Std.LawfulEqOrd Cell where
  eq_of_compare {a b} h := by
    obtain ⟨hx, hy⟩ := compare_eq_eq.1 h
    cases a
    cases b
    rw [mk.injEq]
    exact ⟨Std.LawfulEqOrd.eq_of_compare hx, Std.LawfulEqOrd.eq_of_compare hy⟩

/-- The position at a height of the stack on this cell. -/
def atHeight (c : Cell) (z : Int32) : Position := ⟨c.x, c.y, z⟩

def text (c : Cell) : String := toString c.x ++ "," ++ toString c.y

end Cell

namespace Position

instance : Ord Position :=
  ⟨compareLex (compareOn x) (compareLex (compareOn y) (compareOn z))⟩

instance : Std.TransOrd Position :=
  inferInstanceAs (Std.TransCmp (compareLex (compareOn x) (compareLex (compareOn y) (compareOn z))))

def cell (p : Position) : Cell := ⟨p.x, p.y⟩

/-- Positions compare by cell first and by height within a cell. -/
theorem compare_eq_then (p q : Position) :
    compare p q = (compare p.cell q.cell).then (compare p.z q.z) := by
  show (compare p.x q.x).then ((compare p.y q.y).then (compare p.z q.z)) =
    ((compare p.x q.x).then (compare p.y q.y)).then (compare p.z q.z)
  cases compare p.x q.x <;> rfl

instance : Std.LawfulEqOrd Position where
  eq_of_compare {p q} h := by
    rw [compare_eq_then, Ordering.then_eq_eq] at h
    have hc := Std.LawfulEqOrd.eq_of_compare h.1
    have hz := Std.LawfulEqOrd.eq_of_compare h.2
    cases p
    cases q
    simp_all [cell]

def text (p : Position) : String := toString p.x ++ "," ++ toString p.y ++ "," ++ toString p.z

end Position

@[simp] theorem Cell.cell_atHeight (c : Cell) (z : Int32) : (c.atHeight z).cell = c := rfl

end SharedBoard

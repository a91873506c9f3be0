import Mathlib.Data.List.TakeWhile
import SharedBoard.Text.Blank

/-! Trimming takes the blanks off both ends of a text and nothing else, so blanks put there make no
difference. -/
namespace SharedBoard.Blank

/-- The second text is the first without the blanks at both ends. -/
structure Trims (cs text : List Char) : Prop where
  pads : ∃ pre post, cs = pre ++ text ++ post ∧ ∀ c ∈ pre ++ post, isBlank c = true
  head : ∀ c ∈ text.head?, isBlank c = false
  last : ∀ c ∈ text.getLast?, isBlank c = false

theorem isBlank_head?_trimLeft (cs : List Char) : ∀ c ∈ (trimLeft cs).head?, isBlank c = false := by
  intro c hc
  have hfirst := List.head?_dropWhile_not isBlank cs
  rw [← trimLeft, Option.mem_def.1 hc] at hfirst
  exact hfirst

theorem trimLeft_eq_trim_append (cs : List Char) :
    trimLeft cs = trim cs ++ ((trimLeft cs).reverse.takeWhile isBlank).reverse := by
  rw [trim, ← List.reverse_append, trimLeft.eq_def (trimLeft cs).reverse,
    List.takeWhile_append_dropWhile, List.reverse_reverse]

theorem trims_trim (cs : List Char) : Trims cs (trim cs) where
  pads := by
    refine ⟨cs.takeWhile isBlank, ((trimLeft cs).reverse.takeWhile isBlank).reverse, ?_, ?_⟩
    · rw [List.append_assoc, ← trimLeft_eq_trim_append, trimLeft, List.takeWhile_append_dropWhile]
    · intro c hc
      rcases List.mem_append.1 hc with hpre | hpost
      · exact List.mem_takeWhile_imp hpre
      · exact List.mem_takeWhile_imp (List.mem_reverse.1 hpost)
  head c hc := by
    apply isBlank_head?_trimLeft cs
    rw [trimLeft_eq_trim_append, List.head?_append, Option.mem_def.1 hc]
    rfl
  last c hc := by
    rw [trim, List.getLast?_reverse] at hc
    exact isBlank_head?_trimLeft _ c hc

section Pads

variable {pre post : List Char}

theorem trimLeft_eq_nil (h : ∀ c ∈ post, isBlank c = true) : trimLeft post = [] :=
  List.dropWhile_eq_nil_iff.2 h

theorem trimLeft_blanks_append (h : ∀ c ∈ pre, isBlank c = true) (cs : List Char) :
    trimLeft (pre ++ cs) = trimLeft cs := List.dropWhile_append_of_pos h

theorem trim_append_blanks (h : ∀ c ∈ post, isBlank c = true) (cs : List Char) :
    trim (cs ++ post) = trim cs := by
  have hrev : ∀ c ∈ post.reverse, isBlank c = true := fun c hc => h c (List.mem_reverse.1 hc)
  simp only [trim, trimLeft, List.dropWhile_append]
  split
  case isTrue hnil =>
    rw [List.isEmpty_iff.1 hnil]
    exact congrArg (fun cs => (trimLeft cs.reverse).reverse) (trimLeft_eq_nil h)
  case isFalse =>
    rw [List.reverse_append]
    exact congrArg List.reverse (trimLeft_blanks_append hrev _)

theorem trim_blanks_append (h : ∀ c ∈ pre, isBlank c = true) (cs : List Char) :
    trim (pre ++ cs) = trim cs := by
  rw [trim, trim, trimLeft_blanks_append h]

end Pads

end SharedBoard.Blank

/-!
Finite maps kept as entries in strictly increasing key order. The order makes the entries a function
of what `find?` answers, so two maps that answer alike are equal (`SortedMap.ext`), and every
operation is described by one equation for `find?`.
-/

namespace SharedBoard

structure SortedMap (κ υ : Type) [Ord κ] where
  entries : List (κ × υ)
  increasing : entries.Pairwise fun a b => compare a.1 b.1 = .lt
  deriving DecidableEq

namespace SortedMap

variable {κ υ : Type} [Ord κ]

instance : EmptyCollection (SortedMap κ υ) := ⟨⟨[], .nil⟩⟩

instance : Inhabited (SortedMap κ υ) := ⟨∅⟩

def find? (m : SortedMap κ υ) (k : κ) : Option υ :=
  (m.entries.find? fun e => compare k e.1 == .eq).map Prod.snd

def contains (m : SortedMap κ υ) (k : κ) : Bool := (m.find? k).isSome

def size (m : SortedMap κ υ) : Nat := m.entries.length

def isEmpty (m : SortedMap κ υ) : Bool := m.entries.isEmpty

def keys (m : SortedMap κ υ) : List κ := m.entries.map Prod.fst

def values (m : SortedMap κ υ) : List υ := m.entries.map Prod.snd

def erase (m : SortedMap κ υ) (k : κ) : SortedMap κ υ :=
  ⟨m.entries.filter fun e => compare k e.1 != .eq, m.increasing.filter _⟩

/-- The entries with keys from `lo` to `hi`, both included: one stretch of the entry list. -/
def range (m : SortedMap κ υ) (lo hi : κ) : List (κ × υ) :=
  (m.entries.dropWhile fun e => compare e.1 lo == .lt).takeWhile fun e => compare e.1 hi != .gt

/-- Puts a value under a key, in place of what the key held. -/
def insertEntry (k : κ) (v : υ) : List (κ × υ) → List (κ × υ)
  | [] => [(k, v)]
  | e :: rest =>
    match compare k e.1 with
    | .lt => (k, v) :: e :: rest
    | .eq => (k, v) :: rest
    | .gt => e :: insertEntry k v rest

private theorem mem_of_mem_insertEntry {k : κ} {v : υ} {a : κ × υ} {es : List (κ × υ)}
    (h : a ∈ insertEntry k v es) : a = (k, v) ∨ a ∈ es := by
  induction es with
  | nil => simpa [insertEntry] using h
  | cons e rest ih =>
    simp only [insertEntry] at h
    split at h <;> grind

@[simp] theorem find?_empty (k : κ) : (∅ : SortedMap κ υ).find? k = none := rfl

section Lawful

variable [Std.LawfulEqOrd κ]

/-- The single view of a map: a key holds a value exactly when the pair is an entry. -/
theorem find?_eq_some_iff (m : SortedMap κ υ) (k : κ) (v : υ) :
    m.find? k = some v ↔ (k, v) ∈ m.entries := by
  obtain ⟨es, h⟩ := m
  simp only [find?]
  induction es with
  | nil => simp
  | cons e rest ih =>
    obtain ⟨hfirst, hrest⟩ := List.pairwise_cons.1 h
    by_cases hk : compare k e.1 = .eq
    · obtain rfl := Std.LawfulEqOrd.eq_of_compare hk
      have hnot : (e.1, v) ∉ rest := fun hm => by simpa using hfirst _ hm
      simp [Prod.ext_iff, hnot, eq_comm]
    · have hne : k ≠ e.1 := fun he => hk (he ▸ Std.ReflOrd.compare_self)
      simp [hk, ih hrest, Prod.ext_iff, hne]

theorem nodup_entries (m : SortedMap κ υ) : m.entries.Nodup :=
  m.increasing.imp fun {a b} h he => by subst he; simp at h

theorem nodup_keys (m : SortedMap κ υ) : m.keys.Nodup := by
  rw [keys, List.nodup_iff_pairwise_ne, List.pairwise_map]
  exact m.increasing.imp fun {a b} h he => by simp [he] at h

theorem find?_erase [DecidableEq κ] (m : SortedMap κ υ) (k a : κ) :
    (m.erase k).find? a = if a = k then none else m.find? a := by
  apply Option.ext
  intro w
  rw [find?_eq_some_iff]
  by_cases h : a = k
  · simp [erase, h]
  · simp [erase, h, find?_eq_some_iff, Ne.symm h]

@[simp] theorem find?_erase_self (m : SortedMap κ υ) (k : κ) : (m.erase k).find? k = none := by
  classical simp [find?_erase]

theorem find?_erase_of_ne (m : SortedMap κ υ) {k a : κ} (h : a ≠ k) :
    (m.erase k).find? a = m.find? a := by
  classical simp [find?_erase, h]

end Lawful

section Ordered

variable [Std.TransOrd κ] [Std.LawfulEqOrd κ]

private theorem increasing_insertEntry (k : κ) (v : υ) {es : List (κ × υ)}
    (h : es.Pairwise fun a b => compare a.1 b.1 = .lt) :
    (insertEntry k v es).Pairwise fun a b => compare a.1 b.1 = .lt := by
  induction es with
  | nil => simp [insertEntry]
  | cons e rest ih =>
    obtain ⟨hfirst, hrest⟩ := List.pairwise_cons.1 h
    simp only [insertEntry]
    split
    case h_1 hlt =>
      exact List.pairwise_cons.2 ⟨fun a ha => (List.mem_cons.1 ha).elim (fun he => he ▸ hlt)
        fun hr => Std.TransCmp.lt_trans hlt (hfirst a hr), h⟩
    case h_2 heq =>
      have hk : k = e.1 := Std.LawfulEqOrd.eq_of_compare heq
      exact List.pairwise_cons.2 ⟨fun a ha => hk ▸ hfirst a ha, hrest⟩
    case h_3 hgt =>
      refine List.pairwise_cons.2 ⟨fun a ha => ?_, ih hrest⟩
      rcases mem_of_mem_insertEntry ha with rfl | ha
      · exact Std.OrientedCmp.lt_of_gt hgt
      · exact hfirst a ha

def insert (m : SortedMap κ υ) (k : κ) (v : υ) : SortedMap κ υ :=
  ⟨insertEntry k v m.entries, increasing_insertEntry k v m.increasing⟩

private theorem mem_insertEntry {k : κ} {v : υ} {a : κ × υ} {es : List (κ × υ)}
    (h : es.Pairwise fun a b => compare a.1 b.1 = .lt) :
    a ∈ insertEntry k v es ↔ a = (k, v) ∨ a ∈ es ∧ a.1 ≠ k := by
  induction es with
  | nil => simp [insertEntry]
  | cons e rest ih =>
    obtain ⟨hfirst, hrest⟩ := List.pairwise_cons.1 h
    have ne_of_lt {x y : κ} (hl : compare x y = .lt) : x ≠ y := by rintro rfl; simp at hl
    simp only [insertEntry]
    split
    case h_1 hlt =>
      have hall : ∀ b ∈ e :: rest, b.1 ≠ k := fun b hb => by
        rcases List.mem_cons.1 hb with rfl | hb
        · exact (ne_of_lt hlt).symm
        · exact (ne_of_lt (Std.TransCmp.lt_trans hlt (hfirst b hb))).symm
      grind
    case h_2 heq =>
      have hk : k = e.1 := Std.LawfulEqOrd.eq_of_compare heq
      have hall : ∀ b ∈ rest, b.1 ≠ k := fun b hb => hk ▸ (ne_of_lt (hfirst b hb)).symm
      grind
    case h_3 hgt =>
      have hne : e.1 ≠ k := ne_of_lt (Std.OrientedCmp.lt_of_gt hgt)
      grind

theorem find?_insert [DecidableEq κ] (m : SortedMap κ υ) (k a : κ) (v : υ) :
    (m.insert k v).find? a = if a = k then some v else m.find? a := by
  apply Option.ext
  intro w
  rw [find?_eq_some_iff, insert, mem_insertEntry m.increasing]
  by_cases h : a = k
  · simp [h, eq_comm]
  · simp [h, find?_eq_some_iff]

@[simp] theorem find?_insert_self (m : SortedMap κ υ) (k : κ) (v : υ) :
    (m.insert k v).find? k = some v := by
  classical simp [find?_insert]

theorem find?_insert_of_ne (m : SortedMap κ υ) {k a : κ} (h : a ≠ k) (v : υ) :
    (m.insert k v).find? a = m.find? a := by
  classical simp [find?_insert, h]

@[ext] theorem ext {m n : SortedMap κ υ} (h : ∀ k, m.find? k = n.find? k) : m = n := by
  have hmem : ∀ e, e ∈ m.entries ↔ e ∈ n.entries := fun e => by
    rw [← find?_eq_some_iff, ← find?_eq_some_iff, h]
  have hperm := (List.perm_ext_iff_of_nodup m.nodup_entries n.nodup_entries).2 hmem
  have heq : m.entries = n.entries := by
    refine hperm.eq_of_pairwise (fun a b _ _ hab hba => ?_) m.increasing n.increasing
    have hself := Std.TransCmp.lt_trans hab hba
    simp at hself
  cases m
  cases n
  simp_all

omit [Std.LawfulEqOrd κ] in
/-- A range is the stretch of entries it names: nothing between its bounds is passed over. -/
theorem range_eq_filter (m : SortedMap κ υ) (lo hi : κ) :
    m.range lo hi = m.entries.filter fun e => compare e.1 lo != .lt && compare e.1 hi != .gt := by
  obtain ⟨es, h⟩ := m
  simp only [range]
  induction es with
  | nil => rfl
  | cons e rest ih =>
    obtain ⟨hfirst, hrest⟩ := List.pairwise_cons.1 h
    have ih := ih hrest
    by_cases hlo : compare e.1 lo = .lt
    · simp [hlo, ih]
    · have habove : ∀ a ∈ rest, compare a.1 lo ≠ .lt := fun a ha hal =>
        hlo (Std.TransCmp.lt_trans (hfirst a ha) hal)
      have hdrop : rest.dropWhile (fun e => compare e.1 lo == .lt) = rest := by
        cases rest with
        | nil => rfl
        | cons a rest => simp [habove a (by simp)]
      rw [hdrop] at ih
      by_cases hhi : compare e.1 hi = .gt
      · have hbeyond : ∀ a ∈ rest, compare a.1 hi = .gt := fun a ha =>
          Std.OrientedCmp.gt_of_lt
            (Std.TransCmp.lt_trans (Std.OrientedCmp.lt_of_gt hhi) (hfirst a ha))
        have hnone : rest.filter (fun e => compare e.1 lo != .lt && compare e.1 hi != .gt) = [] :=
          List.filter_eq_nil_iff.2 fun a ha => by simp [hbeyond a ha]
        simp [hlo, hhi, hnone]
      · simp [hlo, hhi, ih]

end Ordered

end SortedMap

/-- A finite set, held in increasing order. -/
abbrev SortedSet (κ : Type) [Ord κ] := SortedMap κ Unit

end SharedBoard

import SharedBoard.Proofs.Json.Values
import SharedBoard.Wire.Variants

/-! Written records are read back. A written record names its kind first, and then has each of its
fields at most once, so every field is looked up by its name and none of them is another's. -/
namespace SharedBoard.Wire

open Json (Misfit Fits TakesAll memberChars)

variable {α β : Type} {ms : List (String × Json)}

/-- A name before all others is none of them. -/
theorem ne_of_nodup {name : String} (h : (name :: ms.map Prod.fst).Nodup) {m : String × Json}
    (hm : m ∈ ms) : m.1 ≠ name := by
  rintro rfl
  exact (List.nodup_cons.1 h).1 (List.mem_map_of_mem hm)

namespace Fields

/-- Whether the fields are found among the members of an object, however many are declared before
them, and what they hold. -/
def Finds (f : Fields α) (ms : List (String × Json)) (a : α) : Prop :=
  ∀ start, f.read start (.members ms) = .ok a

theorem Finds.map {f : Fields α} {a : α} (g : α → β) (h : f.Finds ms a) :
    (g <$> f).Finds ms (g a) := by
  intro start
  change (f.read start _).map g = _
  rw [h start]
  rfl

theorem Finds.seq {f : Fields (α → β)} {x : Fields α} {g : α → β} {a : α} (hf : f.Finds ms g)
    (hx : x.Finds ms a) : (f <*> x).Finds ms (g a) := by
  intro start
  change ((f.read start _).both (x.read (start + f.count) _)).map _ = _
  rw [hf start, hx (start + f.count)]
  rfl

theorem Finds.decode {f : Fields α} {a : α} (h : f.Finds ms a) : f.decode (.members ms) = .ok a := by
  simp only [Fields.decode, h 0]

theorem Finds.ofJson {f : Fields α} {a : α} (h : f.Finds ms a) : f.ofJson (.obj ms) = .ok a :=
  h.decode

/-- Where all names differ, a name stands once at most. -/
theorem filter_eq_lookup (h : (ms.map Prod.fst).Nodup) (name : String) :
    (ms.filter fun m => m.1 == name).map Prod.snd = (ms.lookup name).toList := by
  induction ms with
  | nil => rfl
  | cons m ms ih =>
    rw [List.filter_cons, List.lookup_cons]
    by_cases hname : m.1 = name
    · subst hname
      have hnone : ms.filter (fun p => p.1 == m.1) = [] := by
        rw [List.filter_eq_nil_iff]
        exact fun p hp heq => ne_of_nodup h hp (beq_iff_eq.1 heq)
      simp [hnone]
    · have hname' : name ≠ m.1 := fun heq => hname heq.symm
      simp [hname, beq_eq_false_iff_ne.2 hname', ih (List.nodup_cons.1 h).2]

theorem map_fst_occurrences (h : (ms.map Prod.fst).Nodup) (name : String) :
    (occurrences name ms).map Prod.fst = (ms.lookup name).toList := by
  have hplain : (ms.zipIdx.filter fun m => m.1.1 == name).map Prod.fst =
      ms.filter fun m => m.1 == name := by
    conv_rhs => rw [← List.zipIdx_map_fst 0 ms, List.filter_map]
    rfl
  rw [← filter_eq_lookup h name, ← hplain, occurrences, List.map_map, List.map_map]
  rfl

theorem finds_one {decode : Json → Except Misfit α} {absent beyond : Except Misfit α} {name : String}
    {v : Json} {a : α} (hnames : (ms.map Prod.fst).Nodup) (hv : ms.lookup name = some v)
    (h : decode v = .ok a) : (one name decode absent beyond).Finds ms a := by
  have hone := map_fst_occurrences hnames name
  rw [hv] at hone
  obtain ⟨⟨v', i⟩, hocc, hv'⟩ := List.map_eq_singleton_iff.1 hone
  obtain rfl : v' = v := hv'
  intro start
  simp only [one, hocc, h]
  rfl

theorem finds_none {decode : Json → Except Misfit α} {absent beyond : Except Misfit α} {name : String}
    {a : α} (hnames : (ms.map Prod.fst).Nodup) (hnone : ms.lookup name = none)
    (h : absent = .ok a) : (one name decode absent beyond).Finds ms a := by
  have hocc := map_fst_occurrences hnames name
  rw [hnone] at hocc
  intro start
  simp only [one, List.map_eq_nil_iff.1 hocc, h]
  rfl

end Fields

theorem readText_str (s : String) (rest : List Char) :
    readText (Json.compactChars (.str s) ++ rest) = .ok (s, rest) := by
  rw [Json.compactChars, Json.quote_append]
  exact Json.readString_quote s rest

namespace Variants

variable {t : Variants α} {v : Json} {a : α}

/-- Whether a value is a record as it is written: its kind under the tag, then the fields of that
kind, and no name twice. -/
inductive Spells (t : Variants α) : Json → α → Prop
  | of {name : String} {kind : Fields α} {ms : List (String × Json)} {a : α}
      (hkind : t.find name = .ok kind) (hnames : (t.tag :: ms.map Prod.fst).Nodup)
      (hfields : kind.Finds ms a) : Spells t (.obj ((t.tag, .str name) :: ms)) a

/-- A written record is decoded by any rule for tags that takes names. -/
theorem Spells.decodeBy {kindOf : Json → Except Misfit (Fields α)}
    (hkindOf : ∀ name, kindOf (.str name) = t.find name) (h : t.Spells v a) :
    t.decodeBy kindOf v = .ok a := by
  cases h with
  | @of name kind ms _ hkind hnames hfields =>
  have htag : (Fields.required t.tag kindOf).Finds ((t.tag, .str name) :: ms) kind :=
    Fields.finds_one hnames List.lookup_cons_self ((hkindOf name).trans hkind)
  have hrest : ms.filter (fun m => m.1 != t.tag) = ms := by
    rw [List.filter_eq_self]
    exact fun m hm => bne_iff_ne.2 (ne_of_nodup hnames hm)
  have hbody : ((t.tag, Json.str name) :: ms).filter (fun m => m.1 != t.tag) = ms := by
    rw [List.filter_cons_of_neg (by simp), hrest]
  have hdecode := hfields.decode
  simp only [Variants.decodeBy, hbody, htag.decode, bind, Except.bind, hdecode]

theorem Spells.ofInner (h : t.Spells v a) : t.ofInner v = .ok a := h.decodeBy fun _ => rfl

/-- The tag gives the kind, and the members after it are kept. -/
theorem takesAll_record {depth : Nat} {name : String} {kind : Fields α}
    (hkind : t.find name = .ok kind) (hnames : (t.tag :: ms.map Prod.fst).Nodup)
    (hfits : ∀ m ∈ ms, Fits depth m.2) :
    TakesAll (t.readMember depth) ⟨none, []⟩ (((t.tag, .str name) :: ms).map memberChars)
      ⟨some kind, ms.reverse⟩ := by
  have hmembers : TakesAll (t.readMember depth) ⟨some kind, []⟩ (ms.map memberChars)
      ⟨some kind, ms.reverse⟩ := by
    refine Json.takesAll_map (Draft.mk (some kind)) (fun m _ => Json.startsItem_memberChars m) ?_
    intro m hm acc rest hrest
    have hvalue := Json.readValue_compactChars (hfits m hm) rest hrest
    rw [readMember, Json.readName_memberChars]
    simp only [bind, Except.bind, if_neg (ne_of_nodup hnames hm), Json.readColon_cons, hvalue]
    rfl
  refine .cons (Json.startsItem_memberChars _) ?_ hmembers
  intro rest _
  rw [readMember, Json.readName_memberChars]
  simp only [bind, Except.bind, if_true, Json.readColon_cons, readTag, readText_str, fit, hkind]
  rfl

/-- A written record is read back from the front of a text. -/
theorem Spells.read {depth : Nat} (h : t.Spells v a) (hfits : Fits (depth + 1) v)
    (rest : List Char) : t.read depth (v.compactChars ++ rest) = .ok (a, rest) := by
  cases h with
  | @of name kind ms _ hkind hnames hfields =>
  cases hfits with
  | obj hms =>
  have htakes := takesAll_record hkind hnames fun m hm => hms m (List.mem_cons_of_mem _ hm)
  have hread := Json.readSequence_curly rest htakes
  rw [Json.compactChars, Json.compactMembers_eq, List.cons_append, Variants.read,
    Json.skipBlanks_cons rfl]
  simp only [hread, bind, Except.bind, finish, List.reverse_reverse, hfields.decode]
  rfl

theorem Spells.ofText (h : t.Spells v a) (hfits : Fits Json.maxDepth v) :
    t.ofText v.compact = .ok a := by
  refine Json.readAll_compact ?_
  have hread : t.read (Json.maxDepth - 1) (v.compactChars ++ []) = .ok (a, []) := h.read hfits []
  rwa [List.append_nil] at hread

end Variants

end SharedBoard.Wire

import SharedBoard.Proofs.Wire.Records
import SharedBoard.Wire.Decode
import SharedBoard.Wire.Encode

/-! What is sent arrives: entities, actions and updates are read back from their written form. -/
namespace SharedBoard.Wire

open Json (Fits IsWhole TakesAll memberChars)
open Fields (Finds finds_one finds_none required optional)

section Records

theorem uuid_toJson (u : Uuid) : uuid u.toJson = .ok u := by
  simp only [uuid, Uuid.toJson, string, bind, Except.bind, uuidOfText, Uuid.ofText?_text]

/-- A coordinate stays within 32 bits, and so is the same number again. -/
theorem int32_toInt (i : Int32) : int32 (.int i.toInt) = .ok i := by
  have hrange : (Int32.minValue.toInt ≤ i.toInt && i.toInt ≤ Int32.maxValue.toInt) = true :=
    Bool.and_eq_true_iff.2 ⟨decide_eq_true i.minValue_le_toInt, decide_eq_true i.toInt_le⟩
  rw [int32, intBetween, if_pos hrange, Except.map, Int32.ofInt_toInt]

theorem cell_toJson (c : Cell) : cell c.toJson = .ok c := by
  have hnames : ([("x", Json.int c.x.toInt), ("y", .int c.y.toInt)].map Prod.fst).Nodup := by simp
  have hx : (required "x" int32).Finds _ c.x := finds_one hnames rfl (int32_toInt c.x)
  have hy : (required "y" int32).Finds _ c.y := finds_one hnames rfl (int32_toInt c.y)
  exact ((hx.map Cell.mk).seq hy).ofJson

theorem position_toJson (p : Position) : position p.toJson = .ok p := by
  have hnames : ([("x", Json.int p.x.toInt), ("y", .int p.y.toInt), ("z", .int p.z.toInt)].map
      Prod.fst).Nodup := by simp
  have hx : (required "x" int32).Finds _ p.x := finds_one hnames rfl (int32_toInt p.x)
  have hy : (required "y" int32).Finds _ p.y := finds_one hnames rfl (int32_toInt p.y)
  have hz : (required "z" int32).Finds _ p.z := finds_one hnames rfl (int32_toInt p.z)
  exact (((hx.map Position.mk).seq hy).seq hz).ofJson

/-- A tag and a field may share a name with a kind, but not with each other. -/
theorem spells_contents (c : Contents) : contents.Spells c.toJson c := by
  cases c with
  | icon name =>
    have hnames : ("type" :: [("icon", Json.str name)].map Prod.fst).Nodup := by simp
    have hname : (required "icon" string).Finds _ name := finds_one hnames.tail rfl rfl
    exact .of rfl hnames (hname.map Contents.icon)
  | text label =>
    have hnames : ("type" :: [("text", Json.str label)].map Prod.fst).Nodup := by simp
    have hlabel : (required "text" string).Finds _ label := finds_one hnames.tail rfl rfl
    exact .of rfl hnames (hlabel.map Contents.text)

theorem finds_ping (p : Ping) : pingFields.Finds p.members p := by
  have hnames : (p.members.map Prod.fst).Nodup := by simp [Ping.members]
  have hid : (required "id" uuid).Finds _ p.id := finds_one hnames rfl (uuid_toJson p.id)
  have hpos : (required "pos" cell).Finds _ p.pos := finds_one hnames rfl (cell_toJson p.pos)
  exact (hid.map Ping.mk).seq hpos

/-- What characters and floors have in common, as it is written. -/
def tokenMembers (id : EntityId) (pos : Position) (look : Contents) : List (String × Json) :=
  [("id", id.toJson), ("pos", pos.toJson), ("contents", look.toJson)]

theorem finds_token {α : Type} (make : EntityId → Position → Contents → α) (id : EntityId)
    (pos : Position) (look : Contents) {more : List (String × Json)}
    (hnames : ((tokenMembers id pos look ++ more).map Prod.fst).Nodup) :
    (make <$> required "id" uuid <*> required "pos" position <*>
      required "contents" contents.ofInner).Finds (tokenMembers id pos look ++ more)
      (make id pos look) := by
  have hid : (required "id" uuid).Finds _ id := finds_one hnames rfl (uuid_toJson id)
  have hpos : (required "pos" position).Finds _ pos := finds_one hnames rfl (position_toJson pos)
  have hlook : (required "contents" contents.ofInner).Finds _ look :=
    finds_one hnames rfl (spells_contents look).ofInner
  exact ((hid.map make).seq hpos).seq hlook

theorem spells_entity (e : Entity) : entity.Spells e.toJson e := by
  cases e with
  | character c =>
    obtain ⟨id, pos, look, color⟩ := c
    have hnames : ("kind" :: (tokenMembers id pos look ++
        color.toList.map fun color => ("color", Json.str color)).map Prod.fst).Nodup := by
      cases color <;> simp [tokenMembers]
    have hcolor : (optional "color" string).Finds (tokenMembers id pos look ++
        color.toList.map fun color => ("color", Json.str color)) color := by
      cases color with
      | none => exact finds_none hnames.tail rfl rfl
      | some color => exact finds_one hnames.tail rfl rfl
    have htoken := finds_token Character.mk id pos look hnames.tail
    exact .of rfl hnames ((htoken.seq hcolor).map Entity.character)
  | floor f =>
    obtain ⟨id, pos, look⟩ := f
    have hnames : ("kind" :: (tokenMembers id pos look ++ []).map Prod.fst).Nodup := by
      simp [tokenMembers]
    have htoken := finds_token Floor.mk id pos look hnames.tail
    exact .of rfl hnames (htoken.map Entity.floor)
  | ping p =>
    have hnames : ("kind" :: p.members.map Prod.fst).Nodup := by simp [Ping.members]
    exact .of rfl hnames ((finds_ping p).map Entity.ping)

theorem spells_action (a : Action) : action.Spells a.toJson a := by
  cases a with
  | upsert e =>
    have hnames : ("type" :: [("entity", e.toJson)].map Prod.fst).Nodup := by simp
    have hentity : (required "entity" entity.ofInner).Finds _ e :=
      finds_one hnames.tail rfl (spells_entity e).ofInner
    exact .of rfl hnames (hentity.map Action.upsert)
  | delete id =>
    have hnames : ("type" :: [("entity_id", id.toJson)].map Prod.fst).Nodup := by simp
    have hid : (required "entity_id" uuid).Finds _ id := finds_one hnames.tail rfl (uuid_toJson id)
    exact .of rfl hnames (hid.map Action.delete)
  | ping p =>
    have hnames : ("type" :: [("ping", Json.obj p.members)].map Prod.fst).Nodup := by simp
    have hping : (required "ping" pingFields.ofJson).Finds _ p :=
      finds_one hnames.tail rfl (finds_ping p).ofJson
    exact .of rfl hnames (hping.map Action.ping)

end Records

section Depths

/-- Coordinates are among the numbers that are read as whole ones. -/
theorem fits_int32 {depth : Nat} (i : Int32) : Fits depth (.int i.toInt) := by
  have hlo := i.le_toInt
  have hhi := i.toInt_lt
  have hsize : UInt64.size = 2 ^ 64 := rfl
  exact .int ⟨by omega, by omega⟩

theorem fits_uuid {depth : Nat} (u : Uuid) : Fits depth u.toJson := .str u.text

theorem fits_cell (c : Cell) : Fits 1 c.toJson := .obj (by simp [fits_int32])

theorem fits_position (p : Position) : Fits 1 p.toJson := .obj (by simp [fits_int32])

theorem fits_contents (c : Contents) : Fits 1 c.toJson := by
  cases c <;> exact .obj (by simp [Fits.str])

theorem fits_ping (p : Ping) : ∀ m ∈ p.members, Fits 1 m.2 := by
  simp [Ping.members, fits_uuid, fits_cell]

theorem fits_entity (e : Entity) : Fits 2 e.toJson := by
  cases e with
  | character c => exact .obj (by simp [Fits.str, fits_uuid, fits_position, fits_contents])
  | floor f => exact .obj (by simp [Fits.str, fits_uuid, fits_position, fits_contents])
  | ping p => exact .obj (List.forall_mem_cons.2 ⟨.str _, fits_ping p⟩)

theorem fits_action (a : Action) : Fits 3 a.toJson := by
  cases a with
  | upsert e => exact .obj (by simp [Fits.str, fits_entity])
  | delete id => exact .obj (by simp [Fits.str, fits_uuid])
  | ping p => exact .obj (by simp [Fits.str, Fits.obj (fits_ping p)])

end Depths

section Updates

/-- What reads one more action of an update. -/
def nextAction (as : List Action) : Json.Reader (List Action) := fun cs => do
  let (a, cs) ← action.read (Json.maxDepth - 3) cs
  return (a :: as, cs)

theorem readActions_open (cs : List Char) : readActions ('[' :: cs) =
    (Json.readSequence ']' nextAction [] cs).bind fun p => .ok (p.1.reverse, p.2) := rfl

/-- Actions are read back one by one, as deep as they are nested. -/
theorem readActions_toJson (as : List Action) (rest : List Char) :
    readActions ((Json.arr (as.map Action.toJson)).compactChars ++ rest) = .ok (as, rest) := by
  have htakes : TakesAll nextAction [] (as.map (Json.compactChars ∘ Action.toJson)) as.reverse := by
    refine Json.takesAll_map id (fun a _ => Json.startsItem_compactChars a.toJson) ?_
    intro a _ acc rest _
    have hfits : Fits (Json.maxDepth - 3 + 1) a.toJson := (fits_action a).mono (by decide)
    have hread := (spells_action a).read hfits rest
    simp only [nextAction, bind, Except.bind, Function.comp_apply, hread]
    rfl
  have hread := Json.readSequence_square rest htakes
  rw [Json.compactChars, Json.compactElements_eq, List.map_map, List.cons_append, readActions_open,
    hread, Except.bind, List.reverse_reverse]

/-- The two members of an update fill its draft one after the other. -/
theorem takesAll_update (u : Update) :
    TakesAll readUpdateMember {} ([("update_id", u.id.toJson),
      ("actions", Json.arr (u.actions.map Action.toJson))].map memberChars)
      ⟨some u.id, some u.actions⟩ := by
  have hid : ∀ rest, readUpdateMember {} (memberChars ("update_id", u.id.toJson) ++ rest) =
      .ok (⟨some u.id, none⟩, rest) := by
    intro rest
    rw [readUpdateMember, Json.readName_memberChars]
    simp only [bind, Except.bind, if_true, Json.readColon_cons, readUuid, Uuid.toJson,
      readText_str, uuidOfText, Uuid.ofText?_text]
    rfl
  have hactions : ∀ rest, readUpdateMember ⟨some u.id, none⟩
      (memberChars ("actions", Json.arr (u.actions.map Action.toJson)) ++ rest) =
      .ok (⟨some u.id, some u.actions⟩, rest) := by
    intro rest
    rw [readUpdateMember, Json.readName_memberChars]
    simp only [bind, Except.bind, if_true, Json.readColon_cons, readActions_toJson]
    rfl
  exact .cons (Json.startsItem_memberChars _) (fun rest _ => hid rest)
    (.cons (Json.startsItem_memberChars _) (fun rest _ => hactions rest) (.nil _))

theorem readUpdate_toJson (u : Update) : readUpdate u.toJson.compactChars = .ok (u, []) := by
  have hread := Json.readSequence_curly [] (takesAll_update u)
  rw [List.append_nil] at hread
  rw [Update.toJson, Json.compactChars, Json.compactMembers_eq, readUpdate,
    Json.skipBlanks_cons rfl]
  simp only [hread, bind, Except.bind]
  rfl

end Updates

/-- Every update, every action and every entity is read back as it was from its text in one line. -/
theorem ofText_compact :
    (∀ u : Update, Update.ofText u.toJson.compact = .ok u) ∧
      (∀ a : Action, Action.ofText a.toJson.compact = .ok a) ∧
        ∀ e : Entity, Entity.ofText e.toJson.compact = .ok e := by
  refine ⟨fun u => ?_, fun a => ?_, fun e => ?_⟩
  · exact Json.readAll_compact (readUpdate_toJson u)
  · exact (spells_action a).ofText ((fits_action a).mono (by decide))
  · exact (spells_entity e).ofText ((fits_entity e).mono (by decide))

end SharedBoard.Wire

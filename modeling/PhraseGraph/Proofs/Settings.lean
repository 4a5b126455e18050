import PhraseGraph.Settings
import PhraseGraph.Proofs.Token.Json

/-!
# PhraseGraph.Proofs.Settings

Settings and the JSON texts they are read from.

An object may give any of the fields, in any order, among others that no field has the key of. What
it does not give has its default, both for the settings and for the tagset in them.

## Main statements

`Settings.ofText_overlay`: settings are read from what a text gives over the defaults, they are read
from their own text, and a field that comes twice is a fault.
-/

namespace PhraseGraph

open Json

namespace Tagset

namespace Field

theorem mem_all (field : Field) : field ∈ all := by cases field <;> decide

theorem nodup_all : all.Nodup := by decide

theorem ofKey?_key (field : Field) : ofKey? field.key = some field := by cases field <;> rfl

theorem ofKey?_eq_none {key : String} (unknown : ∀ field : Field, key ≠ field.key) :
    ofKey? key = none := by
  rw [ofKey?, List.find?_eq_none]
  intro field _ same
  exact unknown field (beq_iff_eq.mp same).symm

end Field

/-! ### Fields -/

theorem get_set (tags : Tagset) (text : String) (field field' : Field) :
    (tags.set text field).get field' = if field' = field then text else tags.get field' := by
  cases field <;> cases field' <;> rfl

def ofTexts (text : Field → String) : Tagset where
  determiner := text .determiner
  preposition := text .preposition
  adjective := text .adjective
  comparativeAdjective := text .comparativeAdjective
  superlativeAdjective := text .superlativeAdjective
  verb := text .verb
  copula := text .copula
  comparison := text .comparison

/-- Tagsets are told by the texts of their fields. -/
theorem ext_get {tags tags' : Tagset} (same : ∀ field, tags.get field = tags'.get field) :
    tags = tags' :=
  congrArg ofTexts (funext same)

/-- Fields that are set have their new texts, whatever their order. -/
theorem get_foldl_set {text : Field → String} {known : List (Field × String)}
    (texts : ∀ entry ∈ known, entry.2 = text entry.1) (tags : Tagset) (field : Field) :
    (known.foldl (fun tags entry => tags.set entry.2 entry.1) tags).get field =
      if field ∈ known.map Prod.fst then text field else tags.get field := by
  induction known generalizing tags with
  | nil => rfl
  | cons entry known ih =>
    obtain ⟨here, later⟩ := List.forall_mem_cons.mp texts
    rw [List.foldl_cons, ih later, get_set, here, List.map_cons]
    -- a later entry for the field has the same text
    by_cases again : field ∈ known.map Prod.fst
    · rw [if_pos again, if_pos (List.mem_cons_of_mem _ again)]
    · rw [if_neg again]
      simp only [List.mem_cons, again, or_false]
      split
      · next same => rw [same]
      · rfl

/-- The members have the texts of a tagset for the given fields, and anything under other keys. -/
def IsPart (tags : Tagset) (given : Field → Bool) (members : List (String × Json)) : Prop :=
  ∃ others : List (String × Json), (∀ m ∈ others, ∀ field : Field, m.1 ≠ field.key) ∧
    members.Perm
      ((Field.all.filter given).map (fun field => (field.key, .string (tags.get field))) ++ others)

def IsTagset (v : Json) (tags : Tagset) : Prop :=
  ∃ known, IsRecord Field.ofKey? Field.all (fun _ => IsString) false v known ∧
    ofFields known = tags

theorem reads_read : Reads read IsTagset :=
  (reads_record (fun _ => reads_string) Field.all false).map ofFields

theorem exists_isTagset {tags : Tagset} {given : Field → Bool} {members : List (String × Json)}
    (part : tags.IsPart given members) :
    ∃ tags', IsTagset (.object members) tags' ∧
      ∀ field, tags'.get field =
        if given field then tags.get field else ({} : Tagset).get field := by
  obtain ⟨others, unknown, perm⟩ := part
  obtain ⟨known, record, results⟩ : ∃ known,
      IsRecord Field.ofKey? Field.all (fun _ => IsString) false (.object members) known ∧
        known.Perm ((Field.all.filter given).map fun field => (field, tags.get field)) :=
    exists_isRecord Field.ofKey?_key (Field.nodup_all.filter _)
      (fun m member => Field.ofKey?_eq_none (unknown m member)) perm (fun _ _ => rfl) nofun
  refine ⟨ofFields known, ⟨known, record, rfl⟩, fun field => ?_⟩
  have texts : ∀ entry ∈ known, entry.2 = tags.get entry.1 := by
    intro entry member
    obtain ⟨field, -, rfl⟩ := List.mem_map.mp (results.mem_iff.mp member)
    rfl
  have listed : field ∈ known.map Prod.fst ↔ given field = true := by
    rw [(map_fst_perm results).mem_iff, List.mem_filter]
    exact and_iff_right field.mem_all
  rw [ofFields, get_foldl_set texts]
  simp only [listed]

theorem toJson_isPart (tags : Tagset) :
    tags.IsPart (fun _ => true)
      (Field.all.map fun field => (field.key, .string (tags.get field))) := by
  refine ⟨[], List.forall_mem_nil _, ?_⟩
  rw [List.filter_true, List.append_nil]

theorem spells_toJson (tags : Tagset) : Spells tags.toJson tags.toJson.write := by
  apply spells_strings_write
  intro m member
  obtain ⟨field, -, rfl⟩ := List.mem_map.mp member
  exact ⟨_, rfl⟩

/-- No tagset is read from an object that gives a field twice. -/
theorem not_isTagset_of_repeats {members : List (String × Json)} {field : Field} {tags : Tagset}
    (repeats : Repeats members field.key) : ¬IsTagset (.object members) tags := by
  rintro ⟨known, record, -⟩
  exact not_isRecord_of_repeats field.ofKey?_key repeats record

end Tagset

namespace Settings

variable {members : List (String × Json)} {text : String}

/-- The key of the tagset, and no other. -/
def ofKey? (key : String) : Option Unit := if key = tagsKey then some () else none

def ofKnown (known : List (Unit × Tagset)) : Settings := { tags := (known.lookup ()).getD {} }

def IsSettings (v : Json) (s : Settings) : Prop :=
  ∃ known, IsRecord ofKey? [()] (fun _ => Tagset.IsTagset) false v known ∧ ofKnown known = s

theorem reads_read : Reads read IsSettings :=
  (reads_record (fun _ => Tagset.reads_read) [()] false).map ofKnown

theorem ofText_eq_ok_iff {v : Json} (spelled : SpellsText v text) {s : Settings} :
    ofText text = .ok s ↔ IsSettings v s := by
  rw [ofText, mapError_eq_ok]
  exact reads_read.decode_eq_ok_iff spelled

/-- The tagset among the members has those of some settings for the given fields. -/
def IsPart (s : Settings) (given : Tagset.Field → Bool) (members : List (String × Json)) : Prop :=
  ∃ inner others : List (String × Json), s.tags.IsPart given inner ∧
    (∀ m ∈ others, m.1 ≠ tagsKey) ∧ members.Perm ((tagsKey, .object inner) :: others)

/-- What a text gives stands over the defaults. -/
theorem exists_ofText {s : Settings} {given : Tagset.Field → Bool} (part : s.IsPart given members)
    (spelled : SpellsText (.object members) text) :
    ∃ s', ofText text = .ok s' ∧ ∀ field, s'.tags.get field =
      if given field then s.tags.get field else ({} : Tagset).get field := by
  obtain ⟨inner, others, inside, unknown, perm⟩ := part
  obtain ⟨tags, found, texts⟩ := Tagset.exists_isTagset inside
  have perm : members.Perm ([()].map (fun _ => (tagsKey, .object inner)) ++ others) := perm
  obtain ⟨known, record, results⟩ : ∃ known,
      IsRecord ofKey? [()] (fun _ => Tagset.IsTagset) false (.object members) known ∧
        known.Perm ([()].map fun field => (field, tags)) :=
    exists_isRecord (fun _ => if_pos rfl) (List.nodup_singleton ())
      (fun m member => if_neg (unknown m member)) perm (fun _ _ => found) nofun
  refine ⟨⟨tags⟩, (ofText_eq_ok_iff spelled).mpr ⟨known, record, ?_⟩, texts⟩
  rw [ofKnown, lookup_of_perm results]
  rfl

/-- Without a tagset all is as by default. -/
theorem ofText_eq_default (absent : ∀ m ∈ members, m.1 ≠ tagsKey)
    (spelled : SpellsText (.object members) text) : ofText text = .ok {} := by
  have none : named ofKey? members = [] :=
    List.filterMap_eq_nil_iff.mpr fun m member => by rw [ofKey?, if_neg (absent m member)]; rfl
  have fits : List.Forall₂ (Fits fun _ => Tagset.IsTagset) (named ofKey? members) [] := none ▸ .nil
  rw [ofText_eq_ok_iff spelled]
  exact ⟨[], isRecord_object_iff.mpr ⟨⟨fits, List.nodup_nil⟩, nofun⟩, rfl⟩

theorem toJson_isPart (s : Settings) :
    s.IsPart (fun _ => true) [(tagsKey, s.tags.toJson)] :=
  ⟨_, [], s.tags.toJson_isPart, List.forall_mem_nil _, .refl _⟩

theorem spells_toJson (s : Settings) : Spells s.toJson s.toJson.write := by
  apply spells_object_write
  rintro _ (_ | ⟨_, ⟨⟩⟩)
  exact s.tags.spells_toJson

/-- Settings are read from their own text. -/
theorem ofText_render (s : Settings) : ofText s.toJson.render = .ok s := by
  have spelled : SpellsText (.object [(tagsKey, s.tags.toJson)]) s.toJson.render :=
    spellsText_render s.spells_toJson
  obtain ⟨s', read, texts⟩ := exists_ofText s.toJson_isPart spelled
  have same : s' = s := congrArg Settings.mk (Tagset.ext_get texts)
  rw [read, same]

/-- The members give the tagset twice, or a tagset that gives a field twice. -/
def GivesTwice (members : List (String × Json)) : Prop :=
  Repeats members tagsKey ∨ ∃ inner, (tagsKey, .object inner) ∈ members ∧
    ∃ field : Tagset.Field, Repeats inner field.key

theorem ofText_error_of_givesTwice (twice : GivesTwice members)
    (spelled : SpellsText (.object members) text) : ∃ e, ofText text = .error e := by
  cases read : ofText text with
  | error e => exact ⟨e, rfl⟩
  | ok s =>
    obtain ⟨known, record, -⟩ := (ofText_eq_ok_iff spelled).mp read
    have names : ofKey? tagsKey = some () := if_pos rfl
    rcases twice with outer | ⟨inner, member, field, repeats⟩
    · exact absurd record (not_isRecord_of_repeats names outer)
    · obtain ⟨tags, found⟩ := record.exists_value member names
      exact absurd found (Tagset.not_isTagset_of_repeats repeats)

/-- Reading settings lays what a text gives over the defaults, in whatever order it stands there and
among whatever else; it undoes writing, of settings and of tokens; and it takes no field twice. -/
theorem ofText_overlay :
    (∀ (s : Settings) (given : Tagset.Field → Bool) (members : List (String × Json))
      (text : String), s.IsPart given members → SpellsText (.object members) text →
        ∃ s', ofText text = .ok s' ∧ ∀ field, s'.tags.get field =
          if given field then s.tags.get field else ({} : Tagset).get field) ∧
    (∀ s : Settings, ofText s.toJson.render = .ok s) ∧
    (∀ t : Token, decode Token.readJson t.toJson.render = .ok t) ∧
    (∀ (members : List (String × Json)) (text : String), SpellsText (.object members) text →
      GivesTwice members → ∃ e, ofText text = .error e) ∧
    ∀ (members : List (String × Json)) (text : String), SpellsText (.object members) text →
      ∀ field : Token.Field, Repeats members field.key →
        ∃ fault, decode Token.readJson text = .error fault := by
  refine ⟨fun s given members text part spelled => exists_ofText part spelled, ofText_render,
    Token.decode_render, fun members text spelled twice => ?_,
    fun members text spelled field repeats => ?_⟩
  · exact ofText_error_of_givesTwice twice spelled
  · exact Token.decode_error_of_repeats spelled repeats

theorem ofText_overlay_reordered :
    (∃ s, ofText "\x7b \"x\" :\tnull,\"tags\":\x7b\"n\":false,\"verb\":\"\\u00e9\"\x7d\x7d\n" =
        .ok s ∧ s.tags.verb = "é" ∧ s.tags.determiner = "DT") ∧
      (∃ e, ofText (render (.object [("tags",
        .object [("verb", .string "V"), ("verb", .string "W")])])) = .error e) ∧
      ∃ fault, decode Token.readJson (render (.object [("word", .string "a"), ("tag", .string "N"),
        ("lemma", .string "a"), ("tag", .string "N")])) = .error fault := by
  obtain ⟨overlay, -, -, twice, tokenTwice⟩ := ofText_overlay
  have close : SpellsMembers [] false ['\x7d'] := by
    rw [SpellsMembers]
    exact ⟨[], isSpaces_nil, rfl⟩
  have verb : Spells (.string "é") "\"\\u00e9\"".toList := by
    have unit : IsUnit (((0 * 16 + 0) * 16 + 14) * 16 + 9) ['0', '0', 'e', '9'] :=
      .digits rfl rfl rfl rfl
    rw [Spells]
    exact ⟨['\\' :: 'u' :: ['0', '0', 'e', '9']], .cons (.unit unit) .nil, by decide⟩
  have tags : Spells (.object [("n", .bool false), ("verb", .string "é")])
      "\x7b\"n\":false,\"verb\":\"\\u00e9\"\x7d".toList := by
    have flag : Spells (.bool false) "false".toList := by rw [Spells]; rfl
    exact spells_object (spellsMembers_cons _ _ flag (spellsMembers_cons _ _ verb close))
  have members : SpellsMembers [("x", .null),
      ("tags", .object [("n", .bool false), ("verb", .string "é")])] true
      " \"x\" :\tnull,\"tags\":\x7b\"n\":false,\"verb\":\"\\u00e9\"\x7d\x7d".toList := by
    have spaces : IsSpaces [' '] ∧ IsSpaces ['\t'] := by decide
    rw [SpellsMembers]
    exact ⟨[' '], [], writeString "x", [' '], ['\t'], "null".toList, _,
      ⟨spaces.1, isSpaces_nil, spaces.1, spaces.2⟩, spellsString_writeString "x", by rw [Spells],
      spellsMembers_cons _ _ tags close, by decide⟩
  have spelled : SpellsText (.object [("x", .null),
      ("tags", .object [("n", .bool false), ("verb", .string "é")])])
      "\x7b \"x\" :\tnull,\"tags\":\x7b\"n\":false,\"verb\":\"\\u00e9\"\x7d\x7d\n" :=
    ⟨[], _, ['\n'], isSpaces_nil, by decide, spells_object members, by decide⟩
  have part : IsPart { tags := { verb := "é" } } (· == .verb) [("x", .null),
      ("tags", .object [("n", .bool false), ("verb", .string "é")])] := by
    refine ⟨_, [("x", .null)], ⟨[("n", .bool false)], ?_, .swap _ _ _⟩, ?_, .swap _ _ _⟩
    · rintro _ (_ | ⟨_, ⟨⟩⟩) field
      cases field <;> decide
    · rintro _ (_ | ⟨_, ⟨⟩⟩)
      decide
  refine ⟨?_, ?_, ?_⟩
  · obtain ⟨s, read, texts⟩ := overlay _ _ _ _ part spelled
    exact ⟨s, read, texts .verb, texts .determiner⟩
  · refine twice _ _ (spellsText_render (spells_object_write ?_))
      (.inr ⟨_, List.mem_singleton_self _, .verb, by decide⟩)
    rintro _ (_ | ⟨_, ⟨⟩⟩)
    exact spells_strings_write (by simp)
  · exact tokenTwice _ _ (spellsText_render (spells_strings_write (by simp))) .tag (by decide)

end Settings

end PhraseGraph

import PhraseGraph.Token.Json
import PhraseGraph.Proofs.Json.Reading

/-!
# PhraseGraph.Proofs.Token.Json

Tokens and the JSON texts they are read from.

## Main statements

`Token.reads_json`: what token texts are read as.
`Token.decode_render`: a token is read from its own text.
-/

namespace PhraseGraph.Token

open Json

def get (t : Token) : Field → String
  | .word => t.word
  | .tag => t.tag
  | .headword => t.headword

namespace Field

theorem mem_all (field : Field) : field ∈ all := by cases field <;> decide

theorem nodup_all : all.Nodup := by decide

theorem ofKey?_key (field : Field) : ofKey? field.key = some field := by cases field <;> rfl

end Field

def ofKnown (known : List (Field × String)) : Token :=
  let get (field : Field) := (known.lookup field).getD ""
  ⟨get .word, get .tag, get .headword⟩

/-- The token with the strings that a value has for the fields, all of them. -/
def IsToken (v : Json) (t : Token) : Prop :=
  ∃ known, IsRecord Field.ofKey? Field.all (fun _ => IsString) true v known ∧ ofKnown known = t

theorem reads_json : Reads readJson IsToken :=
  (reads_record (fun _ => reads_string) Field.all true).map ofKnown

theorem isToken_toJson (t : Token) : IsToken t.toJson t := by
  have perm : [("word", Json.string t.word), ("tag", .string t.tag),
      ("lemma", .string t.headword)].Perm
        (Field.all.map (fun field => (field.key, .string (t.get field))) ++ []) := .refl _
  obtain ⟨known, record, results⟩ : ∃ known,
      IsRecord Field.ofKey? Field.all (fun _ => IsString) true t.toJson known ∧
        known.Perm (Field.all.map fun field => (field, t.get field)) :=
    exists_isRecord Field.ofKey?_key Field.nodup_all (List.forall_mem_nil _) perm (fun _ _ => rfl)
      fun _ _ listed => listed
  refine ⟨known, record, ?_⟩
  have found (field : Field) : (known.lookup field).getD "" = t.get field := by
    rw [lookup_of_perm results, if_pos field.mem_all]
    rfl
  simp only [ofKnown, found]
  rfl

theorem spells_toJson (t : Token) : Spells t.toJson t.toJson.write :=
  spells_strings_write (by simp)

/-- A token is read from its own text. -/
theorem decode_render (t : Token) : decode readJson t.toJson.render = .ok t :=
  (reads_json.decode_eq_ok_iff (spellsText_render (spells_toJson t))).mpr (isToken_toJson t)

/-- A text that gives a field twice is not read. -/
theorem decode_error_of_repeats {members : List (String × Json)} {text : String} {field : Field}
    (spelled : SpellsText (.object members) text) (repeats : Repeats members field.key) :
    ∃ fault, decode readJson text = .error fault := by
  cases read : decode readJson text with
  | error fault => exact ⟨fault, rfl⟩
  | ok t =>
    obtain ⟨known, record, -⟩ := (reads_json.decode_eq_ok_iff spelled).mp read
    exact absurd record (not_isRecord_of_repeats field.ofKey?_key repeats)

end PhraseGraph.Token

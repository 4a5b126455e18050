import PhraseGraph.Tagset.Json

/-!
# PhraseGraph.Settings

The settings of a provider, and their JSON text.
-/

namespace PhraseGraph

/-- What a provider has to know beside its ontology. -/
structure Settings where
  tags : Tagset := {}
  deriving DecidableEq

structure SettingsError where
  fault : Json.Fault
  deriving DecidableEq

/-- The part of the message that does not depend on the fault. -/
def SettingsError.message (_ : SettingsError) : String := "invalid provider configuration: "

namespace Settings

def tagsKey : String := "tags"

/-- Reads settings. Whatever the text leaves out has its default. -/
def read : Json.Reader Settings := fun cs =>
  (Json.readRecord (fun key => if key = tagsKey then some () else none) (fun _ => Tagset.read)
    [()] false cs).map
    fun (known, rest) => ({ tags := (known.lookup ()).getD {} }, rest)

def ofText (text : String) : Except SettingsError Settings :=
  (Json.decode read text).mapError fun fault => ⟨fault⟩

def toJson (s : Settings) : Json := .object [(tagsKey, s.tags.toJson)]

end Settings

end PhraseGraph

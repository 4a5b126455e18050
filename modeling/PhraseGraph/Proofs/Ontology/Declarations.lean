import PhraseGraph.Ontology.Basic
import PhraseGraph.Proofs.Ontology.Catalog

/-!
# PhraseGraph.Proofs.Ontology.Declarations

What an ontology keeps of the declarations it is made by.

A declaration bears on one part of the ontology alone: the classes, the properties, or one of the
designated names. So each part is made by the declarations of its own kind, wherever the others
stand between them.

## Main statements

`Ontology.ofDeclarations_eq`: each part of an ontology is made by the declarations of its kind.
`Ontology.ofDeclarations_outcome`: the elements are the last ones of their names, in the order in
which the names were first declared; designated names are those designated last, and are looked up
among all that is declared.
-/

namespace PhraseGraph

variable {κ : KnowledgeBase}

/-! ### Kinds of declarations -/

namespace Declaration

def class? : Declaration κ → Option (Class κ)
  | .ofClass c => some c
  | _ => none

def property? : Declaration κ → Option (Property κ)
  | .ofProperty p => some p
  | _ => none

def instanceId? : Declaration κ → Option String
  | .instanceProperty id => some id
  | _ => none

def labelId? : Declaration κ → Option String
  | .labelProperty id => some id
  | _ => none

def personId? : Declaration κ → Option String
  | .personClass id => some id
  | _ => none

/-- The same classes and the same properties are declared in the same order, and the same names
are designated last. -/
structure SameByKind (ds ds' : List (Declaration κ)) : Prop where
  classes : ds.filterMap class? = ds'.filterMap class?
  properties : ds.filterMap property? = ds'.filterMap property?
  instanceId : (ds.filterMap instanceId?).getLast? = (ds'.filterMap instanceId?).getLast?
  labelId : (ds.filterMap labelId?).getLast? = (ds'.filterMap labelId?).getLast?
  personId : (ds.filterMap personId?).getLast? = (ds'.filterMap personId?).getLast?

end Declaration

open Declaration

/-- What is listed and looked up after some elements have been declared. -/
structure Keeps {α : Type} (name : α → String) (declared listed : List α)
    (find? : String → Option α) : Prop where
  /-- Each name once, in the order in which the names were first declared. -/
  names_eq : listed.map name = (declared.map name).eraseDups
  /-- Each name with the last element that was declared under it. -/
  mem_iff : ∀ a, a ∈ listed ↔ IsLatest name declared a
  find?_eq_some_iff : ∀ id a, find? id = some a ↔ name a = id ∧ IsLatest name declared a
  find?_eq_none_iff : ∀ id, find? id = none ↔ id ∉ declared.map name

theorem Catalog.keeps_ofList {α : Type} {name : α → String} (as : List α) :
    Keeps name as (ofList as : Catalog α name).toList (ofList as : Catalog α name).find? where
  names_eq := names_ofList as
  mem_iff _ := mem_ofList_iff
  find?_eq_some_iff _ _ := by rw [Catalog.find?_eq_some_iff, mem_ofList_iff]
  find?_eq_none_iff _ := by rw [Catalog.find?_eq_none_iff, names_ofList, List.mem_eraseDups]

/-- A name that is designated stands for the last element that was declared under it. -/
theorem Keeps.designated {α : Type} {name : α → String} {declared listed : List α}
    {find? : String → Option α} (keeps : Keeps name declared listed find?) (id? : Option String)
    (a : α) : id?.bind find? = some a ↔ id? = some (name a) ∧ IsLatest name declared a := by
  rw [Option.bind_eq_some_iff]
  constructor
  · rintro ⟨id, designated, found⟩
    obtain ⟨rfl, latest⟩ := (keeps.find?_eq_some_iff id a).mp found
    exact ⟨designated, latest⟩
  · rintro ⟨designated, latest⟩
    exact ⟨name a, designated, (keeps.find?_eq_some_iff _ a).mpr ⟨rfl, latest⟩⟩

namespace Ontology

theorem ofDeclarations_concat (ds : List (Declaration κ)) (d : Declaration κ) :
    ofDeclarations (ds ++ [d]) = (ofDeclarations ds).declare d := by
  simp [ofDeclarations]

theorem ofDeclarations_eq (ds : List (Declaration κ)) :
    ofDeclarations ds =
      { classes := .ofList (ds.filterMap Declaration.class?)
        properties := .ofList (ds.filterMap Declaration.property?)
        instanceId := (ds.filterMap instanceId?).getLast?
        labelId := (ds.filterMap labelId?).getLast?
        personId := (ds.filterMap personId?).getLast? } := by
  induction ds using List.reverseRecOn with
  | nil => rfl
  | append_singleton ds d ih =>
    rw [ofDeclarations_concat, ih]
    -- every kind of declaration adds to its own part and to no other
    cases d <;> simp [declare, List.filterMap_cons, Declaration.class?, Declaration.property?,
      instanceId?, labelId?, personId?, Catalog.ofList_concat]

theorem ofDeclarations_outcome (ds : List (Declaration κ)) :
    Keeps Class.id (ds.filterMap Declaration.class?) (ofDeclarations ds).classes.toList
        (ofDeclarations ds).class? ∧
      Keeps Property.id (ds.filterMap Declaration.property?) (ofDeclarations ds).properties.toList
        (ofDeclarations ds).property? ∧
      (∀ p, (ofDeclarations ds).instanceProperty? = some p ↔
        (ds.filterMap instanceId?).getLast? = some p.id ∧
          IsLatest Property.id (ds.filterMap Declaration.property?) p) ∧
      (∀ p, (ofDeclarations ds).labelProperty? = some p ↔
        (ds.filterMap labelId?).getLast? = some p.id ∧
          IsLatest Property.id (ds.filterMap Declaration.property?) p) ∧
      (∀ c, (ofDeclarations ds).personClass? = some c ↔
        (ds.filterMap personId?).getLast? = some c.id ∧
          IsLatest Class.id (ds.filterMap Declaration.class?) c) ∧
      ∀ ds', SameByKind ds ds' → ofDeclarations ds = ofDeclarations ds' := by
  have classes : Keeps Class.id (ds.filterMap Declaration.class?)
      (ofDeclarations ds).classes.toList (ofDeclarations ds).class? := by
    rw [ofDeclarations_eq]
    exact Catalog.keeps_ofList _
  have properties : Keeps Property.id (ds.filterMap Declaration.property?)
      (ofDeclarations ds).properties.toList (ofDeclarations ds).property? := by
    rw [ofDeclarations_eq]
    exact Catalog.keeps_ofList _
  have parts := ofDeclarations_eq ds
  refine ⟨classes, properties, fun p => ?_, fun p => ?_, fun c => ?_, fun ds' same => ?_⟩
  · rw [instanceProperty?, properties.designated, parts]
  · rw [labelProperty?, properties.designated, parts]
  · rw [personClass?, classes.designated, parts]
  · rw [parts, ofDeclarations_eq ds', same.classes, same.properties, same.instanceId,
      same.labelId, same.personId]

/-- A class is declared again, and a property is designated before it is declared. -/
def redeclared : List (Declaration .numbered) :=
  [.instanceProperty "isA", .ofClass { id := "Person" }, .labelProperty "label",
    .ofClass { id := "Place" }, .ofProperty { id := "isA", mapping := some 31 },
    .personClass "Place", .ofClass { id := "Person", mapping := some 5 }, .personClass "Person"]

/-- The same declarations, sorted by kind. -/
def redeclaredSorted : List (Declaration .numbered) :=
  [.ofClass { id := "Person" }, .ofClass { id := "Place" },
    .ofClass { id := "Person", mapping := some 5 }, .ofProperty { id := "isA", mapping := some 31 },
    .personClass "Person", .labelProperty "label", .instanceProperty "isA"]

theorem ofDeclarations_outcome_redeclared : SameByKind redeclared redeclaredSorted ∧
    (ofDeclarations redeclared).classes.toList.map Class.id = ["Person", "Place"] ∧
    (ofDeclarations redeclared).class? "Person" = some { id := "Person", mapping := some 5 } ∧
    (ofDeclarations redeclared).instanceProperty? = some { id := "isA", mapping := some 31 } ∧
    (ofDeclarations redeclared).labelProperty? = none ∧
    ofDeclarations redeclared = ofDeclarations redeclaredSorted := by
  obtain ⟨classes, -, instances, -, -, alike⟩ := ofDeclarations_outcome redeclared
  have same : SameByKind redeclared redeclaredSorted := ⟨rfl, rfl, rfl, rfl, rfl⟩
  refine ⟨same, classes.names_eq, ?_, ?_, rfl, alike redeclaredSorted same⟩
  · refine (classes.find?_eq_some_iff _ _).mpr ⟨rfl, ?_⟩
    exact ⟨[{ id := "Person" }, { id := "Place" }], [], rfl, by simp⟩
  · exact (instances _).mpr ⟨rfl, [], [], rfl, by simp⟩

end Ontology

end PhraseGraph

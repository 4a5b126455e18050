import PhraseGraph.Proofs.Provider.ClassPhrases

/-!
# PhraseGraph.Proofs.Provider.Determiners

A determiner in front of a phrase for classes says nothing.

Classes, relations and adjectives are looked up for a phrase without its determiner, in several
places and sometimes twice. If a phrase does not start with a determiner then one may be put in
front of it, whatever else the tag of a determiner marks. All words show up in a label only.

## Main statements

`Provider.determiner_transparent`: a phrase and the same phrase with a determiner are answered alike.
-/

namespace PhraseGraph

variable {κ : KnowledgeBase}

namespace Tagset

variable {tags : Tagset} {t : Token}

theorem stripDeterminer_cons_of_determiner (determiner : tags.isDeterminer t = true)
    (phrase : List Token) : tags.stripDeterminer (t :: phrase) = phrase := by
  rw [stripDeterminer, if_pos determiner]

theorem stripDeterminer_cons_of_other (other : tags.isDeterminer t = false)
    (phrase : List Token) : tags.stripDeterminer (t :: phrase) = t :: phrase := by
  rw [stripDeterminer, other]
  rfl

end Tagset

/-! ### Phrases that differ in their determiner -/

namespace PatternIndex

variable {index : PatternIndex κ} {name name' : List Token}
  (same : index.tags.stripDeterminer name = index.tags.stripDeterminer name')

include same

theorem namedClasses_of_stripped : index.namedClasses name = index.namedClasses name' := by
  rw [namedClasses, namedClasses, same]

theorem relationProperties_of_stripped :
    index.relationProperties name = index.relationProperties name' := by
  rw [relationProperties, relationProperties, same]

end PatternIndex

namespace Provider

section Stripped

variable {provider : Provider κ} {name name' : List Token}
  (same : provider.index.tags.stripDeterminer name = provider.index.tags.stripDeterminer name')

include same

theorem classPhrase_of_stripped : provider.classPhrase name = provider.classPhrase name' := by
  simp only [classPhrase, same]

theorem classEdge_of_stripped : provider.classEdge name = provider.classEdge name' := by
  simp only [classEdge, classPhrase_of_stripped same]

theorem classReading_of_stripped : provider.classReading name = provider.classReading name' := by
  simp only [classReading, classAllotment, classPhrase_of_stripped same]

theorem relationshipEdge_of_stripped (node : Node κ) :
    provider.relationshipEdge name node = provider.relationshipEdge name' node := by
  simp only [relationshipEdge, classEdge_of_stripped same,
    PatternIndex.relationProperties_of_stripped same]

end Stripped

variable {provider : Provider κ} {name name' : List Token}

theorem outcome_valueNode_of_unnamed (unnamed : (provider.classPhrase name).2 = []) (s : Supply) :
    Making.outcome (provider.valueNode name) s = labelled provider.index.ontology name s := by
  rw [provider.follows_valueNode name s, valueNodePlan, classReading, unnamed, labelled, labelPlan]
  cases provider.index.ontology.labelProperty? <;> rfl

/-- A phrase for classes is not part of its node. -/
theorem outcome_valueNode_of_stripped
    (same : provider.index.tags.stripDeterminer name = provider.index.tags.stripDeterminer name')
    (named : (provider.classPhrase name).2 ≠ []) (s : Supply) :
    Making.outcome (provider.valueNode name) s = Making.outcome (provider.valueNode name') s := by
  rw [classPhrase_of_stripped same] at named
  rw [provider.follows_valueNode, provider.follows_valueNode, valueNodePlan, valueNodePlan,
    classReading_of_stripped same, classReading, if_neg (by rwa [List.isEmpty_iff])]
  cases provider.index.ontology.instanceProperty? <;> rfl

/-! ### Determiners -/

/-- Two phrases that are answered alike wherever they may name classes. If they name none then each
is the label of its node. -/
structure AnsweredAlike (provider : Provider κ) (name name' : List Token) : Prop where
  namedClasses : provider.index.namedClasses name = provider.index.namedClasses name'
  relationProperties :
    provider.index.relationProperties name = provider.index.relationProperties name'
  relationshipEdge (node : Node κ) :
    provider.relationshipEdge name node = provider.relationshipEdge name' node
  classes : (provider.classPhrase name).2 = (provider.classPhrase name').2
  valueNode (named : (provider.classPhrase name).2 ≠ []) (s : Supply) :
    Making.outcome (provider.valueNode name) s = Making.outcome (provider.valueNode name') s
  label (unnamed : (provider.classPhrase name).2 = []) (s : Supply) :
    Making.outcome (provider.valueNode name) s = labelled provider.index.ontology name s ∧
      Making.outcome (provider.valueNode name') s = labelled provider.index.ontology name' s
  subject (phrase : List Token) (node : Node κ) (filter : List Token) :
    provider.valuePropertyEdge phrase node ⟨.named name, filter⟩ =
      provider.valuePropertyEdge phrase node ⟨.named name', filter⟩

/-- A determiner in front of a phrase that does not start with one makes no difference. -/
theorem determiner_transparent (provider : Provider κ) {d t : Token} (rest : List Token)
    (determiner : provider.index.tags.isDeterminer d = true)
    (other : provider.index.tags.isDeterminer t = false) :
    provider.AnsweredAlike (d :: t :: rest) (t :: rest) := by
  have stripped (phrase : List Token) : provider.index.tags.stripDeterminer (d :: t :: phrase) =
      provider.index.tags.stripDeterminer (t :: phrase) := by
    rw [Tagset.stripDeterminer_cons_of_determiner determiner,
      Tagset.stripDeterminer_cons_of_other other]
  have same := stripped rest
  have classes := congrArg Prod.snd (classPhrase_of_stripped same)
  constructor
  · exact PatternIndex.namedClasses_of_stripped same
  · exact PatternIndex.relationProperties_of_stripped same
  · exact relationshipEdge_of_stripped same
  · exact classes
  · exact fun named => outcome_valueNode_of_stripped same named
  · intro unnamed s
    exact ⟨outcome_valueNode_of_unnamed unnamed s,
      outcome_valueNode_of_unnamed (classes.symm.trans unnamed) s⟩
  · intro phrase node filter
    -- the filter stands behind the subject, so that the determiner is still in front
    have related := PatternIndex.relationProperties_of_stripped (stripped (rest ++ filter))
    simp only [valuePropertyEdge, Context.namedSubject?, Making.available, pure_bind,
      List.cons_append, related]

/-- Where superlatives are taken for determiners, "oldest" says nothing of a mother. -/
theorem determiner_transparent_oldestMother :
    ∃ provider, ofOntology Sample.ontology ⟨{ determiner := "JJS" }⟩ = .ok provider ∧
      provider.AnsweredAlike oldestMother [⟨"mother", "NN", "mother"⟩] ∧
      provider.index.namedClasses oldestMother = [⟨"Mother", none⟩] := by
  have computed : (ofOntology Sample.ontology ⟨{ determiner := "JJS" }⟩).toOption.map
      (fun provider => (provider.index.tags,
        provider.index.namedClasses [⟨"mother", "NN", "mother"⟩])) =
      some ({ determiner := "JJS" }, [⟨"Mother", none⟩]) := by decide +kernel
  obtain ⟨provider, built, found⟩ := map_toOption_eq_some.mp computed
  simp only [Prod.mk.injEq] at found
  obtain ⟨tags, named⟩ := found
  have alike : provider.AnsweredAlike oldestMother [⟨"mother", "NN", "mother"⟩] := by
    refine determiner_transparent provider [] ?_ ?_ <;> rw [tags] <;> decide
  exact ⟨provider, built, alike, alike.namedClasses.trans named⟩

end Provider

end PhraseGraph

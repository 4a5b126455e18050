import PhraseGraph.Proofs.Pattern.Encoding
import PhraseGraph.Proofs.Regex.Repetitions
import PhraseGraph.Pattern.Nesting

/-!
# PhraseGraph.Proofs.Pattern.Language

The token lists that a pattern matches, and that the expression made from the pattern matches their
texts and nothing else.

## Main statements

`Pattern.language` says which lists of tokens a pattern matches, without text. `encode_mem_language`:
the expression of a pattern matches the text of tokens if the pattern matches the tokens.
`take_mem_language`: what it matches at the start of such a text are whole tokens.
-/

namespace PhraseGraph

/-! ### Languages of patterns -/

/-- A tag or headword without U+001F and U+001E. -/
def stripped (text : String) : String :=
  String.ofList (text.toList.filter fun c => c != '\u001F' && c != '\u001E')

/-- Nothing but the two characters that end fields is left out of the text of a field. -/
theorem ofList_fieldText (text : String) : String.ofList (fieldText text) = stripped text := rfl

/-- The condition with its own text stripped. -/
def TagCondition.stripped : TagCondition → TagCondition
  | .any => .any
  | .exact tag => .exact (PhraseGraph.stripped tag)
  | .startsWith start => .startsWith (PhraseGraph.stripped start)

def TokenPattern.accepts (p : TokenPattern) (t : Token) : Bool :=
  p.tag.stripped.accepts (stripped t.tag) &&
    p.headword.all fun text => stripped t.headword == stripped text

namespace Pattern

mutual

/-- The lists of tokens that a pattern matches. -/
def language : Pattern → Language Token
  | .token p => {ts | ∃ t, p.accepts t = true ∧ ts = [t]}
  | .sequence ps => (languages ps).prod
  | .anyOf ps => (languages ps).sum
  | .optional p => language p + 1
  | .repeated p least most => {ts | ∃ k, least ≤ k ∧ (∀ m ∈ most, k ≤ m) ∧ ts ∈ language p ^ k}

def languages : List Pattern → List (Language Token)
  | [] => []
  | p :: ps => language p :: languages ps

end

theorem languages_eq_map (ps : List Pattern) : languages ps = ps.map language := by
  induction ps with
  | nil => rfl
  | cons p ps ih => simp [languages, ih]

theorem language_sequenceMembers (p : Pattern) :
    (p.sequenceMembers.map language).prod = p.language := by
  cases p with
  | sequence ps => rw [sequenceMembers, language, languages_eq_map]
  | token => simp [sequenceMembers]
  | anyOf => simp [sequenceMembers]
  | optional => simp [sequenceMembers]
  | repeated => simp [sequenceMembers]

theorem language_inOrder (ps : List Pattern) : (inOrder ps).language = (ps.map language).prod := by
  have flat : ((ps.flatMap sequenceMembers).map language).prod = (ps.map language).prod := by
    induction ps with
    | nil => rfl
    | cons p ps ih => simp [ih, language_sequenceMembers]
  rw [← flat, inOrder]
  split
  · next p single => simp [single]
  · rw [language, languages_eq_map]

theorem language_followedBy (p q : Pattern) :
    (p.followedBy q).language = p.language * q.language := by
  simp [followedBy, language_inOrder]

end Pattern

/-! ### Texts of tokens -/

/-- The token lists whose texts belong to a language. -/
def decoded (l : Language Char) : Language Token := {ts | encode ts ∈ l}

/-- No text of the language ends within a token. -/
def WholeTokens (l : Language Char) : Prop := ∀ w ∈ l, EndsToken w

section Decoded

variable {l m : Language Char}

theorem mem_decoded {ts : List Token} : ts ∈ decoded l ↔ encode ts ∈ l := Iff.rfl

theorem decoded_one : decoded 1 = 1 := by
  ext ts
  rw [mem_decoded, Language.mem_one, Language.mem_one, encode_eq_nil]

theorem wholeTokens_one : WholeTokens 1 := fun w member =>
  (show w = [] from member) ▸ endsToken_nil

theorem WholeTokens.add (first : WholeTokens l) (second : WholeTokens m) : WholeTokens (l + m) :=
  fun w member => Or.elim member (first w) (second w)

theorem WholeTokens.mul (first : WholeTokens l) (second : WholeTokens m) : WholeTokens (l * m) := by
  intro w member
  obtain ⟨u, hu, v, hv, rfl⟩ := Language.mem_mul.mp member
  exact (first u hu).append (second v hv)

theorem WholeTokens.pow (whole : WholeTokens l) (k : Nat) : WholeTokens (l ^ k) := by
  induction k with
  | zero => exact wholeTokens_one
  | succ k ih => rw [pow_succ]; exact ih.mul whole

/-- Texts of two languages one after another are texts of tokens one after another. -/
theorem decoded_mul (whole : WholeTokens l) : decoded (l * m) = decoded l * decoded m := by
  ext ts
  rw [mem_decoded, Language.mem_mul, Language.mem_mul]
  constructor
  · rintro ⟨u, hu, v, hv, cut⟩
    -- the first text ends with a token, so the cut lies between two tokens
    obtain ⟨k, -, rfl, rfl⟩ := encode_eq_append cut.symm (whole u hu)
    exact ⟨ts.take k, hu, ts.drop k, hv, List.take_append_drop k ts⟩
  · rintro ⟨us, hu, vs, hv, rfl⟩
    exact ⟨encode us, hu, encode vs, hv, (encode_append us vs).symm⟩

theorem decoded_pow (whole : WholeTokens l) (k : Nat) : decoded (l ^ k) = decoded l ^ k := by
  induction k with
  | zero => exact decoded_one
  | succ k ih => rw [pow_succ, decoded_mul (whole.pow k), ih, pow_succ]

theorem mem_decoded_copies (whole : WholeTokens l) {least : Nat} {most : Option Nat}
    (inOrder : ∀ m ∈ most, least ≤ m) {ts : List Token} :
    ts ∈ decoded (copies l least most) ↔
      ∃ k, least ≤ k ∧ (∀ m ∈ most, k ≤ m) ∧ ts ∈ decoded l ^ k := by
  rw [mem_decoded, mem_copies inOrder]
  simp only [← decoded_pow whole, mem_decoded]

theorem wholeTokens_prod {ls : List (Language Char)} (whole : ∀ l ∈ ls, WholeTokens l) :
    WholeTokens ls.prod := by
  induction ls with
  | nil => exact wholeTokens_one
  | cons l ls ih =>
    rw [List.prod_cons]
    exact (whole l List.mem_cons_self).mul (ih fun m later => whole m (List.mem_cons_of_mem l later))

theorem wholeTokens_sum {ls : List (Language Char)} (whole : ∀ l ∈ ls, WholeTokens l) :
    WholeTokens ls.sum := by
  induction ls with
  | nil => exact fun w member => absurd member (Language.notMem_zero w)
  | cons l ls ih =>
    rw [List.sum_cons]
    exact (whole l List.mem_cons_self).add (ih fun m later => whole m (List.mem_cons_of_mem l later))

theorem decoded_prod {ls : List (Language Char)} (whole : ∀ l ∈ ls, WholeTokens l) :
    decoded ls.prod = (ls.map decoded).prod := by
  induction ls with
  | nil => exact decoded_one
  | cons l ls ih =>
    rw [List.prod_cons, List.map_cons, List.prod_cons, decoded_mul (whole l List.mem_cons_self),
      ih fun m later => whole m (List.mem_cons_of_mem l later)]

theorem decoded_sum (ls : List (Language Char)) : decoded ls.sum = (ls.map decoded).sum := by
  induction ls with
  | nil => rfl
  | cons l ls ih =>
    rw [List.sum_cons, List.map_cons, List.sum_cons, ← ih]
    rfl

end Decoded

/-! ### Fields -/

theorem accepts_fieldChar {c : Char} :
    (CharSet.except [tokenEnd, tagEnd]).accepts c = true ↔ c ≠ tagEnd ∧ c ≠ tokenEnd := by
  simp [CharSet.accepts, and_comm]

namespace Regex

theorem language_literal (cs : List Char) : ((literal cs).map language).prod = {cs} := by
  induction cs with
  | nil => rfl
  | cons c cs ih =>
    have first : (char (.only c)).language = {[c]} := by
      ext w
      change w ∈ (char (.only c)).language ↔ w = [c]
      simp [mem_language_char, CharSet.accepts]
    rw [literal, List.map_cons, List.map_cons, List.prod_cons, first]
    rw [literal] at ih
    rw [ih]
    ext w
    rw [Language.mem_mul]
    constructor
    · rintro ⟨_, rfl, _, rfl, rfl⟩
      rfl
    · rintro rfl
      exact ⟨[c], rfl, cs, rfl, rfl⟩

theorem mem_language_literal {cs w : List Char} :
    w ∈ ((literal cs).map language).prod ↔ w = cs := by
  rw [language_literal]
  rfl

end Regex

namespace Pattern

open Regex

theorem anyField_eq : anyField = .repeated (.char (.except [tokenEnd, tagEnd])) 0 none := rfl

theorem mem_language_anyField {w : List Char} : w ∈ anyField.language ↔ IsField w := by
  rw [anyField_eq, language_repeated, copies, pow_zero, one_mul, Language.mem_kstar]
  constructor
  · rintro ⟨pieces, rfl, each⟩ c member
    obtain ⟨piece, inside, member⟩ := List.mem_flatten.mp member
    obtain ⟨d, accepted, rfl⟩ := mem_language_char.mp (each piece inside)
    rw [List.mem_singleton.mp member]
    exact accepts_fieldChar.mp accepted
  · intro field
    -- each character is a copy of its own
    refine ⟨w.map fun c => [c], ?_, fun piece member => ?_⟩
    · rw [← List.flatMap_def, List.flatMap_singleton']
    obtain ⟨c, inside, rfl⟩ := List.mem_map.mp member
    exact mem_language_char.mpr ⟨c, accepts_fieldChar.mpr (field c inside), rfl⟩

theorem mem_language_tagRegex {condition : TagCondition} {w : List Char} :
    w ∈ ((tagRegex condition).map Regex.language).prod ↔
      IsField w ∧ condition.stripped.accepts (String.ofList w) = true := by
  cases condition with
  | any =>
    simp [tagRegex, mem_language_anyField, TagCondition.stripped, TagCondition.accepts]
  | exact tag =>
    rw [tagRegex, mem_language_literal, TagCondition.stripped, TagCondition.accepts, beq_iff_eq,
      ← ofList_fieldText, String.ofList_inj]
    constructor
    · rintro rfl
      exact ⟨isField_fieldText tag, rfl⟩
    · exact And.right
  | startsWith start =>
    rw [tagRegex, List.map_append, List.prod_append, language_literal, List.map_singleton,
      List.prod_singleton, Language.mem_mul, TagCondition.stripped, TagCondition.accepts,
      List.isPrefixOf_iff_prefix, ← ofList_fieldText, String.toList_ofList, String.toList_ofList]
    constructor
    · rintro ⟨_, rfl, rest, field, rfl⟩
      exact ⟨(isField_fieldText start).append (mem_language_anyField.mp field),
        List.prefix_append _ _⟩
    · rintro ⟨field, rest, rfl⟩
      have restField : IsField rest := fun c member => field c (List.mem_append_right _ member)
      exact ⟨_, rfl, rest, mem_language_anyField.mpr restField, rfl⟩

theorem mem_language_headwordRegex {condition : Option String} {w : List Char} :
    w ∈ ((headwordRegex condition).map Regex.language).prod ↔
      IsField w ∧ (condition.all fun text => String.ofList w == stripped text) = true := by
  cases condition with
  | none => simp [headwordRegex, mem_language_anyField]
  | some text =>
    rw [headwordRegex, mem_language_literal, Option.all_some, beq_iff_eq, ← ofList_fieldText,
      String.ofList_inj]
    constructor
    · rintro rfl
      exact ⟨isField_fieldText text, rfl⟩
    · exact And.right

/-- The expression of a token matches a tag and a headword that meet the conditions, each ended. -/
theorem mem_language_tokenRegex {p : TokenPattern} {w : List Char} :
    w ∈ (tokenRegex p).language ↔ ∃ tag headword,
      (IsField tag ∧ p.tag.stripped.accepts (String.ofList tag) = true) ∧
      (IsField headword ∧
        (p.headword.all fun text => String.ofList headword == stripped text) = true) ∧
      w = tag ++ tagEnd :: (headword ++ [tokenEnd]) := by
  rw [tokenRegex, Regex.language_inOrder]
  simp only [List.map_append, List.prod_append, language_literal]
  constructor
  · rintro ⟨_, ⟨_, ⟨tag, tagged, _, rfl, rfl⟩, headword, named, rfl⟩, _, rfl, rfl⟩
    exact ⟨tag, headword, mem_language_tagRegex.mp tagged, mem_language_headwordRegex.mp named,
      by simp⟩
  · rintro ⟨tag, headword, tagged, named, rfl⟩
    refine ⟨_, ⟨_, ⟨tag, mem_language_tagRegex.mpr tagged, _, rfl, rfl⟩, headword,
      mem_language_headwordRegex.mpr named, rfl⟩, _, rfl, by simp⟩

theorem wholeTokens_tokenRegex (p : TokenPattern) : WholeTokens (tokenRegex p).language := by
  intro w member
  obtain ⟨tag, headword, -, -, rfl⟩ := mem_language_tokenRegex.mp member
  have last : (tag ++ tagEnd :: (headword ++ [tokenEnd])).getLast? = some tokenEnd := by
    simp [List.getLast?_append, List.getLast?_cons]
  rw [EndsToken, last]
  rintro c ⟨⟩
  rfl

theorem decoded_tokenRegex (p : TokenPattern) :
    decoded (tokenRegex p).language = {ts | ∃ t, p.accepts t = true ∧ ts = [t]} := by
  ext ts
  rw [mem_decoded, mem_language_tokenRegex]
  constructor
  · rintro ⟨tag, headword, ⟨tagField, tagged⟩, ⟨headwordField, named⟩, text⟩
    cases ts with
    | nil => simp [encode_nil] at text
    | cons t ts =>
      -- the fields of the first token take up the whole text
      obtain ⟨rfl, rfl, rest⟩ := (encode_cons_eq tagField headwordField).mp text
      rw [encode_eq_nil] at rest
      subst rest
      refine ⟨t, ?_, rfl⟩
      rw [TokenPattern.accepts, Bool.and_eq_true]
      exact ⟨tagged, named⟩
  · rintro ⟨t, accepted, rfl⟩
    rw [TokenPattern.accepts, Bool.and_eq_true] at accepted
    refine ⟨fieldText t.tag, fieldText t.headword, ⟨isField_fieldText _, accepted.1⟩,
      ⟨isField_fieldText _, accepted.2⟩, ?_⟩
    rw [encode_cons, encode_nil]

/-! ### Lowered patterns -/

theorem isBounded_repeated {p : Pattern} {least : Nat} {most : Option Nat} :
    (repeated p least most).isBounded = true ↔ (∀ m ∈ most, least ≤ m) ∧ p.isBounded = true := by
  cases most <;> simp [isBounded]

/-- The only repetitions in the expression of a token are those of the characters of a field. -/
theorem eachRepetition_tokenRegex {holds : Regex → Nat → Option Nat → Prop}
    (fieldHolds : holds (.char (.except [tokenEnd, tagEnd])) 0 none) (p : TokenPattern) :
    (tokenRegex p).EachRepetition holds := by
  have field : anyField.EachRepetition holds := by
    rw [anyField_eq, eachRepetition_repeated]
    exact ⟨fieldHolds, eachRepetition_char _⟩
  have tag : ∀ e ∈ tagRegex p.tag, e.EachRepetition holds := by
    cases p.tag with
    | any => simpa [tagRegex] using field
    | exact tag => exact eachRepetition_literal _
    | startsWith start =>
      rw [tagRegex, List.forall_mem_append]
      exact ⟨eachRepetition_literal _, by simpa using field⟩
  have headword : ∀ e ∈ headwordRegex p.headword, e.EachRepetition holds := by
    cases p.headword with
    | none => simpa [headwordRegex] using field
    | some text => exact eachRepetition_literal _
  rw [tokenRegex, eachRepetition_inOrder]
  simp only [List.forall_mem_append]
  exact ⟨⟨⟨tag, eachRepetition_literal _⟩, headword⟩, eachRepetition_literal _⟩

mutual

theorem isBounded_regex : ∀ p : Pattern, p.isBounded = true → p.regex.IsBounded
  | .token p, _ => by
    rw [regex]
    exact eachRepetition_tokenRegex (by simp) p
  | .sequence ps, bounded => by
    rw [regex, IsBounded, eachRepetition_inOrder]
    exact isBounded_regexes ps (by simpa only [isBounded] using bounded)
  | .anyOf ps, bounded => by
    rw [regex]
    exact eachRepetition_oneOf (isBounded_regexes ps (by simpa only [isBounded] using bounded))
  | .optional p, bounded => by
    rw [regex]
    exact isBounded_repeating (isBounded_regex p (by simpa only [isBounded] using bounded)) (by simp)
  | .repeated p least most, bounded => by
    obtain ⟨inOrder, inside⟩ := isBounded_repeated.mp bounded
    rw [regex]
    exact isBounded_repeating (isBounded_regex p inside) inOrder

theorem isBounded_regexes : ∀ ps : List Pattern, areBounded ps = true →
    ∀ e ∈ regexes ps, e.IsBounded
  | [], _ => by simp
  | p :: ps, bounded => by
    simp only [areBounded, Bool.and_eq_true] at bounded
    rw [regexes]
    exact List.forall_mem_cons.mpr
      ⟨isBounded_regex p bounded.1, isBounded_regexes ps bounded.2⟩

end

theorem language_optional_regex {p : Pattern} (bounded : p.isBounded = true) :
    (optional p).regex.language = p.regex.language + 1 := by
  rw [regex, language_repeating (isBounded_regex p bounded)]
  simp [copies, atMost]

/-- The expression of a pattern matches texts of whole tokens, and among the texts of token lists
those of the lists that the pattern matches. -/
def IsLoweredWell (p : Pattern) : Prop :=
  decoded p.regex.language = p.language ∧ WholeTokens p.regex.language

theorem map_decoded_regexes {ps : List Pattern} (each : ∀ p ∈ ps, p.IsLoweredWell) :
    ((regexes ps).map Regex.language).map decoded = languages ps := by
  rw [regexes_eq_map, languages_eq_map, List.map_map, List.map_map]
  exact List.map_congr_left fun p member => (each p member).1

theorem wholeTokens_regexes {ps : List Pattern} (each : ∀ p ∈ ps, p.IsLoweredWell) :
    ∀ l ∈ (regexes ps).map Regex.language, WholeTokens l := by
  intro l member
  rw [regexes_eq_map, List.map_map] at member
  obtain ⟨p, inside, rfl⟩ := List.mem_map.mp member
  exact (each p inside).2

mutual

theorem isLoweredWell : ∀ p : Pattern, p.isBounded = true → p.IsLoweredWell
  | .token p, _ => by
    rw [IsLoweredWell, regex, language]
    exact ⟨decoded_tokenRegex p, wholeTokens_tokenRegex p⟩
  | .sequence ps, bounded => by
    have each := areLoweredWell ps (by simpa only [isBounded] using bounded)
    rw [IsLoweredWell, regex, language, Regex.language_inOrder, ← map_decoded_regexes each]
    have whole := wholeTokens_regexes each
    exact ⟨decoded_prod whole, wholeTokens_prod whole⟩
  | .anyOf ps, bounded => by
    have each := areLoweredWell ps (by simpa only [isBounded] using bounded)
    rw [IsLoweredWell, regex, language, language_oneOf, ← map_decoded_regexes each]
    exact ⟨decoded_sum _, wholeTokens_sum (wholeTokens_regexes each)⟩
  | .optional p, bounded => by
    have inside : p.isBounded = true := by simpa only [isBounded] using bounded
    have ⟨equal, whole⟩ := isLoweredWell p inside
    rw [IsLoweredWell, language_optional_regex inside, language, ← equal, ← decoded_one]
    exact ⟨rfl, whole.add wholeTokens_one⟩
  | .repeated p least most, bounded => by
    obtain ⟨inOrder, inside⟩ := isBounded_repeated.mp bounded
    have ⟨equal, whole⟩ := isLoweredWell p inside
    rw [IsLoweredWell, regex, language_repeating (isBounded_regex p inside)]
    constructor
    · ext ts
      rw [mem_decoded_copies whole inOrder, equal, language]
      rfl
    · intro w member
      obtain ⟨k, -, -, member⟩ := (mem_copies inOrder).mp member
      exact whole.pow k w member

theorem areLoweredWell : ∀ ps : List Pattern, areBounded ps = true → ∀ p ∈ ps, p.IsLoweredWell
  | [], _ => by simp
  | p :: ps, bounded => by
    simp only [areBounded, Bool.and_eq_true] at bounded
    exact List.forall_mem_cons.mpr ⟨isLoweredWell p bounded.1, areLoweredWell ps bounded.2⟩

end

end Pattern

variable {p : Pattern}

/-- The expression of a pattern matches the text of tokens if the pattern matches the tokens. -/
theorem encode_mem_language (bounded : p.isBounded = true) (ts : List Token) :
    encode ts ∈ p.regex.language ↔ ts ∈ p.language := by
  rw [← (Pattern.isLoweredWell p bounded).1, mem_decoded]

/-- A match within the text of tokens ends where a token ends, and covers tokens that the pattern
matches. -/
theorem take_mem_language (bounded : p.isBounded = true) {ts : List Token} {n : Nat}
    (member : (encode ts).take n ∈ p.regex.language) :
    ∃ k ≤ ts.length, (encode ts).take n = encode (ts.take k) ∧ ts.take k ∈ p.language := by
  have whole := (Pattern.isLoweredWell p bounded).2 _ member
  -- the match is a text of whole tokens, so what it is cut from is cut between tokens
  obtain ⟨k, bound, start, -⟩ := encode_eq_append (List.take_append_drop n _).symm whole
  refine ⟨k, bound, start, ?_⟩
  rwa [start, encode_mem_language bounded] at member

end PhraseGraph

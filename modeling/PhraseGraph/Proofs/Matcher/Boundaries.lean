import Mathlib.Data.List.Forall2
import PhraseGraph.Proofs.Matcher.Leading
import PhraseGraph.Proofs.Pattern.Written

/-!
# PhraseGraph.Proofs.Matcher.Boundaries

Tags and headwords do not get out of their fields.

The text of tokens tells the fields of each of them, and whatever the text of a pattern matches at
its start are whole tokens. So no character of a tag or headword, of a token or of a pattern, is
taken for the end of a field or for a sign of an expression.

## Main statements

`encode_eq_encode_iff`: tokens have the same text if they have the same fields, one by one.
`Matcher.framed`: what is matched ends with a token, and what is reported is the number of tokens.
-/

namespace PhraseGraph

/-- Tokens with the same tag and the same headword, apart from the two characters that are left out
of a text. -/
structure Token.SameFields (t u : Token) : Prop where
  tag_eq : stripped t.tag = stripped u.tag
  headword_eq : stripped t.headword = stripped u.headword

theorem fieldText_inj {s t : String} : fieldText s = fieldText t ↔ stripped s = stripped t := by
  rw [← ofList_fieldText, ← ofList_fieldText, String.ofList_inj]

theorem encode_eq_encode_iff {ts us : List Token} :
    encode ts = encode us ↔ List.Forall₂ Token.SameFields ts us := by
  induction ts generalizing us with
  | nil =>
    rw [encode_nil, eq_comm, encode_eq_nil, List.forall₂_nil_left_iff]
  | cons t ts ih =>
    cases us with
    | nil =>
      rw [encode_nil, encode_eq_nil]
      exact ⟨nofun, nofun⟩
    | cons u us =>
      -- no field has a separator in it, so the first ones of both texts end the same field
      rw [encode_cons u, encode_cons_eq (isField_fieldText _) (isField_fieldText _),
        fieldText_inj, fieldText_inj, ih, List.forall₂_cons]
      constructor
      · rintro ⟨tag_eq, headword_eq, rest⟩
        exact ⟨⟨tag_eq, headword_eq⟩, rest⟩
      · rintro ⟨⟨tag_eq, headword_eq⟩, rest⟩
        exact ⟨tag_eq, headword_eq, rest⟩

open Regex

namespace Matcher

variable {ρ : Type} {mode : MatchMode} {p : Pattern} {ts : List Token}

/-- What the text of a pattern matches at the start of the text of tokens are whole tokens. -/
theorem eq_encode_take_of_matches {e : Form} (read : Form.read? (p.source mode) = some e)
    {w rest : List Char} (cut : encode ts = w ++ rest) (matched : e.Matches [] w rest) :
    ∃ k ≤ ts.length, w = encode (ts.take k) ∧ tokenCount w = k := by
  rw [Pattern.read?_source] at read
  cases bounded : p.isBounded with
  | false =>
    rw [bounded] at read
    cases read
  | true =>
    rw [bounded] at read
    cases read
    have member := ((Pattern.matches_form bounded mode w rest).mp matched).1
    -- what the expression matches are whole tokens, and these can only be the first of the text
    have whole := (Pattern.isLoweredWell p bounded).2 w member
    obtain ⟨k, bound, rfl, -⟩ := encode_eq_append cut whole
    refine ⟨k, bound, rfl, ?_⟩
    rw [tokenCount_encode, List.length_take, Nat.min_eq_left bound]

theorem coverage_sound (bounded : p.isBounded = true) {n : Nat}
    (covered : coverage mode ts (encode ts) p.regex = some n) :
    n ≤ ts.length ∧ ts.take n ∈ p.language ∧ (mode = .full → n = ts.length) := by
  cases mode with
  | full =>
    classical
    rw [coverage_full bounded, Option.ite_none_right_eq_some] at covered
    obtain ⟨accepted, ⟨⟩⟩ := covered
    exact ⟨le_rfl, by rwa [List.take_length], fun _ => rfl⟩
  | leading =>
    obtain ⟨bound, accepted⟩ := Pattern.leadingLength?_sound bounded covered
    exact ⟨bound, accepted, nofun⟩

variable [DecidableEq ρ] {entries : List (Pattern × ρ)} {m : Matcher ρ}

/-- What is reported is a match of the text of some pattern, and it ends behind as many tokens as
are reported. -/
theorem matches_of_mem_hits (compiled : compile mode entries = .ok m) {hit : TokenMatch ρ}
    (reported : hit ∈ m.hits ts) :
    ∃ p, (p, hit.result) ∈ entries ∧ hit.length ≤ ts.length ∧
      (p.form mode).Matches [] (encode (ts.take hit.length)) (encode (ts.drop hit.length)) := by
  rw [hits_of_compile compiled, List.mem_eraseDups, List.mem_filterMap] at reported
  obtain ⟨⟨p, r⟩, member, covered⟩ := reported
  obtain ⟨n, found, rfl⟩ := Option.map_eq_some_iff.mp covered
  have bounded : p.isBounded = true := (of_compile compiled).2 _ member
  obtain ⟨bound, accepted, all⟩ := coverage_sound bounded found
  refine ⟨p, member, bound, (Pattern.matches_form bounded mode _ _).mpr ⟨?_, fun full => ?_⟩⟩
  · exact (encode_mem_language bounded _).mpr accepted
  · rw [all full, List.drop_length, encode_nil]

end Matcher

/-- Tokens have the same text if and only if they have the same fields, one by one. The text of a
pattern is read as the form of the pattern, in which all characters of tags and headwords stand for
themselves, unless a repetition makes it unreadable; and the expression of the pattern matches the
same. What is matched at the start of the text of tokens ends where one of these ends, and their
number is that of the ends of tokens in the match. So what a matcher reports is a match of one of
its patterns, and its length is a number of whole tokens. -/
theorem Matcher.framed {ρ : Type} [DecidableEq ρ] :
    (∀ ts us : List Token, encode ts = encode us ↔ List.Forall₂ Token.SameFields ts us) ∧
    (∀ (p : Pattern) (mode : MatchMode),
      Form.read? (p.source mode) = if p.isBounded then some (p.form mode) else none) ∧
    (∀ (p : Pattern) (mode : MatchMode), p.isBounded = true → ∀ w rest,
      (p.form mode).Matches [] w rest ↔ w ∈ p.regex.language ∧ (mode = .full → rest = [])) ∧
    (∀ (p : Pattern) (mode : MatchMode) (e : Form), Form.read? (p.source mode) = some e →
      ∀ (ts : List Token) (w rest : List Char), encode ts = w ++ rest → e.Matches [] w rest →
        ∃ k ≤ ts.length, w = encode (ts.take k) ∧ tokenCount w = k) ∧
    ∀ (mode : MatchMode) (entries : List (Pattern × ρ)) (m : Matcher ρ),
      compile mode entries = .ok m → ∀ (ts : List Token), ∀ hit ∈ m.hits ts,
        ∃ p, (p, hit.result) ∈ entries ∧ hit.length ≤ ts.length ∧
          (p.form mode).Matches [] (encode (ts.take hit.length)) (encode (ts.drop hit.length)) :=
  ⟨fun _ _ => encode_eq_encode_iff, fun p mode => Pattern.read?_source mode p,
    fun _ mode bounded => Pattern.matches_form bounded mode,
    fun _ _ _ read _ _ _ => eq_encode_take_of_matches read,
    fun _ _ _ compiled _ _ => matches_of_mem_hits compiled⟩

/-- Possessive pronouns, whose tag looks like an expression. -/
def Pattern.possessive : Pattern := .tagged (.exact "PRP$")

/-- A pronoun whose headword looks like a choice, and the one that is meant by it. -/
theorem Matcher.framed_possessive :
    encode [⟨"their", "PRP\u001E$", "he|she"⟩] = encode [⟨"her", "PRP$", "he\u001F|she"⟩] ∧
    (∃ e, Form.read? (Pattern.possessive.source .leading) = some e ∧
      ∃ k ≤ 2, encode [⟨"their", "PRP$", "he|she"⟩] =
        encode ([⟨"their", "PRP$", "he|she"⟩, ⟨"book", "NN", "book"⟩].take k) ∧
          tokenCount (encode [⟨"their", "PRP$", "he|she"⟩]) = k) ∧
    ∃ m, compile .leading [(Pattern.possessive, 7)] = .ok m ∧
      ∃ hit ∈ m.hits [⟨"their", "PRP$", "he|she"⟩, ⟨"book", "NN", "book"⟩],
        hit.length = 1 ∧ ∃ p, (p, hit.result) ∈ [(Pattern.possessive, 7)] := by
  have bounded : Pattern.possessive.isBounded = true := rfl
  obtain ⟨same, readable, spelled, ends, hits⟩ := @framed Nat _
  have read : Form.read? (Pattern.possessive.source .leading) =
      some (Pattern.possessive.form .leading) := readable Pattern.possessive .leading
  have matched : (Pattern.possessive.form .leading).Matches []
      (encode [⟨"their", "PRP$", "he|she"⟩]) (encode [⟨"book", "NN", "book"⟩]) := by
    refine (spelled _ _ bounded _ _).mpr ⟨?_, nofun⟩
    rw [encode_mem_language bounded]
    exact ⟨_, by decide, rfl⟩
  have compiled : compile .leading [(Pattern.possessive, 7)] =
      .ok ⟨.leading, [(Pattern.possessive.regex, 7)]⟩ := by rfl
  have reported : ⟨7, 1⟩ ∈ (⟨.leading, [(Pattern.possessive.regex, 7)]⟩ : Matcher Nat).hits
      [⟨"their", "PRP$", "he|she"⟩, ⟨"book", "NN", "book"⟩] := by decide +kernel
  refine ⟨(same _ _).mpr (.cons ⟨by decide, by decide⟩ .nil), ⟨_, read, ?_⟩, _, compiled,
    _, reported, rfl, ?_⟩
  · exact ends _ _ _ read [⟨"their", "PRP$", "he|she"⟩, ⟨"book", "NN", "book"⟩] _ _ rfl matched
  · obtain ⟨p, member, -⟩ := hits _ _ _ compiled _ _ reported
    exact ⟨p, member⟩

end PhraseGraph

import PhraseGraph.Proofs.Json.Grammar
import PhraseGraph.Proofs.Outcomes

/-!
# PhraseGraph.Proofs.Json.Strings

Strings are read as what they spell.

A step of the scanner takes one character, in whichever way it is spelled, except that a character
in two halves takes two steps if it is only read over.

## Main statements

`Json.stringBody_append`, `Json.skipString_append`: what is behind the quote of a spelled string is
its text, and then whatever follows.
-/

namespace PhraseGraph.Json

variable {c : Char} {n : Nat} {digits part cs rest : List Char}

/-! ### Escapes -/

theorem fourHex_append (unit : IsUnit n digits) : fourHex (digits ++ rest) = .ok (n, rest) := by
  cases unit with
  | digits first second third fourth => simp [fourHex, first, second, third, fourth]

/-- The numbers of the halves are not those of characters. -/
theorem toNat_notHalf (c : Char) : c.toNat < 0xD800 ∨ 0xDFFF < c.toNat :=
  c.valid.imp id fun above => above.1

theorem codePoint_unit (unit : IsUnit c.toNat digits) :
    codePoint (digits ++ rest) = .ok (c, rest) := by
  have whole := toNat_notHalf c
  have second : ¬(0xDC00 ≤ c.toNat ∧ c.toNat ≤ 0xDFFF) := by omega
  have first : c.toNat < 0xD800 ∨ 0xDBFF < c.toNat := by omega
  simp only [codePoint, fourHex_append unit, bind, Except.bind]
  rw [if_neg second, if_pos first, Char.ofNat_toNat]

theorem codePoint_halves {m : Nat} {high low : List Char} (first : n < 0x400) (second : m < 0x400)
    (highHalf : IsUnit (0xD800 + n) high) (lowHalf : IsUnit (0xDC00 + m) low)
    (value : c.toNat = 0x10000 + n * 0x400 + m) :
    codePoint (high ++ '\\' :: 'u' :: (low ++ rest)) = .ok (c, rest) := by
  -- the first number is that of a first half: neither a second half nor a character of its own
  have notSecond : ¬(0xDC00 ≤ 0xD800 + n ∧ 0xD800 + n ≤ 0xDFFF) := by omega
  have half : ¬(0xD800 + n < 0xD800 ∨ 0xDBFF < 0xD800 + n) := by omega
  have other : 0xDC00 ≤ 0xDC00 + m ∧ 0xDC00 + m ≤ 0xDFFF := by omega
  have together :
      0x10000 + (0xD800 + n - 0xD800) * 0x400 + (0xDC00 + m - 0xDC00) = c.toNat := by omega
  simp only [codePoint, fourHex_append highHalf, fourHex_append lowHalf, bind, Except.bind]
  rw [if_neg notSecond, if_neg half, if_pos other, together, Char.ofNat_toNat]

/-! ### One character -/

theorem stringBody_escaped (read : escaped cs = .ok (c, rest)) :
    stringBody ('\\' :: cs) = (stringBody rest).map fun (text, rest) => (c :: text, rest) := by
  rw [stringBody]
  split
  · next failed =>
    rw [read] at failed
    cases failed
  · next found =>
    rw [read] at found
    cases found
    rfl

theorem skipString_escaped (read : skipEscaped cs = .ok rest) :
    skipString ('\\' :: cs) = skipString rest := by
  rw [skipString]
  split
  · next failed =>
    rw [read] at failed
    cases failed
  · next found =>
    rw [read] at found
    cases found
    rfl

theorem shortEscapes_lookup {mark : Char} (entry : (mark, c) ∈ shortEscapes) :
    mark ≠ 'u' ∧ shortEscapes.lookup mark = some c := by
  have table : ∀ e ∈ shortEscapes, e.1 ≠ 'u' ∧ shortEscapes.lookup e.1 = some e.2 := by decide
  exact table _ entry

theorem stringBody_append (spelled : SpellsChar c part) :
    stringBody (part ++ cs) = (stringBody cs).map fun (text, rest) => (c :: text, rest) := by
  cases spelled with
  | plain printable quote backslash =>
    rw [List.singleton_append, stringBody, if_neg (by omega)]
    · exact quote
    · exact backslash
  | @short mark _ entry =>
    obtain ⟨notUnit, entry⟩ := shortEscapes_lookup entry
    apply stringBody_escaped
    simp [escaped, entry]
  | unit unit => exact stringBody_escaped (codePoint_unit unit)
  | halves first second highHalf lowHalf value =>
    rw [List.cons_append, List.cons_append, List.append_assoc]
    exact stringBody_escaped (codePoint_halves first second highHalf lowHalf value)

theorem skipString_append (spelled : SpellsChar c part) :
    skipString (part ++ cs) = skipString cs := by
  -- whatever the four digits stand for, so that either half is a step of its own
  have unit {n : Nat} {digits rest : List Char} (unit : IsUnit n digits) :
      skipString ('\\' :: 'u' :: (digits ++ rest)) = skipString rest := by
    apply skipString_escaped
    rw [skipEscaped, fourHex_append unit]
    rfl
  cases spelled with
  | plain printable quote backslash =>
    rw [List.singleton_append, skipString, if_neg (by omega)]
    · exact quote
    · exact backslash
  | @short mark _ entry =>
    obtain ⟨notUnit, entry⟩ := shortEscapes_lookup entry
    apply skipString_escaped
    simp [skipEscaped, entry]
  | unit digits => exact unit digits
  | halves _ _ highHalf lowHalf _ =>
    rw [List.cons_append, List.cons_append, List.append_assoc, unit highHalf]
    exact unit lowHalf

/-! ### Strings -/

theorem stringBody_flatten {text : List Char} {parts : List (List Char)}
    (each : List.Forall₂ SpellsChar text parts) (rest : List Char) :
    stringBody (parts.flatten ++ '"' :: rest) = .ok (text, rest) := by
  induction each with
  | nil => rw [List.flatten_nil, List.nil_append, stringBody]
  | cons here _ ih =>
    rw [List.flatten_cons, List.append_assoc, stringBody_append here, ih]
    rfl

theorem skipString_flatten {text : List Char} {parts : List (List Char)}
    (each : List.Forall₂ SpellsChar text parts) (rest : List Char) :
    skipString (parts.flatten ++ '"' :: rest) = .ok rest := by
  induction each with
  | nil => rw [List.flatten_nil, List.nil_append, skipString]
  | cons here _ ih => rw [List.flatten_cons, List.append_assoc, skipString_append here, ih]

/-- What is behind the first quote of a spelled string. -/
theorem SpellsString.exists_body {s : String} {text : List Char} (spelled : SpellsString s text) :
    ∃ body, text = '"' :: body ∧ (∀ rest, stringBody (body ++ rest) = .ok (s.toList, rest)) ∧
      ∀ rest, skipString (body ++ rest) = .ok rest := by
  obtain ⟨parts, each, rfl⟩ := spelled
  refine ⟨parts.flatten ++ ['"'], rfl, fun rest => ?_, fun rest => ?_⟩ <;>
    rw [List.append_assoc, List.singleton_append]
  · exact stringBody_flatten each rest
  · exact skipString_flatten each rest

end PhraseGraph.Json

/-
  Scriptlet.Proofs.Lexing.Separators

  Where separators stand among the tokens of a text.

  A line break and a comment are both read as a separator, or as nothing where no token
  has come since the last one. So the tokens form lines, each with a token at least and
  one separator that closes it (`Lined`). That is so wherever the reading starts and stops
  (`Tiles.lined`), and a text of whole lines stops behind a separator, since the line break
  at its end stands in no token (`Tiles.fresh_of_lines`).
-/
import Scriptlet.Proofs.Lexing.Tiling

namespace Scriptlet

/-! ## Lines of lexemes -/

/-- Lexemes in lines. The flags tell, before and after them, whether the line holds no
    lexeme yet, and a separator closes a line that holds one. -/
inductive Lined : Bool → List Lexeme → Bool → Prop where
  | nil {fresh} : Lined fresh [] fresh
  | lexeme {fresh l ls f} (hl : l ≠ .separator) (h : Lined false ls f) : Lined fresh (l :: ls) f
  | separator {ls f} (h : Lined true ls f) : Lined false (.separator :: ls) f

namespace Lined

variable {fresh f : Bool} {ls : List Lexeme}

/-- On a fresh line no separator comes first. -/
theorem head?_ne (h : Lined true ls f) : ls.head? ≠ some .separator := by
  cases h with
  | nil => exact nofun
  | lexeme hl => exact fun hhead => hl (Option.some.inj hhead)

/-- No separator stands behind another one. -/
theorem not_infix (h : Lined fresh ls f) : ¬[.separator, .separator] <:+: ls := by
  induction h with
  | nil => simp
  | lexeme hl _ ih =>
    rw [List.infix_cons_iff, not_or]
    exact ⟨fun hfront => hl (List.cons_prefix_cons.mp hfront).1.symm, ih⟩
  | separator h ih =>
    rw [List.infix_cons_iff, not_or]
    -- Behind the separator the line is fresh.
    refine ⟨fun hfront => ?_, ih⟩
    obtain ⟨-, rest, rfl⟩ := List.cons_prefix_cons.mp hfront
    exact h.head?_ne rfl

/-- Lexemes that stop on a fresh line stop behind a separator. -/
theorem getLast?_eq (h : Lined fresh ls true) (hne : ls ≠ []) :
    ls.getLast? = some .separator := by
  generalize hf : true = f at h
  induction h with
  | nil => exact absurd rfl hne
  | @lexeme _ l ls _ _ h ih =>
    -- A lexeme leaves a line that is not fresh, so others follow it.
    have hrest : ls ≠ [] := by
      rintro rfl
      cases h
      cases hf
    rw [List.getLast?_cons, ih hrest hf, Option.getD_some]
  | @separator ls _ _ ih =>
    cases ls with
    | nil => rfl
    | cons l ls => rw [List.getLast?_cons, ih (List.cons_ne_nil l ls) hf, Option.getD_some]

end Lined

/-! ## The tokens of a text -/

/-- Only a line that holds a token is closed. -/
theorem Span.not_fresh {fresh : Bool} {l : Lexeme} {w s : Bytes} (h : Span fresh l w s)
    (hl : l = .separator) : fresh = false := by
  have hbeq : (l == .separator) = true := beq_iff_eq.mpr hl
  cases h with
  | newline | comment => rfl
  | punctuation hb => rw [mark_ne_separator hb] at hbeq; cases hbeq
  | word => rw [word_ne_separator] at hbeq; cases hbeq
  | number _ _ hnumber => rw [number_ne_separator hnumber] at hbeq; cases hbeq
  | string | operator => cases hl

/-- The tokens of a tiled text form lines. -/
theorem Tiles.lined {front u r : Bytes} {fresh f : Bool} {ts : List Token}
    (h : Tiles front fresh u ts r f) : Lined fresh (ts.map Token.lexeme) f := by
  induction h with
  | gap => exact .nil
  | @token _ fresh _ l _ _ ts _ f _ hw _ ih =>
    by_cases hl : l = .separator
    · -- A separator is read only on a line that holds a token.
      obtain rfl := hw.not_fresh hl
      subst hl
      exact .separator ih
    · rw [beq_false_of_ne hl] at ih
      exact .lexeme hl ih

/-- The tokens of a text that is split do not start with a separator, no separator stands
    behind another one, and if there are any tokens the last of them is a separator,
    whatever blank lines, comments and strings the text has. -/
theorem separators_normal {source : Bytes} {ts : List Token} (h : tokenize source = .ok ts) :
    (ts.map Token.lexeme).head? ≠ some .separator ∧
    ¬[.separator, .separator] <:+: ts.map Token.lexeme ∧
    (ts ≠ [] → (ts.map Token.lexeme).getLast? = some .separator) := by
  have hlined := (tiles_of_tokenize h).lined
  refine ⟨hlined.head?_ne, hlined.not_infix, fun hne => hlined.getLast?_eq ?_⟩
  rwa [ne_eq, List.map_eq_nil_iff]

/-- A text with a blank line, a comment on a line of its own and one behind a name, a string
    of several lines, and a comment at its end in place of a line break. -/
theorem separators_normal_comments :
    let source := text "\n# a\nx # b\n\n\"p\n#\n\nq\" # c"
    ∃ ts, tokenize source = .ok ts ∧
      ts.map Token.lexeme =
        [.identifier (text "x"), .separator, .string (text "p\n#\n\nq"), .separator] ∧
      (ts.map Token.lexeme).head? ≠ some .separator ∧
      ¬[.separator, .separator] <:+: ts.map Token.lexeme ∧
      (ts ≠ [] → (ts.map Token.lexeme).getLast? = some .separator) := by
  intro source
  have hread : (tokenize source).toOption.map (List.map Token.lexeme) =
      some [.identifier (text "x"), .separator, .string (text "p\n#\n\nq"), .separator] := by
    decide +kernel
  cases hok : tokenize source with
  | error f =>
    rw [hok] at hread
    cases hread
  | ok ts =>
    rw [hok] at hread
    exact ⟨ts, rfl, Option.some.inj hread, separators_normal hok⟩

end Scriptlet

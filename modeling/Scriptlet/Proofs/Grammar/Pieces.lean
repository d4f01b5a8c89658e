/-
  Scriptlet.Proofs.Grammar.Pieces

  Texts that are cut at a line end. The lexemes of the whole are those of the
  first piece and then those of the second (`Lexes.append_line`), and its
  program has the statements of the first piece and then those of the second
  (`parse_append`).

  Reading could only go wrong at the cut. A word, a number or an operator does
  not reach over a line break, so no run of bytes goes on in the second piece.
  The parser looks at most one lexeme beyond what it takes, and it takes every
  statement of the first piece with a separator behind it, so no expression
  goes on there either.
-/
import Scriptlet.Proofs.Lexing
import Scriptlet.Proofs.Grammar.Complete

namespace Scriptlet

/-! ## Lexemes -/

/-- A text stands at a line's end or start: it ends with a line break, or
    nothing of it is left and no lexeme has come since the last separator. -/
def EndsLine (s : Bytes) (fresh : Bool) : Prop :=
  s.getLast? = some 10 ∨ s = [] ∧ fresh = true

/-- A text that ends a line still does without a front that does not. -/
theorem EndsLine.getLast?_of_append {w s : Bytes} {fresh : Bool} (h : EndsLine (w ++ s) fresh)
    (hne : w ≠ []) (hw : 10 ∉ w.getLast?) : s.getLast? = some 10 := by
  rcases h with h | ⟨hnil, -⟩
  · rw [List.getLast?_append] at h
    cases hs : s.getLast? with
    | none => exact absurd (by simpa [hs] using h) hw
    | some b => simpa [hs] using h
  · exact absurd (List.append_eq_nil_iff.mp hnil).1 hne

theorem EndsLine.of_newline {s : Bytes} {fresh : Bool} (h : EndsLine (10 :: s) fresh) :
    EndsLine s true := by
  rcases h with h | ⟨hnil, -⟩
  · cases s with
    | nil => exact .inr ⟨rfl, rfl⟩
    | cons b s => exact .inl (by rwa [List.getLast?_cons_cons] at h)
  · cases hnil

/-- Bytes of a class without the line break do not end a line. -/
theorem not_mem_getLast? {p : UInt8 → Bool} {w : Bytes} (hw : ∀ b ∈ w, p b = true)
    (hp : p 10 = false) : 10 ∉ w.getLast? := by
  intro h
  have h10 := hw 10 (List.mem_of_getLast? h)
  rw [hp] at h10
  exact Bool.noConfusion h10

/-- A run that ends before a line break ends there whatever follows. -/
theorem Stops.append {p : UInt8 → Bool} {s t : Bytes} (h : Stops p s)
    (hline : s.getLast? = some 10) : Stops p (s ++ t) := by
  cases s with
  | nil => simp at hline
  | cons b s => exact stops_cons.mpr (stops_cons.mp h)

/-- The comment at the end of a text that ends a line has its line break. -/
theorem EndsLine.comment {c s' s : Bytes} {fresh : Bool} (h : EndsLine (35 :: (c ++ s')) fresh)
    (hc : 10 ∉ c) (hs : s' = 10 :: s ∨ s' = [] ∧ s = []) : s' = 10 :: s ∧ EndsLine s true := by
  have hline : s'.getLast? = some 10 := by
    -- The comment holds no line break, so the text ends with one behind it.
    refine EndsLine.getLast?_of_append (w := 35 :: c) h (by simp) fun hmem => ?_
    rcases List.mem_cons.mp (List.mem_of_getLast? hmem) with h10 | hmem
    · exact absurd h10 (by decide)
    · exact hc hmem
  rcases hs with rfl | ⟨rfl, -⟩
  · have hrest : EndsLine (10 :: s) fresh := .inl hline
    exact ⟨rfl, hrest.of_newline⟩
  · simp at hline

/-- The lexemes of a text that ends a line stay the same when another text
    follows, and that text starts afresh. -/
theorem Lexes.append_line {s t : Bytes} {fresh f : Bool} {ls : List Lexeme}
    (h : Lexes s fresh ls [] f) (hs : EndsLine s fresh) : Lexes (s ++ t) fresh ls t true := by
  generalize hr : [] = r at h
  induction h with
  | stop =>
    subst hr
    rcases hs with hs | ⟨-, rfl⟩
    · simp at hs
    · exact .stop
  | @blank b s fresh ls r f hb h ih =>
    have hline := EndsLine.getLast?_of_append (w := [b]) hs (by simp)
      (not_mem_getLast? (by simpa using hb) (by decide))
    exact .blank hb (ih (.inl hline) hr)
  | emptyLine _ ih => exact .emptyLine (ih hs.of_newline hr)
  | emptyComment hc hs' _ ih =>
    obtain ⟨rfl, hline⟩ := hs.comment hc hs'
    rw [List.cons_append, List.append_assoc]
    exact .emptyComment hc (.inl rfl) (ih hline hr)
  | newline _ ih => exact .newline (ih hs.of_newline hr)
  | comment hc hs' _ ih =>
    obtain ⟨rfl, hline⟩ := hs.comment hc hs'
    rw [List.cons_append, List.append_assoc]
    exact .comment hc (.inl rfl) (ih hline hr)
  | @string c s fresh ls r f hc h ih =>
    have hline := EndsLine.getLast?_of_append (w := 34 :: c ++ [34]) (s := s) (by simpa using hs)
      (by simp) (by rw [List.getLast?_concat]; decide)
    rw [List.cons_append, List.append_assoc]
    exact .string hc (ih (.inl hline) hr)
  | @punctuation b s fresh ls r f hb h ih =>
    have hline := EndsLine.getLast?_of_append (w := [b]) hs (by simp)
      (not_mem_getLast? (by simpa using hb) (by decide))
    exact .punctuation hb (ih (.inl hline) hr)
  -- A run of bytes ends before the line break of the first piece, so the second piece
  -- does not lengthen it.
  | @word w s fresh ls r f hw hstops h ih =>
    have hline := hs.getLast?_of_append (by rintro rfl; cases hw)
      (not_mem_getLast? (isIdentifierPart_of_mem hw) (by decide))
    rw [List.append_assoc]
    exact .word hw (hstops.append hline) (ih (.inl hline) hr)
  | @number b n l s fresh ls r f hb hn hl hstops h ih =>
    have hline := hs.getLast?_of_append (by simp) (not_mem_getLast? (p := Byte.isNumberPart)
      (by simpa [Byte.isNumberPart, hb] using hn) (by decide))
    rw [List.append_assoc]
    exact .number hb hn hl (hstops.append hline) (ih (.inl hline) hr)
  | operator hne ho hstops _ ih =>
    have hline := hs.getLast?_of_append hne (not_mem_getLast? ho (by decide))
    rw [List.append_assoc]
    exact .operator hne ho (hstops.append hline) (ih (.inl hline) hr)

/-- Behind the last separator no lexeme has come, so the lexemes up to there
    end with it. -/
theorem Lexes.getLast?_of_fresh {s r : Bytes} {fresh f : Bool} {ls : List Lexeme}
    (h : Lexes s fresh ls r f) (hf : f = true) :
    ls.getLast? = some .separator ∨ ls = [] ∧ fresh = true := by
  induction h with
  | stop => exact .inr ⟨rfl, hf⟩
  | blank _ _ ih | emptyLine _ ih | emptyComment _ _ _ ih => exact ih hf
  | newline _ ih | comment _ _ _ ih =>
    left
    rcases ih hf with hlast | ⟨rfl, -⟩
    · rw [List.getLast?_cons, hlast, Option.getD_some]
    · rfl
  -- A lexeme that is no separator leaves a line that is not fresh.
  | string _ _ ih | punctuation _ _ ih | word _ _ _ ih | number _ _ _ _ _ ih
  | operator _ _ _ _ ih =>
    left
    rcases ih hf with hlast | ⟨-, hfresh⟩
    · rw [List.getLast?_cons, hlast, Option.getD_some]
    · cases hfresh

/-! ## Derivations -/

section Append

variable {s r t : List Lexeme}

theorem ne_nil_of_suffix (h : r <:+ s) (hr : r ≠ []) : s ≠ [] := by
  rintro rfl
  exact hr (List.suffix_nil.mp h)

theorem Climbed.append {level : Nat} (h : Climbed level s) (hs : s ≠ []) :
    Climbed level (s ++ t) := by
  cases s with
  | nil => exact absurd rfl hs
  | cons l s => cases l <;> exact h

/-- What is read in front of something is read in front of it whatever follows
    there. -/
theorem Derives.append {g : Goal} {v : g.Result} (h : Derives g s v r) (hr : r ≠ []) :
    Derives g (s ++ t) v (r ++ t) := by
  -- Every rest inside the derivation ends with `r`, so it is not empty and its
  -- first lexeme, the one the parser looks at, stays the same.
  induction h with
  | ident => exact .ident
  | str => exact .str
  | int => exact .int
  | float => exact .float
  | bool hw => exact .bool hw
  | unary hop _ ihx => exact .unary hop (ihx hr)
  | group hm hm' _ ihx => exact .group hm hm' (ihx (List.cons_ne_nil _ _))
  | branch hw hc hb ht ihc ihb iht =>
    have h₂ := ne_nil_of_suffix ht.suffix hr
    have h₁ := ne_nil_of_suffix hb.suffix h₂
    exact .branch hw (ihc h₁) (ihb h₂) (iht hr)
  | loop hw hc hb ihc ihb => exact .loop hw (ihc (ne_nil_of_suffix hb.suffix hr)) (ihb hr)
  | ret hw _ ihx => exact .ret hw (ihx hr)
  | func hw hm hm' _ hdistinct _ ihps ihb =>
    exact .func hw hm hm' (ihps (List.cons_ne_nil _ _)) hdistinct (ihb hr)
  | atom _ hc iho ihc => exact .atom (iho (ne_nil_of_suffix hc.suffix hr)) (ihc hr)
  | uncalled h => exact .uncalled (by rwa [List.head?_append_of_ne_nil _ hr])
  | call hm hm' _ _ ihas ihc => exact .call hm hm' (ihas (List.cons_ne_nil _ _)) (ihc hr)
  | expression _ hc iha ihc => exact .expression (iha (ne_nil_of_suffix hc.suffix hr)) (ihc hr)
  | climbed h => exact .climbed (h.append hr)
  | climb hp _ hx hz ihy ihx ihz =>
    have h₂ := ne_nil_of_suffix hz.suffix hr
    have h₁ := ne_nil_of_suffix hx.suffix h₂
    exact .climb hp (ihy h₁) (ihx h₂) (ihz hr)
  | noArguments hm => exact .noArguments hm
  | firstArgument _ hxs ihx ihxs =>
    exact .firstArgument (ihx (ne_nil_of_suffix hxs.suffix hr)) (ihxs hr)
  | lastComma hm hm' => exact .lastComma hm hm'
  | nextArgument hm _ hxs ihx ihxs =>
    exact .nextArgument hm (ihx (ne_nil_of_suffix hxs.suffix hr)) (ihxs hr)
  | noParameters hm => exact .noParameters hm
  | firstParameter _ ihs => exact .firstParameter (ihs hr)
  | lastParameterComma hm hm' => exact .lastParameterComma hm hm'
  | nextParameter hm _ ihs => exact .nextParameter hm (ihs hr)
  | block hm _ ihs => exact .block hm (ihs hr)
  | inline _ h ihx => exact .inline (ihx hr) (by rwa [List.head?_append_of_ne_nil _ hr])
  | inlineEnd hw _ ihx => exact .inlineEnd hw (ihx (List.cons_ne_nil _ _))
  | blockEnd hw => exact .blockEnd hw
  | blockTurn hw => exact .blockTurn hw
  | statement hm _ _ ihx ihxs => exact .statement hm (ihx (List.cons_ne_nil _ _)) (ihxs hr)
  | elif hw hc hb ht ihc ihb iht =>
    have h₂ := ne_nil_of_suffix ht.suffix hr
    have h₁ := ne_nil_of_suffix hb.suffix h₂
    exact .elif hw (ihc h₁) (ihb h₂) (iht hr)
  | «else» hw _ ihb => exact .else hw (ihb hr)
  | noTail helif helse =>
    rw [← List.head?_append_of_ne_nil _ hr] at helif helse
    exact .noTail helif helse
  | finished | lastStatement => exact absurd rfl hr
  | line hm _ _ ihx ihxs => exact .line hm (ihx (List.cons_ne_nil _ _)) (ihxs hr)

end Append

/-! ### The last separator -/

/-- The last lexeme is no separator. -/
def Unseparated (s : List Lexeme) : Prop := s.getLast? ≠ some .separator

namespace Unseparated

variable {s r : List Lexeme} {l : Lexeme}

theorem nil : Unseparated [] := nofun

theorem cons (hl : l ≠ .separator) (h : Unseparated s) : Unseparated (l :: s) := by
  cases s with
  | nil => simpa [Unseparated] using hl
  | cons l' s => rwa [Unseparated, List.getLast?_cons_cons]

/-- The last lexeme is that of what is left, unless nothing is left. -/
theorem of_suffix (hsuffix : r <:+ s) (hr : Unseparated r) (hnil : r = [] → Unseparated s) :
    Unseparated s := by
  by_cases h : r = []
  · exact hnil h
  · obtain ⟨w, rfl⟩ := hsuffix
    rwa [Unseparated, List.getLast?_append_of_ne_nil _ h]

theorem of_suffix_cons (hsuffix : l :: r <:+ s) (hl : l ≠ .separator) (hr : Unseparated r) :
    Unseparated s :=
  of_suffix hsuffix (cons hl hr) nofun

end Unseparated

theorem punctuation_ne_separator {m : Bytes} (hm : m = text ")" ∨ m = text ",") :
    Lexeme.punctuation m ≠ .separator := by
  rcases hm with rfl | rfl <;> decide

/-- Only a program can take a separator as its last lexeme. -/
theorem Derives.unseparated {g : Goal} {s r : List Lexeme} {v : g.Result} (h : Derives g s v r)
    (hg : g ≠ .program) (hr : r = []) : Unseparated s := by
  -- The last lexeme of `s` is that of the last part which is not empty.
  induction h with
  | ident | str | int | float | bool | blockEnd => subst hr; exact .cons nofun .nil
  | unary _ _ ihx | ret _ _ ihx | «else» _ _ ihx | firstParameter _ ihx =>
    exact .cons nofun (ihx nofun hr)
  -- The closing parenthesis is the last lexeme.
  | group hm hm' hx =>
    subst hr
    have hclosing := punctuation_ne_separator (.inl hm')
    exact .of_suffix_cons (hx.suffix.trans (List.suffix_cons _ _)) hclosing .nil
  | branch _ hc hb ht ihc ihb iht | elif _ hc hb ht ihc ihb iht =>
    have h₂ := iht nofun hr
    have h₁ : Unseparated _ := .of_suffix hb.suffix h₂ fun hnil => ihb nofun hnil
    exact .cons nofun (.of_suffix hc.suffix h₁ fun hnil => ihc nofun hnil)
  | loop _ hc hb ihc ihb =>
    exact .cons nofun (.of_suffix hc.suffix (ihb nofun hr) fun hnil => ihc nofun hnil)
  | func _ _ hm' hps _ _ _ ihb =>
    have hclosing := punctuation_ne_separator (.inl hm')
    exact .of_suffix_cons (hps.suffix.trans (List.suffix_append [_, _, _] _)) hclosing
      (ihb nofun hr)
  | atom ho _ iho ihc | expression ho _ iho ihc | firstArgument ho _ iho ihc =>
    exact .of_suffix ho.suffix (ihc nofun hr) fun hnil => iho nofun hnil
  | uncalled | climbed | noTail => subst hr; exact .nil
  | call _ hm' has _ _ ihc =>
    have hclosing := punctuation_ne_separator (.inl hm')
    exact .of_suffix_cons (has.suffix.trans (List.suffix_cons _ _)) hclosing (ihc nofun hr)
  | climb _ hy hx _ ihy ihx ihz =>
    have h₂ := ihz nofun hr
    have h₁ : Unseparated _ := .of_suffix hx.suffix h₂ fun hnil => ihx nofun hnil
    exact .cons nofun (.of_suffix hy.suffix h₁ fun hnil => ihy nofun hnil)
  | noArguments | lastComma | noParameters | lastParameterComma | blockTurn => cases hr
  | nextArgument hm hx _ ihx ihxs =>
    have hcomma := punctuation_ne_separator (.inr hm)
    exact .cons hcomma (.of_suffix hx.suffix (ihxs nofun hr) fun hnil => ihx nofun hnil)
  | nextParameter hm _ ihs =>
    have hcomma := punctuation_ne_separator (.inr hm)
    exact .cons hcomma (.cons nofun (ihs nofun hr))
  -- A separator stands here, but statements need an `end` behind it.
  | block _ hs ihs =>
    refine .of_suffix (List.suffix_cons _ _) (ihs nofun hr) fun hnil => ?_
    subst hnil
    exact absurd hs not_derives_statements_nil
  | inline _ _ ihx => exact ihx nofun hr
  | inlineEnd _ hx =>
    subst hr
    exact .of_suffix_cons hx.suffix nofun .nil
  | statement _ hx hxs _ ihxs =>
    refine .of_suffix ((List.suffix_cons _ _).trans hx.suffix) (ihxs nofun hr) fun hnil => ?_
    subst hnil
    exact absurd hxs not_derives_statements_nil
  | finished | lastStatement | line => exact absurd rfl hg

/-! ## Programs -/

/-- The statements of two pieces stand one after the other if the first piece
    is closed by a separator. -/
theorem Derives.program_append {s t : List Lexeme} {xs ys : List Node}
    (h : Derives .program s xs []) (hs : s.getLast? = some .separator ∨ s = [])
    (h' : Derives .program t ys []) : Derives .program (s ++ t) (xs ++ ys) [] := by
  -- The induction is on the lexemes, since a statement is more than one of them.
  induction hn : s.length using Nat.strong_induction_on generalizing s xs with
  | _ n ih =>
    cases h with
    | finished => exact h'
    | lastStatement hx =>
      rcases hs with hs | rfl
      -- A last statement would have taken the separator behind it.
      · exact absurd hs (hx.unseparated nofun rfl)
      · exact absurd hx not_derives_expression_nil
    | @line m _ x s₁ xs _ hm hx hxs =>
      have hlen := hx.length_add_least_le
      simp only [List.length_cons] at hlen
      have hs₁ : s₁.getLast? = some .separator ∨ s₁ = [] := by
        by_cases hnil : s₁ = []
        · exact .inr hnil
        · obtain ⟨w, rfl⟩ := (List.suffix_cons _ _).trans hx.suffix
          rw [List.getLast?_append_of_ne_nil _ hnil] at hs
          exact .inl (hs.resolve_right (by simp [hnil]))
      exact .line hm (hx.append (List.cons_ne_nil _ _)) (ih _ (by omega) hxs hs₁ rfl)

theorem completed_of_line {a : Bytes} (ha : a.getLast? = some 10) : completed a = a := by
  simp [completed, ha]

theorem completed_append (a : Bytes) {b : Bytes} (hb : b ≠ []) :
    completed (a ++ b) = a ++ completed b := by
  unfold completed
  rw [List.getLast?_append_of_ne_nil _ hb]
  split
  · rfl
  · rw [List.append_assoc]

theorem parse_nil : parse [] = .ok ⟨[]⟩ := by
  have hlexes : Lexes (completed []) true [] [] true := .emptyLine .stop
  obtain ⟨ts, hts, hlexemes⟩ := exists_tokenize_iff.mpr ⟨true, hlexes⟩
  refine parse_of_derives hts ?_
  rw [hlexemes]
  exact .finished

/-- A text cut at a line end has the statements of the first piece and then
    those of the second. -/
theorem parse_append {a b : Bytes} {p q : Program} (hline : a.getLast? = some 10)
    (ha : parse a = .ok p) (hb : parse b = .ok q) :
    parse (a ++ b) = .ok ⟨p.statements ++ q.statements⟩ := by
  -- An empty text is completed to a line break of its own, which `a ++ b` lacks.
  by_cases hnil : b = []
  · subst hnil
    rw [parse_nil] at hb
    cases hb
    rw [List.append_nil, List.append_nil, ha]
  · obtain ⟨us, hus, hp⟩ := parse_derives ha
    obtain ⟨vs, hvs, hq⟩ := parse_derives hb
    obtain ⟨_, hlexa⟩ := exists_tokenize_iff.mp ⟨us, hus, rfl⟩
    obtain ⟨_, hlexb⟩ := exists_tokenize_iff.mp ⟨vs, hvs, rfl⟩
    rw [completed_of_line hline] at hlexa
    -- `a` is lexed up to its end, where `b` starts as at the start of a text.
    have hfront : Lexes (a ++ completed b) true (us.map Token.lexeme) (completed b) true :=
      hlexa.append_line (.inl hline)
    have hwhole := hfront.trans hlexb
    rw [← completed_append a hnil] at hwhole
    obtain ⟨ts, hts, hlexemes⟩ := exists_tokenize_iff.mpr ⟨_, hwhole⟩
    refine parse_of_derives hts ?_
    rw [hlexemes]
    have hclosed := hfront.getLast?_of_fresh rfl
    exact hp.program_append (hclosed.imp_right And.left) hq

end Scriptlet

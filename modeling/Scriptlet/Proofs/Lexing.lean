/-
  Scriptlet.Proofs.Lexing

  Splitting a text into lexemes as a relation: `Lexes s fresh ls r after` says
  that reading `s` gives the lexemes `ls` and stands before `r`, where `fresh`
  and `after` tell whether no lexeme has come since the last separator.

  Every rule names the text it takes and the rest behind it. A rest is always
  the real one, so readings compose (`Lexes.trans`) without cutting a word, a
  number or an operator in two. `exists_tokens_iff_lexes` proves that the relation
  is what the reader of tokens does, at any position in a text.
-/
import Scriptlet.Proofs.Grammar.Sound
import Mathlib.Data.List.TakeWhile

namespace Scriptlet

/-! ## Runs and quotes -/

/-- A run of bytes that satisfy `p` ends before `s`. -/
def Stops (p : UInt8 → Bool) (s : Bytes) : Prop := ∀ b ∈ s.head?, p b = false

/-- Whether a text can stand between quotes: a quote stands only directly
    behind a backslash, and the last byte is no backslash. `escaped` tells
    whether a backslash stands in front of the text. -/
def isQuotable (escaped : Bool) : Bytes → Bool
  | [] => !escaped
  | b :: bs => (b != 34 || escaped) && isQuotable (b == 92) bs

/-- The end of the text stops every run. -/
theorem stops_nil (p : UInt8 → Bool) : Stops p [] := nofun

/-- Any other text stops a run by its first byte. -/
theorem stops_cons {p : UInt8 → Bool} {b : UInt8} {s : Bytes} : Stops p (b :: s) ↔ p b = false := by
  simp [Stops]

/-- A run taken from a text is the one that stops there. -/
theorem takeWhile_append_of_stops {p : UInt8 → Bool} {w s : Bytes} (hw : ∀ b ∈ w, p b = true)
    (hs : Stops p s) : (w ++ s).takeWhile p = w := by
  rw [List.takeWhile_append_of_pos hw]
  cases s with
  | nil => simp
  | cons b s => rw [List.takeWhile_cons_of_neg (by simp [stops_cons.mp hs]), List.append_nil]

/-- Behind a run that was taken to its end the text stops it. -/
theorem stops_drop_takeWhile (p : UInt8 → Bool) (s : Bytes) :
    Stops p (s.drop (s.takeWhile p).length) := by
  induction s with
  | nil => exact stops_nil p
  | cons b s ih =>
    by_cases hb : p b = true
    · rw [List.takeWhile_cons_of_pos hb]
      exact ih
    · rw [List.takeWhile_cons_of_neg hb]
      exact stops_cons.mpr (by simpa using hb)

/-- The contents of a string are what can be quoted up to a closing quote. -/
theorem contents?_eq_some_iff {escaped : Bool} {s c : Bytes} :
    Cursor.contents? escaped s = some c ↔
      isQuotable escaped c = true ∧ ∃ rest, s = c ++ 34 :: rest := by
  induction s generalizing escaped c with
  | nil => simp [Cursor.contents?]
  | cons b s ih =>
    rw [Cursor.contents?]
    split
    · rename_i hb
      -- A quote that no backslash escapes ends the contents.
      obtain ⟨rfl, rfl⟩ : b = 34 ∧ escaped = false := by simpa using hb
      constructor
      · intro h
        cases h
        exact ⟨rfl, s, rfl⟩
      · rintro ⟨hq, rest, heq⟩
        cases c with
        | nil => rfl
        | cons x c =>
          obtain ⟨rfl, -⟩ := List.cons.inj heq
          simp [isQuotable] at hq
    · rename_i hb
      -- Any other byte belongs to them.
      rw [Option.map_eq_some_iff]
      constructor
      · rintro ⟨c', hc', rfl⟩
        obtain ⟨hq, rest, rfl⟩ := ih.mp hc'
        refine ⟨?_, rest, rfl⟩
        rw [isQuotable, hq, Bool.and_true]
        cases escaped <;> simp_all
      · rintro ⟨hq, rest, heq⟩
        cases c with
        | nil =>
          obtain ⟨rfl, -⟩ := List.cons.inj heq
          cases escaped <;> simp_all [isQuotable]
        | cons x c =>
          obtain ⟨rfl, rfl⟩ := List.cons.inj heq
          rw [isQuotable, Bool.and_eq_true] at hq
          exact ⟨c, ih.mpr ⟨hq.2, rest, rfl⟩, rfl⟩

/-! ## Classes of bytes -/

namespace Byte

/-- Properties of bytes are tested on all of them. -/
theorem forall_of_all {p : UInt8 → Bool}
    (h : (List.range 256).all (fun n => p (UInt8.ofNat n)) = true) (b : UInt8) : p b = true := by
  have := List.all_eq_true.mp h b.toNat (List.mem_range.mpr b.toNat_lt)
  rwa [UInt8.ofNat_toNat] at this

/-- Whether a byte starts a token on its line, neither a gap nor the end of the
    line. -/
def isSolid (b : UInt8) : Bool := !isBlank b && b != 35 && b != 10

/-- A byte of a class is none of the bytes outside of it. -/
theorem not_mem_of_all {p : UInt8 → Bool} {bs : Bytes} (hbs : (bs.all fun b => !p b) = true)
    {b : UInt8} (h : p b = true) : b ∉ bs := by
  intro hmem
  have hout := List.all_eq_true.mp hbs b hmem
  rw [h] at hout
  cases hout

/-- Neither a gap, nor a line end, nor a quote. -/
theorem solid_of_not_mem {b : UInt8} (h : b ∉ [32, 9, 13, 11, 12, 35, 10, 34]) :
    isSolid b = true ∧ b ≠ 34 := by
  simp only [List.mem_cons, List.not_mem_nil, or_false, not_or] at h
  simp [isSolid, isBlank, h]

/-- What is none of the marks is no punctuation. -/
theorem isPunctuation_eq_false {b : UInt8} (h : b ∉ text "\x7b\x7d()[].,:;") :
    isPunctuation b = false := by
  rw [← Bool.not_eq_true, isPunctuation, List.contains_iff_mem]
  exact h

theorem solid_of_punctuation {b : UInt8} (h : isPunctuation b = true) :
    isSolid b = true ∧ b ≠ 34 :=
  solid_of_not_mem (not_mem_of_all (by decide) h)

/-- The classes are disjoint: what starts a name is none of what is looked for before. -/
theorem solid_of_identifierStart {b : UInt8} (h : isIdentifierStart b = true) :
    isSolid b = true ∧ b ≠ 34 ∧ isPunctuation b = false := by
  obtain ⟨hsolid, hquote⟩ := solid_of_not_mem (not_mem_of_all (by decide) h)
  exact ⟨hsolid, hquote, isPunctuation_eq_false (not_mem_of_all (by decide) h)⟩

/-- No name starts with a digit. -/
theorem not_identifierStart_of_digit {b : UInt8} (h : Bytes.isDigit b = true) :
    isIdentifierStart b = false := by
  simp only [Bytes.isDigit, isIdentifierStart, Bool.and_eq_true, Bool.or_eq_false_iff,
    Bool.and_eq_false_iff, decide_eq_true_eq, decide_eq_false_iff_not, UInt8.le_iff_toNat_le,
    beq_eq_false_iff_ne, ne_eq, ← UInt8.toNat_inj] at h ⊢
  -- The digits lie in front of the letters and the underscore.
  simp at h ⊢
  omega

theorem solid_of_digit {b : UInt8} (h : Bytes.isDigit b = true) :
    isSolid b = true ∧ b ≠ 34 ∧ isPunctuation b = false ∧ isIdentifierStart b = false := by
  obtain ⟨hsolid, hquote⟩ := solid_of_not_mem (not_mem_of_all (by decide) h)
  exact ⟨hsolid, hquote, isPunctuation_eq_false (not_mem_of_all (by decide) h),
    not_identifierStart_of_digit h⟩

theorem solid_of_operator {b : UInt8} (h : isOperator b = true) :
    isSolid b = true ∧ b ≠ 34 ∧ isPunctuation b = false ∧ isIdentifierStart b = false ∧
      isNumberPart b = false := by
  have hall : ((text "+-*/%<>=!&|^~").all fun b => isSolid b && b != 34 && !isPunctuation b &&
      !isIdentifierStart b && !isNumberPart b) = true := by decide
  have := List.all_eq_true.mp hall b (List.contains_iff_mem.mp h)
  simp only [Bool.and_eq_true, bne_iff_ne, Bool.not_eq_eq_eq_not, and_assoc] at this
  exact this

/-- A point is punctuation where a token starts, so a number starts with a
    digit. -/
theorem isDigit_of_numberPart {b : UInt8} (h : isNumberPart b = true)
    (hp : isPunctuation b = false) : Bytes.isDigit b = true := by
  rw [isNumberPart, Bool.or_eq_true] at h
  rcases h with hdigit | hpoint
  · exact hdigit
  · obtain rfl := eq_of_beq hpoint
    exact absurd hp (by decide)

end Byte

/-- A name is made of bytes of names. -/
theorem isIdentifierPart_of_mem {w : Bytes} (hw : isIdentifier w = true) :
    ∀ b ∈ w, Byte.isIdentifierPart b = true := by
  cases w with
  -- The empty text is no name.
  | nil => nofun
  | cons b w =>
    rw [isIdentifier, Bool.and_eq_true, List.all_eq_true] at hw
    intro d hd
    rcases List.mem_cons.mp hd with rfl | hd
    · simp [Byte.isIdentifierPart, hw.1]
    · exact hw.2 d hd

/-! ## The rules -/

/-- Reading `s` gives the lexemes and stands before the last text. The flags
    tell, before and after, whether no lexeme has come since the last
    separator. -/
inductive Lexes : Bytes → Bool → List Lexeme → Bytes → Bool → Prop where
  | stop {s fresh} : Lexes s fresh [] s fresh
  | blank {b s fresh ls r f} (hb : Byte.isBlank b = true) (h : Lexes s fresh ls r f) :
      Lexes (b :: s) fresh ls r f
  | emptyLine {s ls r f} (h : Lexes s true ls r f) : Lexes (10 :: s) true ls r f
  | emptyComment {c s' s ls r f} (hc : 10 ∉ c) (hs : s' = 10 :: s ∨ s' = [] ∧ s = [])
      (h : Lexes s true ls r f) : Lexes (35 :: (c ++ s')) true ls r f
  | newline {s ls r f} (h : Lexes s true ls r f) :
      Lexes (10 :: s) false (.separator :: ls) r f
  | comment {c s' s ls r f} (hc : 10 ∉ c) (hs : s' = 10 :: s ∨ s' = [] ∧ s = [])
      (h : Lexes s true ls r f) : Lexes (35 :: (c ++ s')) false (.separator :: ls) r f
  | string {c s fresh ls r f} (hc : isQuotable false c = true) (h : Lexes s false ls r f) :
      Lexes (34 :: (c ++ 34 :: s)) fresh (.string c :: ls) r f
  | punctuation {b s fresh ls r f} (hb : Byte.isPunctuation b = true)
      (h : Lexes s false ls r f) : Lexes (b :: s) fresh (.punctuation [b] :: ls) r f
  | word {w s fresh ls r f} (hw : isIdentifier w = true) (hs : Stops Byte.isIdentifierPart s)
      (h : Lexes s false ls r f) : Lexes (w ++ s) fresh (.word w :: ls) r f
  | number {b n l s fresh ls r f} (hb : Bytes.isDigit b = true)
      (hn : ∀ d ∈ n, Byte.isNumberPart d = true) (hl : Cursor.number (b :: n) = .ok l)
      (hs : Stops Byte.isNumberPart s) (h : Lexes s false ls r f) :
      Lexes (b :: n ++ s) fresh (l :: ls) r f
  | operator {o s fresh ls r f} (hne : o ≠ []) (ho : ∀ b ∈ o, Byte.isOperator b = true)
      (hs : Stops Byte.isOperator s) (h : Lexes s false ls r f) :
      Lexes (o ++ s) fresh (.operator o :: ls) r f

/-- Readings compose. -/
theorem Lexes.trans {s r t : Bytes} {f₁ f₂ f₃ : Bool} {ls ms : List Lexeme}
    (h : Lexes s f₁ ls r f₂) (h' : Lexes r f₂ ms t f₃) : Lexes s f₁ (ls ++ ms) t f₃ := by
  induction h with
  | stop => exact h'
  | blank hb _ ih => exact .blank hb (ih h')
  | emptyLine _ ih => exact .emptyLine (ih h')
  | emptyComment hc hs _ ih => exact .emptyComment hc hs (ih h')
  | newline _ ih => exact .newline (ih h')
  | comment hc hs _ ih => exact .comment hc hs (ih h')
  | string hc _ ih => exact .string hc (ih h')
  | punctuation hb _ ih => exact .punctuation hb (ih h')
  | word hw hs _ ih => exact .word hw hs (ih h')
  | number hb hn hl hs _ ih => exact .number hb hn hl hs (ih h')
  | operator hne ho hs _ ih => exact .operator hne ho hs (ih h')

/-! ## What the reader does -/

theorem Position.advance_append (p : Position) (s t : Bytes) :
    p.advance (s ++ t) = (p.advance s).advance t :=
  List.foldl_append

namespace Cursor

variable {s r : Bytes} {place : Position} {fresh : Bool}

/-- The tokens of `c` are those of the lexemes `ls` and then the tokens of
    `d`. -/
def Reaches (c : Cursor) (ls : List Lexeme) (d : Cursor) : Prop :=
  ∃ ts, c.tokens = (ts ++ d.tokens.1, d.tokens.2) ∧ ts.map Token.lexeme = ls

/-- A token that is read stands in front of those behind it. -/
theorem tokens_of_token {c after : Cursor} {t : Token} (h : c.read = .token t after) :
    c.tokens = (t :: after.tokens.1, after.tokens.2) := by
  rw [tokens]
  split <;> simp_all

/-- At the end there are no tokens. -/
theorem tokens_of_finished {c after : Cursor} (h : c.read = .finished after) :
    c.tokens = ([], none) := by
  rw [tokens]
  split <;> simp_all

/-- Reading starts by settling, so cursors that settle alike read alike. -/
theorem read_congr {c d : Cursor} (h : c.settle = d.settle) : c.read = d.read := by
  rw [read, read, h]

theorem tokens_congr {c d : Cursor} (h : c.settle = d.settle) : c.tokens = d.tokens := by
  -- Reading settles first, so only the settled cursor counts.
  have hread := read_congr h
  cases hd : d.read with
  | token t after => rw [tokens_of_token hd, tokens_of_token (hread.trans hd)]
  | finished after => rw [tokens_of_finished hd, tokens_of_finished (hread.trans hd)]
  -- A fault ends the tokens with the fault, without a lemma of its own.
  | fault problem p after =>
    have hc := hread.trans hd
    rw [tokens, tokens]
    split <;> split <;> simp_all

theorem Reaches.refl (c : Cursor) : c.Reaches [] c := ⟨[], rfl, rfl⟩

/-- A gap in front changes nothing. -/
theorem Reaches.of_settle {c d e : Cursor} {ls : List Lexeme} (h : c.settle = d.settle)
    (hd : d.Reaches ls e) : c.Reaches ls e := by
  obtain ⟨ts, hts, hls⟩ := hd
  exact ⟨ts, (tokens_congr h).trans hts, hls⟩

/-- A token that is read is the first lexeme. -/
theorem Reaches.of_read {c d e : Cursor} {t : Token} {ls : List Lexeme}
    (h : c.read = .token t d) (hd : d.Reaches ls e) : c.Reaches (t.lexeme :: ls) e := by
  obtain ⟨ts, hts, rfl⟩ := hd
  refine ⟨t :: ts, ?_, rfl⟩
  rw [tokens_of_token h, hts]
  rfl

/-! ### Gaps -/

/-- Skipping a text leaves what stands behind it. -/
theorem skip_append (w : Bytes) :
    (⟨w ++ s, place, fresh⟩ : Cursor).skip w.length = ⟨s, place.advance w, fresh⟩ := by
  simp [skip]

/-- Skipping a run leaves the text that stops it. -/
theorem skipWhile_append {p : UInt8 → Bool} {w : Bytes} (hw : ∀ b ∈ w, p b = true)
    (hs : Stops p s) :
    (⟨w ++ s, place, fresh⟩ : Cursor).skipWhile p = ⟨s, place.advance w, fresh⟩ := by
  rw [skipWhile, run, takeWhile_append_of_stops hw hs, skip_append]

theorem skipWhile_cons {p : UInt8 → Bool} {b : UInt8} (hb : p b = true) :
    (⟨b :: s, place, fresh⟩ : Cursor).skipWhile p =
      (⟨s, place.step b, fresh⟩ : Cursor).skipWhile p := by
  simp [skipWhile, run, skip, hb, Position.advance]

/-- A blank is skipped. -/
theorem settle_blank {b : UInt8} (hb : Byte.isBlank b = true) :
    (⟨b :: s, place, fresh⟩ : Cursor).settle = (⟨s, place.step b, fresh⟩ : Cursor).settle := by
  -- Both sides skip the same blanks from here.
  conv_lhs => rw [settle]
  conv_rhs => rw [settle]
  rw [skipWhile_cons hb]

/-- Where there is no blank none is skipped. -/
theorem skipWhile_blank {b : UInt8} (hb : Byte.isBlank b = false) :
    (⟨b :: s, place, fresh⟩ : Cursor).skipWhile Byte.isBlank = ⟨b :: s, place, fresh⟩ :=
  skipWhile_append (w := []) (by simp) (stops_cons.mpr hb)

/-- The end of a line without tokens is skipped. -/
theorem settle_newline :
    (⟨10 :: s, place, true⟩ : Cursor).settle = (⟨s, place.step 10, true⟩ : Cursor).settle := by
  have hskip : (⟨10 :: s, place, true⟩ : Cursor).skipWhile Byte.isBlank = _ :=
    skipWhile_blank (by decide)
  rw [settle]
  split
  · rename_i heq
    rw [hskip] at heq
    exact absurd (List.cons.inj heq).1 (by decide)
  · rw [hskip, if_pos rfl]
    rfl
  · rename_i hno
    exact absurd (by rw [hskip]) (hno s)

/-- A comment is skipped with its line break, if it has one. -/
theorem skipComment_eq (place : Position) (fresh : Bool) {c s' : Bytes} (hc : 10 ∉ c)
    (hs : s' = 10 :: s ∨ s' = [] ∧ s = []) :
    (⟨35 :: (c ++ s'), place, fresh⟩ : Cursor).skipComment =
      ⟨s, place.advance (35 :: (c ++ s'.take 1)), fresh⟩ := by
  -- The comment is skipped up to its line break, and then this one, if there is.
  have hline : ∀ b ∈ (35 :: c : Bytes), (b != 10) = true := by
    intro b hb
    rcases List.mem_cons.mp hb with rfl | hb
    · decide
    · exact bne_iff_ne.mpr (by rintro rfl; exact hc hb)
  have hstop : Stops (· != 10) s' := by
    rcases hs with rfl | ⟨rfl, _⟩
    · exact stops_cons.mpr (by decide)
    · exact stops_nil _
  have hskip : (⟨35 :: c ++ s', place, fresh⟩ : Cursor).skipWhile (· != 10) = _ :=
    skipWhile_append hline hstop
  rw [List.cons_append] at hskip
  have hplace : place.advance (35 :: (c ++ s'.take 1)) =
      (place.advance (35 :: c)).advance (s'.take 1) := by
    rw [← List.cons_append, Position.advance_append]
  rw [skipComment, hskip, hplace]
  rcases hs with rfl | ⟨rfl, rfl⟩ <;> rfl

/-- A comment on a line without tokens is skipped. -/
theorem settle_comment (place : Position) {c s' : Bytes} (hc : 10 ∉ c)
    (hs : s' = 10 :: s ∨ s' = [] ∧ s = []) :
    (⟨35 :: (c ++ s'), place, true⟩ : Cursor).settle =
      (⟨s, place.advance (35 :: (c ++ s'.take 1)), true⟩ : Cursor).settle := by
  have hskip : (⟨35 :: (c ++ s'), place, true⟩ : Cursor).skipWhile Byte.isBlank = _ :=
    skipWhile_blank (by decide)
  rw [settle]
  split
  · -- Of the three ways to settle only the one for comments applies.
    rw [hskip, if_pos rfl, skipComment_eq place true hc hs]
  · rename_i heq
    rw [hskip] at heq
    exact absurd (List.cons.inj heq).1 (by decide)
  · rename_i hno _
    exact absurd (by rw [hskip]) (hno (c ++ s'))

/-- A cursor before a token, or on a line that is not fresh before its end,
    stays where it is. -/
theorem settle_eq_self {b : UInt8} (hb : Byte.isBlank b = false)
    (hline : fresh = true → b ≠ 35 ∧ b ≠ 10) :
    (⟨b :: s, place, fresh⟩ : Cursor).settle = ⟨b :: s, place, fresh⟩ := by
  have hskip : (⟨b :: s, place, fresh⟩ : Cursor).skipWhile Byte.isBlank = _ := skipWhile_blank hb
  rw [settle]
  split
  · rename_i heq
    rw [hskip] at heq ⊢
    cases fresh with
    | false => rfl
    | true => exact absurd (List.cons.inj heq).1 (hline rfl).1
  · rename_i heq
    rw [hskip] at heq ⊢
    cases fresh with
    | false => rfl
    | true => exact absurd (List.cons.inj heq).1 (hline rfl).2
  · exact hskip

/-- Before a byte that starts a token the cursor is settled. -/
theorem settle_of_solid {b : UInt8} (hb : Byte.isSolid b = true) :
    (⟨b :: s, place, fresh⟩ : Cursor).settle = ⟨b :: s, place, fresh⟩ := by
  simp only [Byte.isSolid, Bool.and_eq_true, Bool.not_eq_eq_eq_not, Bool.not_true,
    bne_iff_ne] at hb
  exact settle_eq_self hb.1.1 fun _ => ⟨hb.1.2, hb.2⟩

/-- Such a byte ends no line. -/
theorem not_line_of_solid {b : UInt8} (hb : Byte.isSolid b = true) :
    (b == 35) = false ∧ (b == 10) = false := by
  simp only [Byte.isSolid, Bool.and_eq_true, bne_iff_ne] at hb
  exact ⟨beq_false_of_ne hb.1.2, beq_false_of_ne hb.2⟩

/-! ### Tokens -/

/-- The end of a line with tokens is a separator. -/
theorem read_newline : (⟨10 :: s, place, false⟩ : Cursor).read =
    .token ⟨.separator, ⟨place.line, place.column + 1⟩⟩ ⟨s, place.step 10, true⟩ := by
  rw [read, settle_eq_self (by decide) (by simp)]
  rfl

/-- So is a comment behind tokens. -/
theorem read_comment (place : Position) {c s' : Bytes} (hc : 10 ∉ c)
    (hs : s' = 10 :: s ∨ s' = [] ∧ s = []) :
    (⟨35 :: (c ++ s'), place, false⟩ : Cursor).read =
      .token ⟨.separator, ⟨place.line, place.column + 1⟩⟩
        ⟨s, place.advance (35 :: (c ++ s'.take 1)), true⟩ := by
  rw [read, settle_eq_self (by decide) (by simp)]
  simp only
  rw [skipComment_eq place false hc hs]
  rfl

/-- A string is its contents, and the closing quote is taken. -/
theorem read_string {c : Bytes} (hc : isQuotable false c = true) :
    (⟨34 :: (c ++ 34 :: s), place, fresh⟩ : Cursor).read =
      .token ⟨.string c, ⟨place.line, place.column + 1⟩⟩
        ⟨s, place.advance (34 :: (c ++ [34])), false⟩ := by
  have hcontents : contents? false (c ++ 34 :: s) = some c :=
    contents?_eq_some_iff.mpr ⟨hc, s, rfl⟩
  have hskip : (⟨34 :: (c ++ 34 :: s), place, fresh⟩ : Cursor).skip (c.length + 2) =
      ⟨s, place.advance (34 :: (c ++ [34])), fresh⟩ := by
    -- The contents with both quotes are skipped at once.
    have hwhole : (⟨34 :: (c ++ [34]) ++ s, place, fresh⟩ : Cursor).skip
        (34 :: (c ++ [34])).length = _ := skip_append _
    simpa using hwhole
  rw [read, settle_of_solid (by decide)]
  simp only [hcontents]
  rw [if_neg (by decide), if_neg (by decide), if_pos (by decide), hskip]
  rfl

/-- A mark is one byte. -/
theorem read_punctuation {b : UInt8} (hb : Byte.isPunctuation b = true) :
    (⟨b :: s, place, fresh⟩ : Cursor).read =
      .token ⟨.punctuation [b], ⟨place.line, place.column + 1⟩⟩ ⟨s, place.step b, false⟩ := by
  obtain ⟨hsolid, hquote⟩ := Byte.solid_of_punctuation hb
  obtain ⟨hcomment, hline⟩ := not_line_of_solid hsolid
  rw [read, settle_of_solid hsolid]
  simp only [hcomment, hline, beq_false_of_ne hquote, hb, Bool.false_eq_true, if_false, if_true]
  rfl

/-- A word is the whole run of bytes of names. -/
theorem read_word {w : Bytes} (hw : isIdentifier w = true) (hs : Stops Byte.isIdentifierPart s) :
    (⟨w ++ s, place, fresh⟩ : Cursor).read =
      .token ⟨.word w, ⟨place.line, place.column + 1⟩⟩ ⟨s, place.advance w, false⟩ := by
  cases w with
  | nil => simp [isIdentifier] at hw
  | cons b w =>
    -- The run of identifier bytes at the cursor is the word itself.
    have hparts := isIdentifierPart_of_mem hw
    rw [isIdentifier, Bool.and_eq_true, List.all_eq_true] at hw
    obtain ⟨hsolid, hquote, hmark⟩ := Byte.solid_of_identifierStart hw.1
    obtain ⟨hcomment, hline⟩ := not_line_of_solid hsolid
    have hrun : (⟨b :: (w ++ s), place, fresh⟩ : Cursor).run Byte.isIdentifierPart = b :: w :=
      takeWhile_append_of_stops hparts hs
    have hskip : (⟨b :: (w ++ s), place, fresh⟩ : Cursor).skipWhile Byte.isIdentifierPart = _ :=
      skipWhile_append hparts hs
    rw [List.cons_append, read, settle_of_solid hsolid]
    simp only [hcomment, hline, beq_false_of_ne hquote, hmark, hw.1, hrun, hskip,
      Bool.false_eq_true, if_false, if_true]
    rfl

/-- A run of digits and points is a number or a fault, by its text alone. -/
theorem read_digits {b : UInt8} {n : Bytes} (hb : Bytes.isDigit b = true)
    (hn : ∀ d ∈ n, Byte.isNumberPart d = true) (hs : Stops Byte.isNumberPart s) :
    (⟨b :: n ++ s, place, fresh⟩ : Cursor).read =
      match number (b :: n) with
      | .ok l => .token ⟨l, ⟨place.line, place.column + 1⟩⟩ ⟨s, place.advance (b :: n), false⟩
      | .error problem =>
        .fault problem ⟨place.line, place.column + 1⟩ ⟨s, place.advance (b :: n), fresh⟩ := by
  obtain ⟨hsolid, hquote, hmark, hword⟩ := Byte.solid_of_digit hb
  obtain ⟨hcomment, hline⟩ := not_line_of_solid hsolid
  have hstart : Byte.isNumberPart b = true := by simp [Byte.isNumberPart, hb]
  have hparts : ∀ d ∈ b :: n, Byte.isNumberPart d = true := by
    intro d hd
    rcases List.mem_cons.mp hd with rfl | hd
    · exact hstart
    · exact hn d hd
  -- The number is judged on the whole run, not byte by byte.
  have hrun : (⟨b :: (n ++ s), place, fresh⟩ : Cursor).run Byte.isNumberPart = b :: n :=
    takeWhile_append_of_stops hparts hs
  have hskip : (⟨b :: (n ++ s), place, fresh⟩ : Cursor).skipWhile Byte.isNumberPart = _ :=
    skipWhile_append hparts hs
  rw [List.cons_append, read, settle_of_solid hsolid]
  simp only [hcomment, hline, beq_false_of_ne hquote, hmark, hword, hstart, hrun, hskip,
    Bool.false_eq_true, if_false, if_true]
  rfl

/-- A number is the whole run of digits and points. -/
theorem read_number {b : UInt8} {n : Bytes} {l : Lexeme} (hb : Bytes.isDigit b = true)
    (hn : ∀ d ∈ n, Byte.isNumberPart d = true) (hl : number (b :: n) = .ok l)
    (hs : Stops Byte.isNumberPart s) :
    (⟨b :: n ++ s, place, fresh⟩ : Cursor).read =
      .token ⟨l, ⟨place.line, place.column + 1⟩⟩ ⟨s, place.advance (b :: n), false⟩ := by
  rw [read_digits hb hn hs, hl]

/-- An operator is the whole run of operator bytes. -/
theorem read_operator {o : Bytes} (hne : o ≠ []) (ho : ∀ b ∈ o, Byte.isOperator b = true)
    (hs : Stops Byte.isOperator s) :
    (⟨o ++ s, place, fresh⟩ : Cursor).read =
      .token ⟨.operator o, ⟨place.line, place.column + 1⟩⟩ ⟨s, place.advance o, false⟩ := by
  obtain ⟨b, o, rfl⟩ := List.exists_cons_of_ne_nil hne
  have hb := ho b List.mem_cons_self
  obtain ⟨hsolid, hquote, hmark, hword, hnumber⟩ := Byte.solid_of_operator hb
  obtain ⟨hcomment, hline⟩ := not_line_of_solid hsolid
  have hrun : (⟨b :: (o ++ s), place, fresh⟩ : Cursor).run Byte.isOperator = b :: o :=
    takeWhile_append_of_stops ho hs
  have hskip : (⟨b :: (o ++ s), place, fresh⟩ : Cursor).skipWhile Byte.isOperator = _ :=
    skipWhile_append ho hs
  rw [List.cons_append, read, settle_of_solid hsolid]
  simp only [hcomment, hline, beq_false_of_ne hquote, hmark, hword, hnumber, hb, hrun, hskip,
    Bool.false_eq_true, if_false, if_true]
  rfl

end Cursor

/-- Every reading is what the reader of tokens does, wherever the text
    stands. -/
theorem Lexes.reaches {s r : Bytes} {fresh f : Bool} {ls : List Lexeme}
    (h : Lexes s fresh ls r f) (place : Position) :
    ∃ place', (⟨s, place, fresh⟩ : Cursor).Reaches ls ⟨r, place', f⟩ := by
  induction h generalizing place with
  | stop => exact ⟨place, .refl _⟩
  | blank hb _ ih =>
    obtain ⟨place', h⟩ := ih (place.step _)
    exact ⟨place', h.of_settle (Cursor.settle_blank hb)⟩
  | emptyLine _ ih =>
    obtain ⟨place', h⟩ := ih (place.step 10)
    exact ⟨place', h.of_settle Cursor.settle_newline⟩
  | emptyComment hc hs _ ih =>
    obtain ⟨place', h⟩ := ih (place.advance _)
    exact ⟨place', h.of_settle (Cursor.settle_comment place hc hs)⟩
  | newline _ ih =>
    obtain ⟨place', h⟩ := ih (place.step 10)
    exact ⟨place', h.of_read Cursor.read_newline⟩
  | comment hc hs _ ih =>
    obtain ⟨place', h⟩ := ih (place.advance _)
    exact ⟨place', h.of_read (Cursor.read_comment place hc hs)⟩
  | string hc _ ih =>
    obtain ⟨place', h⟩ := ih (place.advance _)
    exact ⟨place', h.of_read (Cursor.read_string hc)⟩
  | punctuation hb _ ih =>
    obtain ⟨place', h⟩ := ih (place.step _)
    exact ⟨place', h.of_read (Cursor.read_punctuation hb)⟩
  | word hw hs _ ih =>
    obtain ⟨place', h⟩ := ih (place.advance _)
    exact ⟨place', h.of_read (Cursor.read_word hw hs)⟩
  | number hb hn hl hs _ ih =>
    obtain ⟨place', h⟩ := ih (place.advance _)
    exact ⟨place', h.of_read (Cursor.read_number hb hn hl hs)⟩
  | operator hne ho hs _ ih =>
    obtain ⟨place', h⟩ := ih (place.advance _)
    exact ⟨place', h.of_read (Cursor.read_operator hne ho hs)⟩

/-! ## The reader takes no other way -/

theorem Lexes.blanks {w s r : Bytes} {fresh f : Bool} {ls : List Lexeme}
    (hw : ∀ b ∈ w, Byte.isBlank b = true) (h : Lexes s fresh ls r f) :
    Lexes (w ++ s) fresh ls r f := by
  induction w with
  | nil => exact h
  | cons b w ih =>
    exact .blank (hw b List.mem_cons_self) (ih fun d hd => hw d (List.mem_cons_of_mem _ hd))

/-- A comment reaches up to the end of its line, or of the text. -/
theorem exists_comment (s : Bytes) : ∃ c s' rest, s = c ++ s' ∧ 10 ∉ c ∧
    (s' = 10 :: rest ∨ s' = [] ∧ rest = []) := by
  induction s with
  | nil => exact ⟨[], [], [], rfl, by simp, .inr ⟨rfl, rfl⟩⟩
  | cons b s ih =>
    by_cases hb : b = 10
    · exact ⟨[], b :: s, s, rfl, by simp, .inl (by rw [hb])⟩
    · obtain ⟨c, s', rest, rfl, hc, hs⟩ := ih
      exact ⟨b :: c, s', rest, rfl, by simp [hc, Ne.symm hb], hs⟩

namespace Cursor

/-- A run and what stands behind it make up the rest. -/
theorem run_append_drop (c : Cursor) (p : UInt8 → Bool) :
    c.run p ++ c.rest.drop (c.run p).length = c.rest :=
  List.prefix_iff_eq_append.mp (List.takeWhile_prefix p)

/-- Skipping blanks reads no lexeme. -/
theorem lexes_skipWhile (c : Cursor) :
    Lexes c.rest c.fresh [] (c.skipWhile Byte.isBlank).rest (c.skipWhile Byte.isBlank).fresh := by
  have hread : Lexes (c.run Byte.isBlank ++ c.rest.drop (c.run Byte.isBlank).length) c.fresh []
      (c.rest.drop (c.run Byte.isBlank).length) c.fresh :=
    .blanks (fun b hb => List.mem_takeWhile_imp hb) .stop
  rwa [run_append_drop] at hread

/-- Neither does settling. -/
theorem lexes_settle (c : Cursor) : Lexes c.rest c.fresh [] c.settle.rest c.settle.fresh := by
  fun_induction settle c with
  | case1 c d tail h hfresh ih =>
    -- A comment on a fresh line is a gap, and settling goes on behind it.
    have hd : Lexes c.rest c.fresh [] d.rest d.fresh := lexes_skipWhile c
    obtain ⟨t, s', rest, rfl, ht, hs⟩ := exists_comment tail
    have hskip := skipComment_eq d.place d.fresh ht hs
    rw [← h] at hskip
    rw [h, hfresh] at hd
    refine hd.trans (.emptyComment ht hs ?_)
    have hrest : d.skipComment = ⟨rest, _, d.fresh⟩ := hskip
    rw [hrest, hfresh] at ih
    rw [hrest, hfresh]
    exact ih
  | case2 c d tail h hfresh => exact lexes_skipWhile c
  | case3 c d tail h hfresh ih =>
    have hd : Lexes c.rest c.fresh [] d.rest d.fresh := lexes_skipWhile c
    rw [h, hfresh] at hd
    have hrest : (d.skip 1).rest = tail := by rw [skip, h]; rfl
    have hkeep : (d.skip 1).fresh = true := hfresh
    rw [hrest, hkeep] at ih
    exact hd.trans (.emptyLine ih)
  | case4 c d tail h hfresh => exact lexes_skipWhile c
  | case5 c d => exact lexes_skipWhile c

/-- On a fresh line a settled cursor stands before a token. -/
theorem settle_fresh (c : Cursor) (hfresh : c.settle.fresh = true) {b : UInt8} {s : Bytes}
    (h : c.settle.rest = b :: s) : b ≠ 35 ∧ b ≠ 10 := by
  fun_induction settle c with
  -- Only the cases that go on can start from a fresh line with a line end ahead.
  | case1 c d tail hd hf ih => exact ih hfresh h
  | case2 c d tail hd hf => exact absurd hfresh hf
  | case3 c d tail hd hf ih => exact ih hfresh h
  | case4 c d tail hd hf => exact absurd hfresh hf
  | case5 c d hcomment hline =>
    constructor
    · rintro rfl
      exact hcomment s h
    · rintro rfl
      exact hline s h

/-- A run of bytes of a token, and the rest where it stops. -/
theorem exists_run {c : Cursor} {p : UInt8 → Bool} {b : UInt8} {s : Bytes} (h : c.rest = b :: s)
    (hb : p b = true) : ∃ w, c.run p = b :: w ∧ (∀ d ∈ w, p d = true) ∧
      c.rest = b :: w ++ (c.skipWhile p).rest ∧ Stops p (c.skipWhile p).rest := by
  refine ⟨s.takeWhile p, ?_, fun d hd => List.mem_takeWhile_imp hd, ?_, ?_⟩
  · rw [run, h, List.takeWhile_cons_of_pos hb]
  · have hrun : c.run p = b :: s.takeWhile p := by rw [run, h, List.takeWhile_cons_of_pos hb]
    have hsplit := c.run_append_drop p
    rw [hrun] at hsplit
    show c.rest = b :: s.takeWhile p ++ c.rest.drop (c.run p).length
    rw [hrun, hsplit]
  · exact stops_drop_takeWhile p c.rest

/-- Skipping one byte leaves the others. -/
theorem rest_skip_one {c : Cursor} {b : UInt8} {s : Bytes} (h : c.rest = b :: s) :
    (c.skip 1).rest = s := by
  rw [skip, h]
  rfl

/-- Every token that is read is read by a rule. -/
theorem lexes_read {c after : Cursor} {t : Token} (h : c.read = .token t after) :
    Lexes c.rest c.fresh [t.lexeme] after.rest after.fresh := by
  -- The gap in front first; the token is then read from the settled cursor.
  refine (lexes_settle c).trans ?_
  have hscan := scans_of_read h
  have hsettled := settle_fresh c
  generalize c.settle = d at hscan hsettled
  -- Settled on a fresh line, the cursor is not before a line end.
  have hline : ∀ {b s}, d.rest = b :: s → b = 35 ∨ b = 10 → d.fresh = false := by
    intro b s hd hb
    rw [← Bool.not_eq_true]
    intro hfresh
    obtain ⟨hcomment, hnewline⟩ := hsettled hfresh hd
    exact hb.elim hcomment hnewline
  cases hscan with
  | @comment tail hd =>
    obtain ⟨e, s', rest, rfl, he, hs⟩ := exists_comment tail
    have hskip := skipComment_eq d.place d.fresh he hs
    rw [← hd] at hskip
    have hrest : d.skipComment = ⟨rest, _, d.fresh⟩ := hskip
    rw [hd, hline hd (.inl rfl), hrest]
    exact .comment he hs .stop
  | newline hd =>
    rw [hd, hline hd (.inr rfl), rest_skip_one hd]
    exact .newline .stop
  | @string tail e hd hcontents =>
    obtain ⟨hq, rest, rfl⟩ := contents?_eq_some_iff.mp hcontents
    have hrest : (d.skip (e.length + 2)).rest = rest := by
      rw [skip, hd]
      simp
    rw [hd, hrest]
    exact .string hq .stop
  | punctuation hd hb =>
    rw [hd, rest_skip_one hd]
    exact .punctuation hb .stop
  | word hd hb =>
    obtain ⟨w, hrun, hw, hrest, hstop⟩ :=
      exists_run (p := Byte.isIdentifierPart) hd (by simp [Byte.isIdentifierPart, hb])
    rw [hrun, hrest]
    refine .word ?_ hstop .stop
    rw [isIdentifier, hb, Bool.true_and, List.all_eq_true]
    exact hw
  -- A point is punctuation, so what reaches this case starts with a digit.
  | number hd hmark hb hl =>
    obtain ⟨w, hrun, hw, hrest, hstop⟩ := exists_run hd hb
    rw [hrun] at hl
    rw [hrest]
    exact .number (Byte.isDigit_of_numberPart hb hmark) hw hl hstop .stop
  | operator hd hb =>
    obtain ⟨w, hrun, hw, hrest, hstop⟩ := exists_run hd hb
    rw [hrun, hrest]
    exact .operator (by simp) (List.forall_mem_cons.mpr ⟨hb, hw⟩) hstop .stop

/-- At the end nothing is left. -/
theorem rest_of_finished {c after : Cursor} (h : c.read = .finished after) : after.rest = [] := by
  have hscan := scans_of_read h
  generalize c.settle = d at hscan
  cases hscan with
  | finished hnil => exact hnil

/-- At the end only a gap is left. -/
theorem lexes_finished {c after : Cursor} (h : c.read = .finished after) :
    Lexes c.rest c.fresh [] [] after.fresh := by
  have hsettle := lexes_settle c
  have hscan := scans_of_read h
  generalize c.settle = d at hsettle hscan
  cases hscan with
  | finished hnil => rwa [hnil] at hsettle

/-- The tokens of a cursor that comes to its end are those of a reading. -/
theorem lexes_tokens {c : Cursor} {ts : List Token} (h : c.tokens = (ts, none)) :
    ∃ f, Lexes c.rest c.fresh (ts.map Token.lexeme) [] f := by
  -- Every token takes a byte, so what is left gets shorter.
  induction hn : c.rest.length using Nat.strong_induction_on generalizing c ts with
  | _ n ih =>
    cases hread : c.read with
    | token t after =>
      rw [tokens_of_token hread] at h
      obtain ⟨rfl, hnone⟩ := Prod.mk.inj h
      obtain ⟨f, hrest⟩ := ih _ (hn ▸ length_read_lt hread)
        (show after.tokens = (after.tokens.1, none) by rw [← hnone]) rfl
      exact ⟨f, (lexes_read hread).trans hrest⟩
    | finished after =>
      rw [tokens_of_finished hread] at h
      obtain ⟨rfl, -⟩ := Prod.mk.inj h
      exact ⟨after.fresh, lexes_finished hread⟩
    | fault problem p after =>
      -- A reading that ends in a fault does not come to the end.
      rw [tokens] at h
      split at h <;> simp_all

end Cursor

theorem Cursor.tokens_nil (place : Position) (fresh : Bool) :
    (⟨[], place, fresh⟩ : Cursor).tokens = ([], none) := by
  have hsettle : (⟨[], place, fresh⟩ : Cursor).settle = ⟨[], place, fresh⟩ := by
    rw [settle]
    rfl
  have hread : (⟨[], place, fresh⟩ : Cursor).read = .finished ⟨[], place, fresh⟩ := by
    rw [read, hsettle]
  exact tokens_of_finished hread

/-- At the end there are no tokens, however often one is asked for. -/
theorem Cursor.tokens_after_finished {c after : Cursor} (h : c.read = .finished after) :
    after.tokens = ([], none) := by
  obtain ⟨rest, place, fresh⟩ := after
  obtain rfl : rest = [] := rest_of_finished h
  exact tokens_nil place fresh

/-- The lexemes of a text, wherever it stands. -/
theorem exists_tokens_iff_lexes {s : Bytes} (place : Position) {fresh : Bool}
    {ls : List Lexeme} :
    (∃ ts, (⟨s, place, fresh⟩ : Cursor).tokens = (ts, none) ∧ ts.map Token.lexeme = ls) ↔
      ∃ f, Lexes s fresh ls [] f := by
  constructor
  · rintro ⟨ts, hts, rfl⟩
    exact Cursor.lexes_tokens hts
  · rintro ⟨f, h⟩
    obtain ⟨place', ts, hts, hls⟩ := h.reaches place
    refine ⟨ts, ?_, hls⟩
    rw [hts, Cursor.tokens_nil, List.append_nil]

/-- A text with the line break at its end that it may lack. -/
def completed (source : Bytes) : Bytes :=
  if source.getLast? == some 10 then source else source ++ [10]

/-- Splitting a whole text. -/
theorem exists_tokenize_iff {source : Bytes} {ls : List Lexeme} :
    (∃ ts, tokenize source = .ok ts ∧ ts.map Token.lexeme = ls) ↔
      ∃ f, Lexes (completed source) true ls [] f := by
  rw [← exists_tokens_iff_lexes ⟨1, 0⟩]
  constructor
  · rintro ⟨ts, hts, hls⟩
    exact ⟨ts, tokenize_eq_ok_iff.mp hts, hls⟩
  · rintro ⟨ts, hts, hls⟩
    exact ⟨ts, tokenize_eq_ok_iff.mpr hts, hls⟩

end Scriptlet

/-
  Scriptlet.Proofs.Render.Text

  The text of a proper tree splits into the lexemes of the tree, whatever text
  stands behind it as long as it cannot lengthen the last word or number:
  `Node.lexes`, and `exists_tokenize_render` for programs.
-/
import Scriptlet.Proofs.Render.Proper

namespace Scriptlet

/-! ## Lexemes of the marks and closing words -/

namespace Lexeme

abbrev opening : Lexeme := .punctuation (text "(")

abbrev closing : Lexeme := .punctuation (text ")")

abbrev comma : Lexeme := .punctuation (text ",")

/-- The word that closes a body. -/
abbrev ending : Lexeme := .keyword (text "end")

end Lexeme

open Lexeme (opening closing comma ending)

/-! ## The lexemes of a tree -/

/-- A list of names with commas between them. -/
def nameLexemes : List Name → List Lexeme
  | [] => []
  | name :: names => .identifier name :: names.flatMap fun name => [comma, .identifier name]

/-- A function up to its body. -/
def headLexemes (name : Name) (parameters : List Name) : List Lexeme :=
  .keyword (text "func") :: .identifier name :: opening :: (nameLexemes parameters ++ [closing])

mutual

/-- The lexemes of the text of a tree. -/
def Node.lexemes : Node → List Lexeme
  | .int n => [.integer (Bytes.ofInt n.toInt) n]
  | .float d => [.float (renderFloat d) d]
  | .str s => [.string s]
  | .bool b => [.keyword (renderBool b)]
  | .ident name => [.identifier name]
  | .unary op operand => opening :: .operator op.symbol :: (operand.lexemes ++ [closing])
  | .binary op left right =>
    opening :: (left.lexemes ++ .operator op.symbol :: (right.lexemes ++ [closing]))
  | .assign target value =>
    opening :: (target.lexemes ++ .operator (text "=") :: (value.lexemes ++ [closing]))
  | .call callee arguments => callee.lexemes ++ opening :: (argumentLexemes arguments ++ [closing])
  | .func name parameters (.mk [.ret value] true) => headLexemes name parameters ++ value.lexemes
  | .func name parameters body => headLexemes name parameters ++ body.lexemes ++ [ending]
  | .branch condition body tail =>
    .keyword (text "if") :: (condition.lexemes ++ body.lexemes ++ tail.lexemes)
  | .loop condition body =>
    .keyword (text "while") :: (condition.lexemes ++ body.lexemes ++ [ending])
  | .ret value => .keyword (text "return") :: value.lexemes
  | _ => []

def Block.lexemes : Block → List Lexeme
  | .mk [statement] true => statement.lexemes
  | .mk statements _ => .separator :: lineLexemes statements

def Tail.lexemes : Tail → List Lexeme
  | .none => [ending]
  | .elif condition body tail =>
    .keyword (text "elif") :: (condition.lexemes ++ body.lexemes ++ tail.lexemes)
  | .else body => .keyword (text "else") :: (body.lexemes ++ [ending])

/-- Statements, each with the separator behind it. -/
def lineLexemes : List Node → List Lexeme
  | [] => []
  | node :: nodes => node.lexemes ++ .separator :: lineLexemes nodes

/-- Arguments with commas between them. -/
def argumentLexemes : List Node → List Lexeme
  | [] => []
  | node :: nodes => node.lexemes ++ laterLexemes nodes

/-- The arguments after the first, each with the comma in front of it. -/
def laterLexemes : List Node → List Lexeme
  | [] => []
  | node :: nodes => comma :: (node.lexemes ++ laterLexemes nodes)

end

attribute [simp] Node.lexemes Block.lexemes Tail.lexemes lineLexemes argumentLexemes laterLexemes

attribute [simp] Node.render Block.render Tail.render renderLines renderEach

/-! ## Pieces of text -/

/-- Whether a byte ends a word, a number or an operator: what stands behind the
    text of a tree inside the text of a larger one. -/
def isBreak (b : UInt8) : Bool := b == 32 || b == 40 || b == 41 || b == 44 || b == 10

/-- The text starts with a break or is empty. -/
def Breaks (s : Bytes) : Prop := ∀ b ∈ s.head?, isBreak b = true

theorem breaks_cons {b : UInt8} {s : Bytes} : Breaks (b :: s) ↔ isBreak b = true := by
  simp [Breaks]

/-- A break ends every run that holds no break. -/
theorem Breaks.stops {s : Bytes} (h : Breaks s) {p : UInt8 → Bool}
    (hp : ∀ b, isBreak b = true → p b = false) : Stops p s :=
  fun b hb => hp b (h b hb)

/-- A break is part of no identifier, number or operator. -/
theorem isBreak_excludes {b : UInt8} (h : isBreak b = true) :
    Byte.isIdentifierPart b = false ∧ Byte.isNumberPart b = false ∧ Byte.isOperator b = false := by
  simp only [isBreak, Bool.or_eq_true, beq_iff_eq] at h
  rcases h with (((rfl | rfl) | rfl) | rfl) | rfl <;> decide

/-- A word ends in front of a break. -/
theorem Breaks.stops_identifier {s : Bytes} (h : Breaks s) : Stops Byte.isIdentifierPart s :=
  h.stops fun _ hb => (isBreak_excludes hb).1

theorem Breaks.stops_number {s : Bytes} (h : Breaks s) : Stops Byte.isNumberPart s :=
  h.stops fun _ hb => (isBreak_excludes hb).2.1

theorem Breaks.stops_operator {s : Bytes} (h : Breaks s) : Stops Byte.isOperator s :=
  h.stops fun _ hb => (isBreak_excludes hb).2.2

theorem text_opening : text "(" = [40] := by decide

theorem text_closing : text ")" = [41] := by decide

theorem text_space : text " " = [32] := by decide

theorem text_equals : text " = " = 32 :: text "=" ++ [32] := by decide

namespace Lexes

variable {s r : Bytes} {fresh f : Bool} {ls : List Lexeme}

theorem space (h : Lexes s fresh ls r f) : Lexes (32 :: s) fresh ls r f := .blank (by decide) h

theorem opening (h : Lexes s false ls r f) : Lexes (40 :: s) fresh (Lexeme.opening :: ls) r f :=
  .punctuation (b := 40) (by decide) h

theorem closing (h : Lexes s false ls r f) : Lexes (41 :: s) fresh (Lexeme.closing :: ls) r f :=
  .punctuation (b := 41) (by decide) h

theorem comma (h : Lexes s false ls r f) : Lexes (44 :: s) fresh (Lexeme.comma :: ls) r f :=
  .punctuation (b := 44) (by decide) h

/-- A keyword in front of a break is one lexeme. -/
theorem keyword {w : Bytes} (hw : isIdentifier w = true) (hk : isKeyword w = true) (hs : Breaks s)
    (h : Lexes s false ls r f) : Lexes (w ++ s) fresh (.keyword w :: ls) r f := by
  -- The word is read as a name first, and then looked up.
  have hword : Lexeme.word w = .keyword w := by rw [Lexeme.word, hk]; rfl
  exact hword ▸ .word hw hs.stops_identifier h

/-- A name in front of a break is one lexeme. -/
theorem identifier {name : Name} (hname : isVariableName name = true) (hs : Breaks s)
    (h : Lexes s false ls r f) : Lexes (name ++ s) fresh (.identifier name :: ls) r f := by
  rw [isVariableName, Bool.and_eq_true, Bool.not_eq_true'] at hname
  have hword : Lexeme.word name = .identifier name := by rw [Lexeme.word, hname.2]; rfl
  exact hword ▸ .word hname.1 hs.stops_identifier h

end Lexes

/-! ## Numbers -/

/-- A text that is one numeral and reads as the lexeme `l`. -/
def IsNumeral (bs : Bytes) (l : Lexeme) : Prop :=
  ∃ b n, bs = b :: n ∧ Bytes.isDigit b = true ∧ (∀ d ∈ n, Byte.isNumberPart d = true) ∧
    Cursor.number bs = .ok l

/-- A numeral in front of a break is one lexeme. -/
theorem IsNumeral.lexes {bs s r : Bytes} {l : Lexeme} {fresh f : Bool} {ls : List Lexeme}
    (h : IsNumeral bs l) (hs : Breaks s) (hrest : Lexes s false ls r f) :
    Lexes (bs ++ s) fresh (l :: ls) r f := by
  obtain ⟨b, n, rfl, hb, hn, hl⟩ := h
  exact .number hb hn hl hs.stops_number hrest

theorem isNumberPart_of_digit {b : UInt8} (h : Bytes.isDigit b = true) :
    Byte.isNumberPart b = true := by
  rw [Byte.isNumberPart, h, Bool.true_or]

/-- An integer that is not negative is written as one numeral. -/
theorem isNumeral_int {n : Int64} (hn : 0 ≤ n) :
    IsNumeral (Bytes.ofInt n.toInt) (.integer (Bytes.ofInt n.toInt) n) := by
  have hnonneg : 0 ≤ n.toInt := by simpa [Int64.le_iff_toInt_le] using hn
  have hlt := n.toInt_lt
  obtain ⟨k, hk⟩ := Int.eq_ofNat_of_zero_le hnonneg
  have htext : Bytes.ofInt n.toInt = Bytes.ofNat k := by
    rw [hk, Bytes.ofInt, if_neg (by omega)]
    rfl
  obtain ⟨b, ds, hds⟩ := List.exists_cons_of_ne_nil (Bytes.ofNat_ne_nil k)
  have hdigit : ∀ d ∈ b :: ds, Bytes.isDigit d = true := by
    intro d hd
    exact Bytes.isDigit_of_mem_ofNat (hds ▸ hd)
  -- Digits hold no point, so the literal is judged as an integer.
  have hcount : (Bytes.ofNat k).count 46 = 0 := by
    rw [List.count_eq_zero]
    intro hpoint
    exact absurd (Bytes.isDigit_of_mem_ofNat hpoint) (by decide)
  have hholds : Word.holds k = true := by
    rw [Word.holds, Word.least, Word.greatest, Bool.and_eq_true, decide_eq_true_eq,
      decide_eq_true_eq]
    omega
  -- The digits are read as a natural number, which is in range because `n` is.
  have hvalue : Int64.ofNat k = n := by
    rw [← Int64.toInt_inj, Int64.toInt_ofNat_of_lt (by omega), hk]
  rw [htext]
  refine ⟨b, ds, hds, hdigit b List.mem_cons_self, ?_, ?_⟩
  · intro d hd
    exact isNumberPart_of_digit (hdigit d (List.mem_cons_of_mem _ hd))
  · unfold Cursor.number
    simp only [hcount, Bytes.value_ofNat, hholds, if_true, hvalue]

/-- A finite fraction is one numeral. -/
theorem Fraction.isNumeral {bs : Bytes} {d : Double} (h : Fraction bs d)
    (hfinite : d.isInfinite = false) : IsNumeral bs (.float bs d) := by
  have hread := h.readDouble
  obtain ⟨whole, fraction, rfl, hwhole, hfraction, dwhole, dfraction, -⟩ := h
  have hpoint : ∀ ds : Bytes, (∀ b ∈ ds, Bytes.isDigit b = true) → 46 ∉ ds := by
    intro ds hds hmem
    exact absurd (hds 46 hmem) (by decide)
  have hcount : (whole ++ 46 :: fraction).count 46 = 1 := by
    rw [List.count_append, List.count_cons_self, List.count_eq_zero.mpr (hpoint _ dwhole),
      List.count_eq_zero.mpr (hpoint _ dfraction)]
  obtain ⟨b, n, rfl⟩ := List.exists_cons_of_ne_nil hwhole
  -- The point stands neither first nor last, and there is only one.
  have hhead : ((b :: n ++ 46 :: fraction).head? == some 46) = false := by
    refine beq_false_of_ne ?_
    rintro ⟨⟩
    exact hpoint _ dwhole List.mem_cons_self
  have hlast : ((b :: n ++ 46 :: fraction).getLast? == some 46) = false := by
    refine beq_false_of_ne ?_
    rw [List.getLast?_append, List.getLast?_cons, List.getLast?_eq_getLast_of_ne_nil hfraction]
    intro heq
    exact hpoint _ dfraction (by
      have : fraction.getLast hfraction = 46 := by simpa using heq
      exact this ▸ List.getLast_mem hfraction)
  refine ⟨b, n ++ 46 :: fraction, rfl, dwhole b List.mem_cons_self, ?_, ?_⟩
  · intro e he
    rcases List.mem_append.mp he with he | he
    · exact isNumberPart_of_digit (dwhole e (List.mem_cons_of_mem _ he))
    rcases List.mem_cons.mp he with rfl | he
    · decide
    · exact isNumberPart_of_digit (dfraction e he)
  · unfold Cursor.number
    simp only [hcount, hhead, hlast, Bool.or_self, Bool.false_eq_true, if_false, hread, hfinite]

/-- The infinity is written with more digits than its range has. -/
theorem isNumeral_infinity :
    IsNumeral (49 :: List.replicate 309 48)
      (.float (49 :: List.replicate 309 48) Double.infinity) := by
  refine ⟨49, List.replicate 309 48, rfl, by decide, ?_, ?_⟩
  · intro d hd
    rw [List.eq_of_mem_replicate hd]
    decide
  · have hcount : (49 :: List.replicate 309 48 : Bytes).count 46 = 0 := by decide +kernel
    have hholds : Word.holds (Bytes.value (49 :: List.replicate 309 48)) = false := by
      decide +kernel
    have hvalue : Double.ofDecimal false (Bytes.value (49 :: List.replicate 309 48)) 0 =
        Double.infinity := by decide +kernel
    unfold Cursor.number
    simp only [hcount, hholds, Bool.false_eq_true, if_false, hvalue]

theorem isNumeral_float {d : Double} (hneg : d.isNegative = false) (hnan : d.isNaN = false) :
    IsNumeral (renderFloat d) (.float (renderFloat d) d) := by
  have hle : d.magnitude ≤ Double.infinityBits := by simpa [Double.isNaN] using hnan
  unfold renderFloat
  split
  · -- The infinity has a text of its own.
    rename_i hinf
    have hmag : d.magnitude = Double.infinityBits := by
      rw [Bool.and_eq_true] at hinf
      exact eq_of_beq hinf.1
    obtain rfl : d = Double.infinity := by
      rw [← Double.ofMagnitude_magnitude hneg, hmag]
      decide
    exact isNumeral_infinity
  · rename_i hinf
    have hfinite : d.isInfinite = false := by simpa [hneg] using hinf
    have hne : d.magnitude ≠ Double.infinityBits := by simpa [Double.isInfinite] using hfinite
    -- The shortest digits round to `d`. Behind them stands a fraction only if their
    -- exponent is negative; otherwise `.0` is added.
    have hnear := Decimal.nearest_shortest (x := d) hneg (decide_eq_true (by omega))
    have hdigits : d.positional = (Decimal.shortest d).positional := by
      unfold Double.positional Double.writeWith Double.special?
      simp only [hnan, hfinite, hneg, Bool.false_eq_true, if_false, List.nil_append]
    simp only [hdigits]
    rcases lt_or_ge (Decimal.shortest d).exp 0 with hexp | hexp
    · have hfraction := Decimal.positional_of_neg hexp
      rw [hnear] at hfraction
      have hpoint : (Decimal.shortest d).positional.contains 46 = true := by
        obtain ⟨whole, fraction, htext, -⟩ := hfraction
        rw [htext]
        simp
      rw [if_pos hpoint]
      exact hfraction.isNumeral hfinite
    · obtain ⟨hfraction, hpoint⟩ := Decimal.positional_of_nonneg hexp
      rw [hnear] at hfraction
      rw [if_neg (by rw [hpoint]; decide)]
      exact hfraction.isNumeral hfinite

/-! ## Functions and bodies

The equations of the two shapes that a proper function and a proper body
have. -/

/-- A function with a body on lines of its own ends with a closing word. -/
theorem Node.render_func_block (name : Name) (ps : List Name) (ss : List Node) :
    (Node.func name ps (.mk ss false)).render =
      renderHead name ps ++ text " " ++ (Block.mk ss false).render ++ text "end" := by
  rw [Node.render]
  -- The other equation of a function wants an inline body.
  intro v h
  cases h

theorem Block.render_block (ss : List Node) :
    (Block.mk ss false).render = 10 :: renderLines ss := by
  rw [Block.render]
  intro x _ h
  cases h

theorem Node.lexemes_func_block (name : Name) (ps : List Name) (ss : List Node) :
    (Node.func name ps (.mk ss false)).lexemes =
      headLexemes name ps ++ (Block.mk ss false).lexemes ++ [ending] := by
  rw [Node.lexemes]
  intro v h
  cases h

theorem Block.lexemes_block (ss : List Node) :
    (Block.mk ss false).lexemes = .separator :: lineLexemes ss := by
  rw [Block.lexemes]
  intro x _ h
  cases h

/-! ## Operators -/

/-- A text that is an operator and nothing else. -/
def IsOperator (o : Bytes) : Prop := o ≠ [] ∧ ∀ b ∈ o, Byte.isOperator b = true

/-- Operators of the tables are tested byte by byte. -/
theorem isOperator_of_all {o : Bytes} (h : (!o.isEmpty && o.all Byte.isOperator) = true) :
    IsOperator o := by
  rwa [Bool.and_eq_true, List.all_eq_true, Bool.not_eq_true', List.isEmpty_eq_false_iff] at h

/-- A prefix operator is written with operator bytes only. -/
theorem UnaryOp.isOperator_symbol {op : UnaryOp} (h : op = .not ∨ op = .negate) :
    IsOperator op.symbol := by
  rcases h with rfl | rfl <;> exact isOperator_of_all (by decide)

/-- So is an infix operator. -/
theorem BinaryOp.isOperator_symbol {op : BinaryOp} (h : op ∈ BinaryOp.all) :
    IsOperator op.symbol := by
  have htest : (BinaryOp.all.all fun op =>
      !op.symbol.isEmpty && op.symbol.all Byte.isOperator) = true := by decide
  exact isOperator_of_all (List.all_eq_true.mp htest op h)

/-- An operator in front of a text that does not go on with one is one lexeme. -/
theorem IsOperator.lexes {o s r : Bytes} {fresh f : Bool} {ls : List Lexeme} (ho : IsOperator o)
    (hs : Stops Byte.isOperator s) (h : Lexes s false ls r f) :
    Lexes (o ++ s) fresh (.operator o :: ls) r f :=
  .operator ho.1 ho.2 hs h

/-- A numeral starts with a digit, which is part of no operator. -/
theorem IsNumeral.stops_operator {bs : Bytes} {l : Lexeme} (h : IsNumeral bs l) (rest : Bytes) :
    Stops Byte.isOperator (bs ++ rest) := by
  obtain ⟨b, n, rfl, hb, -⟩ := h
  have hnumber := isNumberPart_of_digit hb
  refine stops_cons.mpr (Bool.eq_false_iff.mpr fun hoperator => ?_)
  obtain ⟨-, -, -, -, hnot⟩ := Byte.solid_of_operator hoperator
  rw [hnumber] at hnot
  cases hnot

/-- A name starts with a letter or an underscore. -/
theorem stops_operator_name {name : Name} (h : isVariableName name = true) (rest : Bytes) :
    Stops Byte.isOperator (name ++ rest) := by
  cases name with
  | nil => exact absurd h (by decide)
  | cons b name =>
    rw [isVariableName, isIdentifier, Bool.and_eq_true, Bool.and_eq_true] at h
    have hstart : Byte.isIdentifierStart b = true := h.1.1
    refine stops_cons.mpr (Bool.eq_false_iff.mpr fun hoperator => ?_)
    obtain ⟨-, -, -, hnot, -⟩ := Byte.solid_of_operator hoperator
    rw [hstart] at hnot
    cases hnot

theorem stops_operator_head (name : Name) (ps : List Name) (rest : Bytes) :
    Stops Byte.isOperator (renderHead name ps ++ rest) :=
  stops_cons.mpr (show Byte.isOperator 102 = false by decide)

/-- The text of a proper tree starts with no operator, so a prefix operator in
    front of it stays by itself. -/
theorem Proper.stops_operator {x : Node} (hx : Proper (.node x)) (rest : Bytes) :
    Stops Byte.isOperator (x.render ++ rest) := by
  -- The induction is on `Proper`, whose index is a part: the cases of the other
  -- parts are closed by `hpart`.
  generalize hpart : Part.node x = part at hx
  induction hx generalizing x rest with
  | int hn =>
    cases hpart
    exact (isNumeral_int hn).stops_operator rest
  | float hneg hnan =>
    cases hpart
    exact (isNumeral_float hneg hnan).stops_operator rest
  | str =>
    cases hpart
    exact stops_cons.mpr (by decide)
  | @bool b =>
    cases hpart
    cases b <;> exact stops_cons.mpr (by decide)
  | ident hname =>
    cases hpart
    exact stops_operator_name hname rest
  | unary | binary | assign =>
    cases hpart
    exact stops_cons.mpr (show Byte.isOperator 40 = false by decide)
  | call _ _ ihc _ =>
    cases hpart
    rw [Node.render, List.append_assoc, List.append_assoc, List.append_assoc]
    exact ihc _ rfl
  | inlineFunc =>
    cases hpart
    rw [Node.render, List.append_assoc, List.append_assoc]
    exact stops_operator_head _ _ _
  | blockFunc =>
    cases hpart
    rw [Node.render_func_block, List.append_assoc, List.append_assoc, List.append_assoc]
    exact stops_operator_head _ _ _
  | branch =>
    cases hpart
    exact stops_cons.mpr (show Byte.isOperator 105 = false by decide)
  | loop =>
    cases hpart
    exact stops_cons.mpr (show Byte.isOperator 119 = false by decide)
  | ret =>
    cases hpart
    exact stops_cons.mpr (show Byte.isOperator 114 = false by decide)
  | inline | block | none | elif | «else» | nil | cons => cases hpart

/-- A list with separators is its first text, and the others behind a separator each. -/
theorem Bytes.join_cons (sep x : Bytes) (xs : List Bytes) :
    Bytes.join sep (x :: xs) = x ++ (xs.map (sep ++ ·)).flatten := by
  induction xs generalizing x with
  | nil => simp [Bytes.join, List.intercalate]
  | cons y ys ih =>
    have hstep : Bytes.join sep (x :: y :: ys) = x ++ (sep ++ Bytes.join sep (y :: ys)) := by
      simp [Bytes.join, List.intercalate]
    rw [hstep, ih, List.map_cons, List.flatten_cons, List.append_assoc]

/-! ## Trees -/

/-- Names after the first, each with the comma in front of it. They start with a
    break, so the name in front of them ends there. -/
theorem lexes_later_names {names : List Name} (hnames : ∀ p ∈ names, isVariableName p = true)
    {rest : Bytes} (hrest : Breaks rest) :
    Breaks ((names.map (text ", " ++ ·)).flatten ++ rest) ∧
      Lexes ((names.map (text ", " ++ ·)).flatten ++ rest) false
        (names.flatMap fun name => [comma, .identifier name]) rest false := by
  induction names with
  | nil => exact ⟨hrest, .stop⟩
  | cons name names ih =>
    obtain ⟨hname, hnames⟩ := List.forall_mem_cons.mp hnames
    obtain ⟨hbreaks, hlexes⟩ := ih hnames
    rw [List.map_cons, List.flatten_cons, List.append_assoc, List.append_assoc]
    exact ⟨breaks_cons.mpr (show isBreak 44 = true by decide),
      .comma (.space (.identifier hname hbreaks hlexes))⟩

/-- Names with commas between them. -/
theorem lexes_names {names : List Name} (hnames : ∀ p ∈ names, isVariableName p = true)
    {rest : Bytes} (hrest : Breaks rest) :
    Lexes (Bytes.join (text ", ") names ++ rest) false (nameLexemes names) rest false := by
  cases names with
  | nil => exact .stop
  | cons name names =>
    obtain ⟨hname, hnames⟩ := List.forall_mem_cons.mp hnames
    obtain ⟨hbreaks, hlexes⟩ := lexes_later_names hnames hrest
    rw [Bytes.join_cons, List.append_assoc]
    exact .identifier hname hbreaks hlexes

/-- The head of a function is read up to the parenthesis that closes its parameters. -/
theorem ProperHead.lexes {name : Name} {ps : List Name} (h : ProperHead name ps) {rest r : Bytes}
    {fresh f : Bool} {ls : List Lexeme} (hrest : Lexes rest false ls r f) :
    Lexes (renderHead name ps ++ rest) fresh (headLexemes name ps ++ ls) r f := by
  have hclosing : Breaks (41 :: rest) := breaks_cons.mpr (by decide)
  have hnames := lexes_names h.areNames hclosing
  have hinside := hnames.trans (.closing hrest)
  have hopening : Breaks (40 :: (Bytes.join (text ", ") ps ++ 41 :: rest)) :=
    breaks_cons.mpr (by decide)
  have hfunc : Lexes _ fresh _ _ _ := .keyword (w := text "func") (by decide) (by decide)
    (breaks_cons.mpr (by decide)) (.space (.identifier h.isName hopening (.opening hinside)))
  have htext : text "func " = text "func" ++ [32] := by decide
  rw [renderHead, htext, text_opening, text_closing, headLexemes]
  simpa only [List.append_assoc, List.cons_append, List.nil_append] using hfunc

/-- A part of a tree is read as its lexemes. -/
def Part.LexesBack : Part → Prop
  | .node x => ∀ (rest : Bytes) (fresh : Bool), Breaks rest →
      Lexes (x.render ++ rest) fresh x.lexemes rest false
  | .block b => ∀ rest : Bytes, Breaks rest →
      ∃ f, Lexes (b.render ++ rest) false b.lexemes rest f
  | .tail t => ∀ (rest : Bytes) (fresh : Bool), Breaks rest →
      Lexes (t.render ++ rest) fresh t.lexemes rest false
  | .each xs =>
      (∀ rest : Bytes, Lexes (renderLines xs ++ rest) true (lineLexemes xs) rest true) ∧
      ∀ rest : Bytes, Breaks rest →
        Lexes (Bytes.join (text ", ") (renderEach xs) ++ rest) false (argumentLexemes xs)
          rest false ∧
        Lexes (((renderEach xs).map (text ", " ++ ·)).flatten ++ rest) false (laterLexemes xs)
          rest false

/-- What follows an argument starts with a comma, or ends the list. -/
theorem breaks_later (xs : List Node) {rest : Bytes} (hrest : Breaks rest) :
    Breaks (((renderEach xs).map (text ", " ++ ·)).flatten ++ rest) := by
  cases xs with
  | nil => exact hrest
  | cons x xs => exact breaks_cons.mpr (show isBreak 44 = true by decide)

/-- Statements on lines of their own after a line break. -/
theorem lexes_block {ss : List Node} (hss : Part.LexesBack (.each ss)) (rest : Bytes) :
    Lexes ((Block.mk ss false).render ++ rest) false (Block.mk ss false).lexemes rest true := by
  rw [Block.render_block, Block.lexemes_block]
  exact .newline (hss.1 rest)

theorem lexes_condition {c : Node} {b : Block} (hc : Part.LexesBack (.node c))
    (hb : Part.LexesBack (.block b)) {rest : Bytes} (fresh : Bool) (hrest : Breaks rest) :
    ∃ f, Lexes (c.render ++ 32 :: (b.render ++ rest)) fresh (c.lexemes ++ b.lexemes) rest f := by
  obtain ⟨f, hbody⟩ := hb rest hrest
  exact ⟨f, (hc _ fresh (breaks_cons.mpr (by decide))).trans (.space hbody)⟩

/-- A keyword and the blank behind it. -/
theorem Lexes.keyword_space {w s r : Bytes} (fresh : Bool) {f : Bool} {ls : List Lexeme}
    (hw : (isIdentifier w && isKeyword w) = true) (h : Lexes s false ls r f) :
    Lexes (w ++ 32 :: s) fresh (.keyword w :: ls) r f := by
  rw [Bool.and_eq_true] at hw
  exact .keyword hw.1 hw.2 (breaks_cons.mpr (by decide)) (.space h)

theorem Lexes.ending {s r : Bytes} {fresh f : Bool} {ls : List Lexeme} (hs : Breaks s)
    (h : Lexes s false ls r f) : Lexes (text "end" ++ s) fresh (Lexeme.ending :: ls) r f :=
  .keyword (by decide) (by decide) hs h

theorem text_space_ending : text " end" = 32 :: text "end" := by decide

theorem Lexes.space_ending {s : Bytes} {fresh : Bool} (hs : Breaks s) :
    Lexes (text " end" ++ s) fresh [Lexeme.ending] s false := by
  rw [text_space_ending]
  exact .space (.ending hs .stop)

theorem breaks_space_ending (s : Bytes) : Breaks (text " end" ++ s) := by
  rw [text_space_ending]
  exact breaks_cons.mpr (by decide)

/-- What is behind the first branch of a conditional starts with a blank. -/
theorem breaks_tail (t : Tail) (s : Bytes) : Breaks (t.render ++ s) := by
  cases t with
  | none => exact breaks_space_ending s
  | elif | «else» => exact breaks_cons.mpr (show isBreak 32 = true by decide)

/-- Both nodes of a binary operator are an opening parenthesis, operands around
    the operator and a closing parenthesis. -/
theorem lexes_infix {l r : Node} {o : Bytes} (ho : IsOperator o) (hl : Part.LexesBack (.node l))
    (hr : Part.LexesBack (.node r)) (rest : Bytes) (fresh : Bool) :
    Lexes (40 :: (l.render ++ 32 :: (o ++ 32 :: (r.render ++ 41 :: rest)))) fresh
      (opening :: (l.lexemes ++ .operator o :: (r.lexemes ++ [closing]))) rest false := by
  have hspace : ∀ s : Bytes, Breaks (32 :: s) := fun s => breaks_cons.mpr (by decide)
  have hright := (hr (41 :: rest) false (breaks_cons.mpr (by decide))).trans (.closing .stop)
  exact .opening ((hl _ false (hspace _)).trans
    (.space (ho.lexes (hspace _).stops_operator (.space hright))))

/-! ## One construct at a time

The parts of a construct are read one behind the other. Each ends where the mark, the
blank or the line break behind it starts. -/

section Constructs

variable {c l r v x : Node} {b : Block} {t : Tail} {as ss xs : List Node} {name : Name}
  {ps : List Name}

/-- A string is read between its quotes. -/
theorem lexesBack_str {s : Bytes} (hs : isQuotable false s = true) :
    Part.LexesBack (.node (.str s)) := by
  intro rest fresh hrest
  have htext : (Node.str s).render ++ rest = 34 :: (s ++ 34 :: rest) := by
    simp
  rw [htext]
  exact .string hs .stop

theorem lexesBack_bool (b : Bool) : Part.LexesBack (.node (.bool b)) := by
  intro rest fresh hrest
  cases b <;> exact .keyword (by decide) (by decide) hrest .stop

/-- A prefix operator with its operand, in parentheses. -/
theorem lexesBack_unary {op : UnaryOp} (hop : op = .not ∨ op = .negate) (hx : Proper (.node x))
    (ih : Part.LexesBack (.node x)) : Part.LexesBack (.node (.unary op x)) := by
  intro rest fresh hrest
  have hclosing : Breaks (41 :: rest) := breaks_cons.mpr (by decide)
  have hinside := (ih _ false hclosing).trans (.closing .stop)
  -- No blank stands between the operator and its operand, so the operand must not
  -- start with an operator byte.
  have hoperator : Lexes _ false _ _ _ :=
    (UnaryOp.isOperator_symbol hop).lexes (hx.stops_operator _) hinside
  have hgroup : Lexes _ fresh _ _ _ := .opening hoperator
  rw [Node.render, Node.lexemes, text_opening, text_closing]
  simpa only [List.append_assoc, List.cons_append, List.nil_append] using hgroup

/-- An infix operator between blanks, in parentheses. -/
theorem lexesBack_binary {op : BinaryOp} (hop : op ∈ BinaryOp.all)
    (hl : Part.LexesBack (.node l)) (hr : Part.LexesBack (.node r)) :
    Part.LexesBack (.node (.binary op l r)) := by
  intro rest fresh hrest
  rw [Node.render, Node.lexemes, text_opening, text_closing, text_space]
  simpa only [List.append_assoc, List.cons_append, List.nil_append] using
    lexes_infix (BinaryOp.isOperator_symbol hop) hl hr rest fresh

/-- An assignment is written as an infix operator. -/
theorem lexesBack_assign (hl : Part.LexesBack (.node l)) (hr : Part.LexesBack (.node r)) :
    Part.LexesBack (.node (.assign l r)) := by
  intro rest fresh hrest
  rw [Node.render, Node.lexemes, text_opening, text_closing, text_equals]
  simpa only [List.append_assoc, List.cons_append, List.nil_append] using
    lexes_infix (isOperator_of_all (o := text "=") (by decide)) hl hr rest fresh

/-- A call is its function and the arguments in parentheses. -/
theorem lexesBack_call (hc : Part.LexesBack (.node c)) (has : Part.LexesBack (.each as)) :
    Part.LexesBack (.node (.call c as)) := by
  intro rest fresh hrest
  have hopening : ∀ s : Bytes, Breaks (40 :: s) := fun s => breaks_cons.mpr (by decide)
  have harguments := (has.2 (41 :: rest) (breaks_cons.mpr (by decide))).1.trans (.closing .stop)
  -- The parenthesis ends the function in front of it.
  rw [Node.render, Node.lexemes, text_opening, text_closing]
  simpa only [List.append_assoc, List.cons_append, List.nil_append] using
    (hc _ fresh (hopening _)).trans (.opening harguments)

/-- A function with an inline body has no closing word. -/
theorem lexesBack_inlineFunc (hhead : ProperHead name ps) (hv : Part.LexesBack (.node v)) :
    Part.LexesBack (.node (.func name ps (.mk [.ret v] true))) := by
  intro rest fresh hrest
  have hfunc : Lexes _ fresh _ _ _ := hhead.lexes (.space (hv _ false hrest))
  rw [Node.render, Node.lexemes, text_space]
  simpa only [List.append_assoc, List.cons_append, List.nil_append] using hfunc

/-- A function with a body on lines of its own is closed. -/
theorem lexesBack_blockFunc (hhead : ProperHead name ps) (hss : Part.LexesBack (.each ss)) :
    Part.LexesBack (.node (.func name ps (.mk ss false))) := by
  intro rest fresh hrest
  have hbody := (lexes_block hss (text "end" ++ rest)).trans (.ending hrest .stop)
  have hfunc : Lexes _ fresh _ _ _ := hhead.lexes (.space hbody)
  rw [Node.render_func_block, Node.lexemes_func_block, text_space]
  simpa only [List.append_assoc, List.cons_append, List.nil_append] using hfunc

/-- A conditional is closed by what stands behind its first branch. -/
theorem lexesBack_branch (hc : Part.LexesBack (.node c)) (hb : Part.LexesBack (.block b))
    (ht : Part.LexesBack (.tail t)) : Part.LexesBack (.node (.branch c b t)) := by
  intro rest fresh hrest
  obtain ⟨f, hcondition⟩ := lexes_condition hc hb false (breaks_tail t rest)
  have htext : text "if " = text "if" ++ [32] := by decide
  -- The body may leave a fresh line or not; the word behind it is read either way.
  rw [Node.render, Node.lexemes, text_space, htext]
  simpa only [List.append_assoc, List.cons_append, List.nil_append] using
    Lexes.keyword_space (w := text "if") fresh (by decide) (hcondition.trans (ht _ _ hrest))

/-- A loop is closed by a word of its own. -/
theorem lexesBack_loop (hc : Part.LexesBack (.node c)) (hb : Part.LexesBack (.block b)) :
    Part.LexesBack (.node (.loop c b)) := by
  intro rest fresh hrest
  obtain ⟨f, hcondition⟩ := lexes_condition hc hb false (breaks_space_ending rest)
  have htext : text "while " = text "while" ++ [32] := by decide
  rw [Node.render, Node.lexemes, text_space, htext]
  simpa only [List.append_assoc, List.cons_append, List.nil_append] using
    Lexes.keyword_space (w := text "while") fresh (by decide)
      (hcondition.trans (.space_ending hrest))

theorem lexesBack_ret (hv : Part.LexesBack (.node v)) : Part.LexesBack (.node (.ret v)) := by
  intro rest fresh hrest
  have htext : text "return " = text "return" ++ [32] := by decide
  rw [Node.render, Node.lexemes, htext]
  simpa only [List.append_assoc, List.cons_append, List.nil_append] using
    Lexes.keyword_space (w := text "return") fresh (by decide) (hv _ false hrest)

/-- Without further branches the closing word stands behind the first. -/
theorem lexesBack_none : Part.LexesBack (.tail .none) := by
  intro rest fresh hrest
  rw [Tail.render, Tail.lexemes]
  exact .space_ending hrest

theorem lexesBack_elif (hc : Part.LexesBack (.node c)) (hb : Part.LexesBack (.block b))
    (ht : Part.LexesBack (.tail t)) : Part.LexesBack (.tail (.elif c b t)) := by
  intro rest fresh hrest
  obtain ⟨f, hcondition⟩ := lexes_condition hc hb false (breaks_tail t rest)
  have htext : text " elif " = 32 :: (text "elif" ++ [32]) := by decide
  rw [Tail.render, Tail.lexemes, text_space, htext]
  simpa only [List.append_assoc, List.cons_append, List.nil_append] using
    Lexes.space (Lexes.keyword_space (w := text "elif") fresh (by decide)
      (hcondition.trans (ht _ _ hrest)))

theorem lexesBack_else (hb : Part.LexesBack (.block b)) : Part.LexesBack (.tail (.else b)) := by
  intro rest fresh hrest
  obtain ⟨f, hbody⟩ := hb _ (breaks_space_ending rest)
  have htext : text " else " = 32 :: (text "else" ++ [32]) := by decide
  rw [Tail.render, Tail.lexemes, htext]
  simpa only [List.append_assoc, List.cons_append, List.nil_append] using
    Lexes.space (Lexes.keyword_space (w := text "else") fresh (by decide)
      (hbody.trans (.space_ending hrest)))

/-- A list of nodes is read in three ways: as lines, as arguments, and behind another
    argument. -/
theorem lexesBack_cons (hx : Part.LexesBack (.node x)) (hxs : Part.LexesBack (.each xs)) :
    Part.LexesBack (.each (x :: xs)) := by
  refine ⟨fun rest => ?_, fun rest hrest => ?_⟩
  · have hline := (hx (10 :: (renderLines xs ++ rest)) true (breaks_cons.mpr (by decide))).trans
      (.newline (hxs.1 rest))
    rw [renderLines, lineLexemes]
    simpa only [List.append_assoc, List.cons_append, List.nil_append] using hline
  · -- An argument ends at the comma behind it or at the end of the list.
    have harguments := (hx _ false (breaks_later xs hrest)).trans (hxs.2 rest hrest).2
    refine ⟨?_, ?_⟩
    · rw [renderEach, argumentLexemes, Bytes.join_cons, List.append_assoc]
      exact harguments
    · have hlater : Lexes _ false _ _ _ := .comma (.space harguments)
      have htext : text ", " = [44, 32] := by decide
      rw [renderEach, laterLexemes, List.map_cons, List.flatten_cons]
      simpa only [htext, List.append_assoc, List.cons_append, List.nil_append] using hlater

end Constructs

/-- Every part of a proper tree is read as its lexemes, by induction on what makes it
    proper. -/
theorem Proper.lexesBack {part : Part} (h : Proper part) : part.LexesBack := by
  induction h with
  | int hn => exact fun _ _ hrest => (isNumeral_int hn).lexes hrest .stop
  | float hneg hnan => exact fun _ _ hrest => (isNumeral_float hneg hnan).lexes hrest .stop
  | str hs => exact lexesBack_str hs
  | bool => exact lexesBack_bool _
  | ident hname => exact fun _ _ hrest => .identifier hname hrest .stop
  | unary hop hx ihx => exact lexesBack_unary hop hx ihx
  | binary hop _ _ ihl ihr => exact lexesBack_binary hop ihl ihr
  | assign _ _ ihl ihr => exact lexesBack_assign ihl ihr
  | call _ _ ihc ihas => exact lexesBack_call ihc ihas
  | inlineFunc hhead _ ihv => exact lexesBack_inlineFunc hhead ihv
  | blockFunc hhead _ ihss => exact lexesBack_blockFunc hhead ihss
  | branch _ _ _ ihc ihb iht => exact lexesBack_branch ihc ihb iht
  | loop _ _ ihc ihb => exact lexesBack_loop ihc ihb
  | ret _ ihv => exact lexesBack_ret ihv
  -- A block ends at a fresh line, an inline body does not.
  | inline _ ihx => exact fun _ hrest => ⟨false, ihx _ false hrest⟩
  | block _ ihss => exact fun rest _ => ⟨true, lexes_block ihss rest⟩
  | none => exact lexesBack_none
  | elif _ _ _ ihc ihb iht => exact lexesBack_elif ihc ihb iht
  | «else» _ ihb => exact lexesBack_else ihb
  | nil => exact ⟨fun _ => .stop, fun _ _ => ⟨.stop, .stop⟩⟩
  | cons _ _ ihx ihxs => exact lexesBack_cons ihx ihxs

/-- Each statement ends its line. -/
theorem getLast?_renderLines {ss : List Node} (hss : ss ≠ []) :
    (renderLines ss).getLast? = some 10 := by
  induction ss with
  | nil => exact absurd rfl hss
  | cons x xs ih =>
    cases xs with
    | nil => simp
    | cons y ys =>
      rw [renderLines, List.getLast?_append, List.getLast?_cons, ih (List.cons_ne_nil y ys)]
      simp

/-- The text of a proper program splits into its lexemes. -/
theorem exists_tokenize_render {p : Program} (h : Proper (.each p.statements)) :
    ∃ ts, tokenize p.render = .ok ts ∧ ts.map Token.lexeme = lineLexemes p.statements := by
  rw [exists_tokenize_iff]
  have hlines := h.lexesBack.1 []
  rw [List.append_nil] at hlines
  unfold completed
  split
  · exact ⟨true, hlines⟩
  · rename_i hlast
    -- Only the empty program has a text without a last line break.
    have hnil : p.statements = [] := by
      by_contra hss
      rw [Program.render, getLast?_renderLines hss] at hlast
      simp at hlast
    rw [Program.render, hnil]
    exact ⟨true, .emptyLine .stop⟩

end Scriptlet

/-
  Scriptlet.Token.Lexer

  Splitting a text into tokens: a cursor that reads one token at a time, and
  the token list of a whole text.
-/
import Scriptlet.Number.Numeral
import Scriptlet.Fault

namespace Scriptlet

/-- A place in a text with what lies ahead. `fresh` holds while no token has
    come since the last separator, so that blank lines and comments add none.
    The column of `place` counts from zero. -/
structure Cursor where
  rest : Bytes
  place : Position
  fresh : Bool
deriving DecidableEq, Repr

namespace Cursor

/-- The start of a text. A text that does not end a line gets the line break
    it lacks. -/
def ofText (source : Bytes) : Cursor :=
  ⟨if source.getLast? == some 10 then source else source ++ [10], ⟨1, 0⟩, true⟩

/-- The cursor after the next `n` bytes. -/
def skip (c : Cursor) (n : Nat) : Cursor :=
  { c with rest := c.rest.drop n, place := c.place.advance (c.rest.take n) }

/-- The longest run of bytes ahead that satisfy `p`. -/
def run (c : Cursor) (p : UInt8 → Bool) : Bytes := c.rest.takeWhile p

/-- The cursor after the longest run of bytes that satisfy `p`. -/
def skipWhile (c : Cursor) (p : UInt8 → Bool) : Cursor := c.skip (c.run p).length

/-- The cursor after a comment and the line break that ends it. -/
def skipComment (c : Cursor) : Cursor := (c.skipWhile (· != 10)).skip 1

/-- The position of a token that starts here. -/
def position (c : Cursor) : Position := ⟨c.place.line, c.place.column + 1⟩

theorem length_skip (c : Cursor) (n : Nat) : (c.skip n).rest.length = c.rest.length - n := by
  simp [skip]

theorem length_skipWhile_le (c : Cursor) (p : UInt8 → Bool) :
    (c.skipWhile p).rest.length ≤ c.rest.length := by
  rw [skipWhile, length_skip]; omega

theorem length_skip_one_lt {c : Cursor} (h : c.rest ≠ []) :
    (c.skip 1).rest.length < c.rest.length := by
  have := List.length_pos_iff.mpr h
  rw [length_skip]; omega

theorem length_run_pos {c : Cursor} {p : UInt8 → Bool} {b : UInt8} {bs : Bytes}
    (h : c.rest = b :: bs) (hp : p b = true) : 0 < (c.run p).length := by
  simp [run, h, hp]

theorem length_skipWhile_lt {c : Cursor} {p : UInt8 → Bool} {b : UInt8} {bs : Bytes}
    (h : c.rest = b :: bs) (hp : p b = true) : (c.skipWhile p).rest.length < c.rest.length := by
  have hr := length_run_pos h hp
  have : 0 < c.rest.length := by simp [h]
  rw [skipWhile, length_skip]; omega

theorem length_skipComment_lt {c : Cursor} {bs : Bytes} (h : c.rest = 35 :: bs) :
    c.skipComment.rest.length < c.rest.length := by
  have := length_skipWhile_lt (p := (· != 10)) h (by decide)
  rw [skipComment, length_skip]; omega

/-! ## Gaps -/

/-- The cursor after blanks and, on a fresh line, after line breaks and
    comments. -/
def settle (c : Cursor) : Cursor :=
  let d := c.skipWhile Byte.isBlank
  match _h : d.rest with
  -- A comment on a line with tokens ends the line, so it is left to be read as a separator.
  | 35 :: _ => if d.fresh then settle d.skipComment else d
  | 10 :: _ => if d.fresh then settle (d.skip 1) else d
  | _ => d
termination_by c.rest.length
decreasing_by
  · exact Nat.lt_of_lt_of_le (length_skipComment_lt _h) (length_skipWhile_le c _)
  · exact Nat.lt_of_lt_of_le (length_skip_one_lt (by rw [_h]; simp)) (length_skipWhile_le c _)

/-! ## Tokens -/

/-- The text of a string literal after its opening quote. A quote closes the
    literal unless the byte before it is a backslash; backslashes are kept. -/
def contents? (escaped : Bool) : Bytes → Option Bytes
  | [] => none
  -- Two backslashes do not cancel each other: the second escapes the quote as well.
  | b :: bs => if b == 34 && !escaped then some [] else (contents? (b == 92) bs).map (b :: ·)

/-- The lexeme of a run of digits and points. Without a point it is an integer,
    or the nearest float when it is too wide; with one point inside it is a
    float within range. -/
def number (literal : Bytes) : Except LexProblem Lexeme :=
  match literal.count 46 with
  | 0 =>
    let n := Bytes.value literal
    -- Too wide for a word, the digits are a float.
    if Word.holds n then .ok (.integer literal (Int64.ofNat n))
    else .ok (.float literal (Double.ofDecimal false n 0))
  | 1 =>
    if literal.head? == some 46 || literal.getLast? == some 46 then .error (.invalidFloat literal)
    else
      match Numeral.readDouble literal with
      | some d => if d.isInfinite then .error (.invalidFloat literal) else .ok (.float literal d)
      | none => .error (.invalidFloat literal)
  | _ => .error (.invalidFloat literal)

/-- What reading one token gave, and the cursor after it. -/
inductive Scan where
  | token (t : Token) (after : Cursor)
  | finished (after : Cursor)
  | fault (problem : LexProblem) (position : Position) (after : Cursor)

/-- Reads one token. After a fault the cursor stands where reading stopped:
    before an unexpected byte, behind a number, at the end behind an open
    string. -/
def read (c : Cursor) : Scan :=
  let c := c.settle
  let produce (l : Lexeme) (after : Cursor) : Scan :=
    .token ⟨l, c.position⟩ { after with fresh := false }
  match c.rest with
  | [] => .finished c
  | b :: tail =>
    if b == 35 then .token ⟨.separator, c.position⟩ { c.skipComment with fresh := true }
    else if b == 10 then .token ⟨.separator, c.position⟩ { c.skip 1 with fresh := true }
    else if b == 34 then
      match contents? false tail with
      | some s => produce (.string s) (c.skip (s.length + 2))
      | none => .fault .unterminatedString c.position (c.skip c.rest.length)
    -- The point is punctuation, so no number starts with one.
    else if Byte.isPunctuation b then produce (.punctuation [b]) (c.skip 1)
    else if Byte.isIdentifierStart b then
      produce (.word (c.run Byte.isIdentifierPart)) (c.skipWhile Byte.isIdentifierPart)
    else if Byte.isNumberPart b then
      match number (c.run Byte.isNumberPart) with
      | .ok l => produce l (c.skipWhile Byte.isNumberPart)
      | .error problem => .fault problem c.position (c.skipWhile Byte.isNumberPart)
    else if Byte.isOperator b then
      produce (.operator (c.run Byte.isOperator)) (c.skipWhile Byte.isOperator)
    -- Reading again finds the same byte.
    else .fault (.unexpectedByte b) c.position c

/-- What reading one token can give behind the gap, case by case of the first
    byte ahead. -/
inductive Scans (d : Cursor) : Scan → Prop where
  | finished (h : d.rest = []) : Scans d (.finished d)
  | comment {tail} (h : d.rest = 35 :: tail) :
      Scans d (.token ⟨.separator, d.position⟩ { d.skipComment with fresh := true })
  | newline {tail} (h : d.rest = 10 :: tail) :
      Scans d (.token ⟨.separator, d.position⟩ { d.skip 1 with fresh := true })
  | string {tail s} (h : d.rest = 34 :: tail) (hs : contents? false tail = some s) :
      Scans d (.token ⟨.string s, d.position⟩ { d.skip (s.length + 2) with fresh := false })
  | openString {tail} (h : d.rest = 34 :: tail) (hs : contents? false tail = none) :
      Scans d (.fault .unterminatedString d.position (d.skip d.rest.length))
  | punctuation {b tail} (h : d.rest = b :: tail) (hb : Byte.isPunctuation b = true) :
      Scans d (.token ⟨.punctuation [b], d.position⟩ { d.skip 1 with fresh := false })
  | word {b tail} (h : d.rest = b :: tail) (hb : Byte.isIdentifierStart b = true) :
      Scans d (.token ⟨.word (d.run Byte.isIdentifierPart), d.position⟩
        { d.skipWhile Byte.isIdentifierPart with fresh := false })
  | number {b tail l} (h : d.rest = b :: tail) (hmark : Byte.isPunctuation b = false)
      (hb : Byte.isNumberPart b = true) (hl : Cursor.number (d.run Byte.isNumberPart) = .ok l) :
      Scans d (.token ⟨l, d.position⟩ { d.skipWhile Byte.isNumberPart with fresh := false })
  | noNumber {b tail problem} (h : d.rest = b :: tail) (hmark : Byte.isPunctuation b = false)
      (hb : Byte.isNumberPart b = true)
      (hl : Cursor.number (d.run Byte.isNumberPart) = .error problem) :
      Scans d (.fault problem d.position (d.skipWhile Byte.isNumberPart))
  | operator {b tail} (h : d.rest = b :: tail) (hb : Byte.isOperator b = true) :
      Scans d (.token ⟨.operator (d.run Byte.isOperator), d.position⟩
        { d.skipWhile Byte.isOperator with fresh := false })
  | unexpected {b tail} (h : d.rest = b :: tail) (hquote : b ≠ 34)
      (hmark : Byte.isPunctuation b = false) (hword : Byte.isIdentifierStart b = false)
      (hnumber : Byte.isNumberPart b = false) (hop : Byte.isOperator b = false) :
      Scans d (.fault (.unexpectedByte b) d.position d)

theorem scans_settle (c : Cursor) : Scans c.settle c.read := by
  unfold read
  generalize c.settle = d
  dsimp only
  split
  · rename_i hnil
    exact .finished hnil
  rename_i b tail hd
  split
  · rename_i hb
    obtain rfl := eq_of_beq hb
    exact .comment hd
  split
  · rename_i hb
    obtain rfl := eq_of_beq hb
    exact .newline hd
  split
  · rename_i hb
    obtain rfl := eq_of_beq hb
    cases hs : contents? false tail with
    | some s => exact .string hd hs
    | none => exact .openString hd hs
  rename_i hquote
  split
  · rename_i hb
    exact .punctuation hd hb
  rename_i hmark
  split
  · rename_i hb
    exact .word hd hb
  rename_i hword
  split
  · rename_i hb
    cases hl : number (d.run Byte.isNumberPart) with
    | ok l => exact .number hd (by simpa using hmark) hb hl
    | error problem => exact .noNumber hd (by simpa using hmark) hb hl
  rename_i hnumber
  split
  · rename_i hb
    exact .operator hd hb
  · rename_i hop
    exact .unexpected hd (by simpa using hquote) (by simpa using hmark) (by simpa using hword)
      (by simpa using hnumber) (by simpa using hop)

theorem scans_of_read {c : Cursor} {scan : Scan} (h : c.read = scan) : Scans c.settle scan :=
  h ▸ scans_settle c

theorem length_settle_le (c : Cursor) : c.settle.rest.length ≤ c.rest.length := by
  fun_induction settle c with
  | case1 c d bs h hf ih =>
    have := length_skipComment_lt h
    have : d.rest.length ≤ c.rest.length := length_skipWhile_le c Byte.isBlank
    omega
  | case2 c d => exact length_skipWhile_le c Byte.isBlank
  | case3 c d bs h hf ih =>
    have := length_skip_one_lt (c := d) (by rw [h]; simp)
    have : d.rest.length ≤ c.rest.length := length_skipWhile_le c Byte.isBlank
    omega
  | case4 c d => exact length_skipWhile_le c Byte.isBlank
  | case5 c d => exact length_skipWhile_le c Byte.isBlank

/-- Every token takes at least one byte. -/
theorem length_read_lt {c after : Cursor} {t : Token} (h : c.read = .token t after) :
    after.rest.length < c.rest.length := by
  refine Nat.lt_of_lt_of_le ?_ (length_settle_le c)
  cases scans_of_read h with
  | comment hd => exact length_skipComment_lt hd
  | newline hd | punctuation hd => exact length_skip_one_lt (by simp [hd])
  | string hd =>
    have : 0 < c.settle.rest.length := by simp [hd]
    simp only [length_skip]; omega
  | word hd hb => exact length_skipWhile_lt hd (by simp [Byte.isIdentifierPart, hb])
  | number hd _ hb | operator hd hb => exact length_skipWhile_lt hd hb

/-- All tokens ahead, and the fault that stopped the reading if one did. -/
def tokens (c : Cursor) : List Token × Option Fault :=
  match _h : c.read with
  | .finished _ => ([], none)
  | .fault problem p _ => ([], some (.lex problem p))
  | .token t after =>
    let more := after.tokens
    (t :: more.1, more.2)
termination_by c.rest.length
decreasing_by exact length_read_lt _h

end Cursor

/-- The tokens of a text, or the fault at the first place that starts none. -/
def tokenize (source : Bytes) : Except Fault (List Token) :=
  match (Cursor.ofText source).tokens with
  | (ts, none) => .ok ts
  | (_, some f) => .error f

end Scriptlet

/-
  Scriptlet.Yaml.Cursor

  A place in a YAML text, and the moves over blanks, line breaks and comments.
-/
import Scriptlet.Yaml.Characters

namespace Scriptlet.Yaml

/-- What is left of a text, and how many characters, lines and characters of the
    line are behind. -/
structure Cursor where
  rest : List Char
  index : Nat
  line : Nat
  column : Nat

namespace Cursor

def start (cs : List Char) : Cursor := ⟨cs, 0, 0, 0⟩

/-! ## Moves -/

/-- Moves over characters of one line. -/
def skip (n : Nat) (c : Cursor) : Cursor :=
  { c with rest := c.rest.drop n, index := c.index + n, column := c.column + n }

/-- Moves over a line break; a return and a line feed are one. -/
def breakLine (c : Cursor) : Cursor :=
  let n := if c.rest.take 2 == ['\r', '\n'] then 2 else 1
  ⟨c.rest.drop n, c.index + n, c.line + 1, 0⟩

/-- The characters of the line up to the first that does not suit, and the place
    behind them. -/
def takeWhile (p : Char → Bool) (c : Cursor) : List Char × Cursor :=
  let cs := c.rest.takeWhile fun x => p x && !isBreak x
  (cs, c.skip cs.length)

def skipWhile (p : Char → Bool) (c : Cursor) : Cursor := (c.takeWhile p).2

/-- The end of the line. -/
def lineEnd (c : Cursor) : Cursor := c.skipWhile fun _ => true

def atBreak (c : Cursor) : Bool := c.rest.head?.any isBreak

def atLineEnd (c : Cursor) : Bool := c.rest.isEmpty || c.atBreak

/-- The character that is three times at the start of a line, before a gap, and
    divides documents. -/
def divider? (c : Cursor) : Option Char :=
  if c.column == 0 && startsGap (c.rest.drop 3) then
    if c.rest.take 3 == ['-', '-', '-'] then some '-'
    else if c.rest.take 3 == ['.', '.', '.'] then some '.'
    else none
  else none

/-! ## Gaps -/

/-- Blanks and line breaks: the blanks if there is no line break, the line
    breaks, and the first column of a tab behind one of them. -/
structure Gap where
  blanks : List Char
  breaks : List Char
  tab : Option Nat

/-- What a gap between two words of a scalar stands for: one line break for a
    blank, more for all but the first. -/
def Gap.fold (g : Gap) : List Char :=
  match g.breaks with
  | [] => g.blanks
  | ['\n'] => [' ']
  | '\n' :: more => more
  | breaks => breaks

def gapFrom : Nat → Gap → Cursor → Gap × Cursor
  | 0, g, c => (g, c)
  | fuel + 1, g, c =>
    match c.rest with
    | [] => (g, c)
    | x :: _ =>
      if isBreak x then
        gapFrom fuel { g with blanks := [], breaks := g.breaks ++ [keptBreak x] } c.breakLine
      else if !isBlank x then (g, c)
      -- Blanks behind a line break are indentation, which is not kept.
      else if g.breaks.isEmpty then gapFrom fuel { g with blanks := g.blanks ++ [x] } (c.skip 1)
      else
        let tab := if x == '\t' then some (min c.column (g.tab.getD c.column)) else g.tab
        gapFrom fuel { g with tab } (c.skip 1)

/-- The gap at a place, which may be empty, and the place behind it. -/
def gap (c : Cursor) : Gap × Cursor := gapFrom c.rest.length ⟨[], [], none⟩ c

/-! ## Comments -/

/-- Whether only a gap divides the end of a line from a comment. -/
def commentFollows (c : Cursor) : Bool :=
  match c.rest with
  | x :: more =>
    let plainBreak (y : Char) : Bool := y == '\n' || y == '\r'
    plainBreak x && (more.dropWhile fun y => isBlank y || plainBreak y).head? == some '#'
  | [] => false

/-- The end of the last of the comments that follow each other. -/
def skipComments : Nat → Cursor → Cursor
  | 0, c => c
  | fuel + 1, c =>
    let stop := c.lineEnd
    if stop.commentFollows then skipComments fuel stop.gap.2 else stop

/-- The end of the line if there is nothing but a comment on it. -/
def skipLineComment (c : Cursor) : Cursor :=
  let next := c.skipWhile isBlank
  if next.rest.head? == some '#' then next.lineEnd else c

end Cursor

end Scriptlet.Yaml

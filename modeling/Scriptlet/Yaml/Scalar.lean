/-
  Scriptlet.Yaml.Scalar

  The texts of scalars: plain ones, those in quotes, and those in blocks that
  keep or fold their lines.
-/
import Scriptlet.Number.Numeral
import Scriptlet.Yaml.Cursor

namespace Scriptlet.Yaml.Scalar

/-! ## Plain scalars -/

/-- The word at the start of a text: up to a gap, a colon before a gap and,
    inside brackets, a mark of theirs. -/
def word (flow : Bool) : List Char → List Char
  | [] => []
  | c :: rest =>
    let stops :=
      isBlank c || isBreak c || (c == ':' && startsGap rest) ||
        (flow && ",?[]\x7b\x7d".toList.contains c)
    if stops then [] else c :: word flow rest

/-- The plain scalar at a place, the place behind it and its last gap, and
    whether that gap holds a line break. A scalar goes on over lines, which have
    to be in at least as far as `indent` outside of brackets, up to a comment or
    the end of the document. A tab may not stand for the blanks there. -/
def plain (flow : Bool) (indent : Nat) : Nat → Cursor → Option (List Char × Cursor × Bool)
  | 0, _ => none
  | fuel + 1, c =>
    let first := word flow c.rest
    let c := c.skip first.length
    if c.rest.isEmpty || !startsGap c.rest then some (first, c, false)
    else
      let (gap, next) := c.gap
      -- A tab stands where the indentation should be.
      if gap.tab.any (· < indent) then none
      else if (!flow && next.column < indent) || next.divider?.isSome ||
          next.rest.head? == some '#' || (word flow next.rest).isEmpty then
        some (first, next, !gap.breaks.isEmpty)
      else
        (plain flow indent fuel next).map fun (more, c, broken) =>
          (first ++ gap.fold ++ more, c, broken)

/-! ## Scalars in quotes -/

/-- What a letter behind a backslash stands for, if it needs no digits. -/
def ofLetter? (c : Char) : Option Char :=
  match c with
  | '0' => some '\x00'
  | 'a' => some '\x07'
  | 'b' => some '\x08'
  | 't' => some '\t'
  | '\t' => some '\t'
  | 'n' => some '\n'
  | 'v' => some '\x0b'
  | 'f' => some '\x0c'
  | 'r' => some '\r'
  | 'e' => some '\x1b'
  | ' ' => some ' '
  | '"' => some '"'
  | '\'' => some '\''
  | '\\' => some '\\'
  | 'N' => some '\x85'
  | '_' => some '\xa0'
  | 'L' => some '\u2028'
  | 'P' => some '\u2029'
  | _ => none

/-- The number of hexadecimal digits behind a letter that needs them. -/
def escapeWidth? (c : Char) : Option Nat :=
  match c with
  | 'x' => some 2
  | 'u' => some 4
  | 'U' => some 8
  | _ => none

/-- The character with a code point of hexadecimal digits, unless there is
    none. -/
def ofDigits? (width : Nat) (digits : List Char) : Option Char :=
  match Numeral.readBase 16 (bytes digits) with
  | some code =>
    let isChar := code < 0xD800 || (0xE000 ≤ code && code < 0x110000)
    if digits.length == width && isChar then some (Char.ofNat code) else none
  | none => none

/-- The character that a backslash and what follows it stand for, and the length
    of all of it. -/
def escape? : List Char → Option (Char × Nat)
  | [] => none
  | c :: rest =>
    match escapeWidth? c with
    | some width => (ofDigits? width (rest.take width)).map fun x => (x, width + 2)
    | none => (ofLetter? c).map fun x => (x, 2)

/-- The scalar up to a double quote and the place behind it. A backslash at the
    end of a line takes the line break away. -/
def doubleQuoted : Nat → Cursor → Option (List Char × Cursor)
  | 0, _ => none
  | fuel + 1, c =>
    let before (s : List Char) (c : Cursor) : Option (List Char × Cursor) :=
      (doubleQuoted fuel c).map fun (more, c) => (s ++ more, c)
    if c.divider?.isSome then none
    else
      match c.rest with
      | [] => none
      | '"' :: _ => some ([], c.skip 1)
      | '\\' :: rest =>
        -- The line break is taken away, and further ones are kept.
        if (c.skip 1).atBreak then
          let (gap, c) := (c.skip 1).breakLine.gap
          before gap.breaks c
        else
          match escape? rest with
          | some (x, width) => before [x] (c.skip width)
          | none => none
      | x :: rest =>
        if startsGap (x :: rest) then before c.gap.1.fold c.gap.2 else before [x] (c.skip 1)

/-- The scalar up to a single quote, of which two stand for one, and the place
    behind it. -/
def singleQuoted : Nat → Cursor → Option (List Char × Cursor)
  | 0, _ => none
  | fuel + 1, c =>
    let before (s : List Char) (c : Cursor) : Option (List Char × Cursor) :=
      (singleQuoted fuel c).map fun (more, c) => (s ++ more, c)
    if c.divider?.isSome then none
    else
      match c.rest with
      | [] => none
      | '\'' :: '\'' :: _ => before ['\''] (c.skip 2)
      | '\'' :: _ => some ([], c.skip 1)
      | x :: rest =>
        if startsGap (x :: rest) then before c.gap.1.fold c.gap.2 else before [x] (c.skip 1)

/-! ## Scalars in blocks -/

/-- What becomes of the line breaks at the end of a block. -/
inductive Chomping where
  | strip
  | clip
  | keep
deriving DecidableEq, Repr

def chomping? (c : Char) : Option Chomping :=
  if c == '+' then some .keep else if c == '-' then some .strip else none

/-- The digit of an indentation, which is not zero. -/
def increment? (c : Char) : Option Nat :=
  if '1' ≤ c && c ≤ '9' then some (c.toNat - 48) else none

/-- What the first line of a block says: how it ends, and how much further in it
    is, if it says so. The two may stand in either order. -/
def header (cs : List Char) : Chomping × Option Nat × Nat :=
  let at1 := cs.head?
  let at2 := cs.tail.head?
  match at1.bind chomping?, at1.bind increment? with
  | some k, _ =>
    match at2.bind increment? with
    | some n => (k, some n, 2)
    | none => (k, none, 1)
  | none, some n =>
    match at2.bind chomping? with
    | some k => (k, some n, 2)
    | none => (.clip, some n, 1)
  -- Without a mark all line breaks at the end count as one.
  | none, none => (.clip, none, 0)

/-- The line breaks at a place, the furthest column of the blanks between them,
    and the place behind the blanks of the next line, of which no more than
    `indent` are taken if it is known. A tab may not stand for one. -/
def blockBreaks (indent : Option Nat) : Nat → Nat → Cursor → Option (List Char × Nat × Cursor)
  | 0, _, _ => none
  | fuel + 1, furthest, c =>
    let blanks := (c.takeWhile (· == ' ')).1.length
    let c := c.skip (match indent with
      | some n => min blanks (n - c.column)
      | none => blanks)
    let furthest := max furthest c.column
    if c.rest.head? == some '\t' && indent.all (c.column < ·) then none
    else
      match c.rest with
      | x :: _ =>
        if isBreak x then
          (blockBreaks indent fuel furthest c.breakLine).map fun (more, furthest, c) =>
            (keptBreak x :: more, furthest, c)
        else some ([], furthest, c)
      | [] => some ([], furthest, c)

/-- The lines of a block at `indent`. The line break before a line, and those of
    empty lines behind it, are still to be added; a folded block makes a blank
    of one between two lines that start with a word. -/
def blockLines (literal : Bool) (ending : Chomping) (indent : Nat) :
    Nat → List Char → List Char → Bool → Cursor → Option (List Char × Cursor)
  | 0, _, _, _, _ => none
  | fuel + 1, lineBreak, more, blankLine, c =>
    if c.column != indent || c.rest.isEmpty then
      let tail :=
        match ending with
        | .strip => []
        | .clip => lineBreak
        | .keep => lineBreak ++ more
      some (tail, c)
    else
      let startsBlank := c.rest.head?.any isBlank
      -- Only two lines of words are folded into one.
      let joint :=
        if !literal && !blankLine && !startsBlank && lineBreak == ['\n'] then
          if more.isEmpty then [' '] else []
        else lineBreak
      let (line, c) := c.takeWhile fun _ => true
      let (nextBreak, c) :=
        match c.rest with
        | x :: _ => ([keptBreak x], c.breakLine)
        | [] => ([], c)
      match blockBreaks (some indent) (c.rest.length + 1) 0 c with
      | none => none
      | some (nextMore, _, c) =>
        (blockLines literal ending indent fuel nextBreak nextMore startsBlank c).map
          fun (s, c) => (joint ++ more ++ line ++ s, c)

/-- The scalar in the block behind its mark, inside of a block at `outer`. -/
def block (literal : Bool) (outer : Int) (c : Cursor) : Option (List Char × Cursor) :=
  let (ending, increment, width) := header c.rest
  let c := (c.skip width).skipWhile isBlank
  let c := if c.rest.head? == some '#' then c.lineEnd else c
  if !c.atLineEnd then none
  else
    let c := if c.atBreak then c.breakLine else c
    let given := increment.map fun n => (max outer 0).toNat + n
    match blockBreaks given (c.rest.length + 1) 0 c with
    | none => none
    | some (more, furthest, c) =>
      let indent := given.getD (max furthest (max (outer + 1).toNat 1))
      blockLines literal ending indent (c.rest.length + 1) [] more false c

end Scriptlet.Yaml.Scalar

/-
  Scriptlet.Yaml.Token.Lexer

  Splitting a YAML text into tokens. The lexer keeps the columns of the blocks
  it is in, and for each level of brackets the place where a key may have
  started: only the colon behind a key tells that it is one, so the tokens in
  front of a key are put in afterwards.
-/
import Scriptlet.Yaml.Token
import Scriptlet.Yaml.Scalar

namespace Scriptlet.Yaml

/-- A place where a key may have started: the number of its token, where it is,
    and whether nothing else may stand there. -/
structure PossibleKey where
  number : Nat
  index : Nat
  line : Nat
  column : Nat
  required : Bool

/-- The state of the lexer: the tokens so far, the newest first; the columns of
    the blocks, the innermost first; the possible key of each level of brackets,
    the innermost first and that of the blocks last; and whether a key may start
    here. -/
structure Lexer where
  cursor : Cursor
  tokens : List Token
  columns : List Nat
  keys : List (Option PossibleKey)
  keyAllowed : Bool

namespace Lexer

def start (cs : List Char) : Lexer := ⟨Cursor.start cs, [], [], [none], true⟩

/-- Whether the place is inside brackets, where indentation is nothing. -/
def inFlow (l : Lexer) : Bool := 1 < l.keys.length

/-- The column of the innermost block, one before the first if there is none. -/
def indent (l : Lexer) : Int :=
  match l.columns with
  | [] => -1
  | column :: _ => column

def emit (l : Lexer) (t : Token) : Lexer := { l with tokens := t :: l.tokens }

/-- Puts tokens in before the one with a number. -/
def insert (l : Lexer) (number : Nat) (ts : List Token) : Lexer :=
  let later := l.tokens.length - number
  { l with tokens := l.tokens.take later ++ ts.reverse ++ l.tokens.drop later }

/-! ## Blocks -/

/-- Closes the blocks that are further in than a column. -/
def unroll (l : Lexer) (column : Int) : Lexer :=
  -- Indentation means nothing inside brackets.
  if l.inFlow then l
  else
    let kept := l.columns.dropWhile fun (i : Nat) => column < i
    let closed := List.replicate (l.columns.length - kept.length) Token.blockEnd
    { l with columns := kept, tokens := closed ++ l.tokens }

/-- Opens a block at a column further in than the innermost, before the token
    with a number. -/
def roll (l : Lexer) (column number : Nat) (t : Token) : Lexer :=
  if l.inFlow || column ≤ l.indent then l
  else { l.insert number [t] with columns := column :: l.columns }

/-- Opens a block here. -/
def rollHere (l : Lexer) (t : Token) : Lexer := l.roll l.cursor.column l.tokens.length t

/-! ## Keys -/

def setKey (l : Lexer) (key : Option PossibleKey) : Lexer := { l with keys := key :: l.keys.tail }

/-- Gives the possible key up. A required one may not be. -/
def dropKey (l : Lexer) : Option Lexer :=
  if (l.keys.head?.join).any PossibleKey.required then none else some (l.setKey none)

/-- Notes that a key may start here. In a block it is required where the entries
    of the block start. -/
def noteKey (l : Lexer) : Option Lexer :=
  if l.keyAllowed then
    let c := l.cursor
    let required := !l.inFlow && l.indent == c.column
    -- There is one possible key for each level of brackets, the latest.
    l.dropKey.map fun l => l.setKey (some ⟨l.tokens.length, c.index, c.line, c.column, required⟩)
  else some l

/-- How far behind the start of a key its colon may be. -/
def keyReach : Nat := 1024

/-- Whether a colon here would make a key of what started there: it is on the
    same line, and near enough. -/
def reaches (l : Lexer) (k : PossibleKey) : Bool :=
  k.line == l.cursor.line && l.cursor.index ≤ k.index + keyReach

/-! ## Tokens of one character -/

/-- Moves over a token of one character, and a comment behind it. -/
def take (l : Lexer) (t : Token) : Lexer :=
  { l.emit t with cursor := (l.cursor.skip 1).skipLineComment }

/-- Opens a bracket. -/
def openFlow (l : Lexer) (t : Token) : Option Lexer :=
  l.noteKey.map fun l => { l.take t with keys := none :: l.keys, keyAllowed := true }

/-- Closes a bracket; one too many is left to who reads the tokens. -/
def closeFlow (l : Lexer) (t : Token) : Option Lexer :=
  l.dropKey.map fun l =>
    { l.take t with keys := if l.inFlow then l.keys.tail else l.keys, keyAllowed := false }

def comma (l : Lexer) : Option Lexer :=
  l.dropKey.map fun l => { l.take .comma with keyAllowed := true }

/-- The dash of an item, behind which a comment belongs to the item. -/
def item (l : Lexer) : Option Lexer :=
  if l.inFlow || l.keyAllowed then
    (l.rollHere .listStart).dropKey.map fun l =>
      { l.emit .item with cursor := l.cursor.skip 1, keyAllowed := true }
  else none

/-- The question mark of a key. -/
def explicitKey (l : Lexer) : Option Lexer :=
  if l.inFlow || l.keyAllowed then
    (l.rollHere .mappingStart).dropKey.map fun l =>
      { l.take .key with keyAllowed := !l.inFlow }
  else none

/-- The colon of a value without a key on its line. -/
def looseValue (l : Lexer) : Option Lexer :=
  if l.inFlow || l.keyAllowed then
    let l := l.rollHere .mappingStart
    some { l.take .value with keyAllowed := !l.inFlow }
  else none

/-- The colon of a value. What may have been a key is one. -/
def value (l : Lexer) : Option Lexer :=
  match l.keys.head?.join with
  | none => l.looseValue
  | some k =>
    if l.reaches k then
      -- The mapping starts in front of its first key, which was read already.
      let l := ((l.insert k.number [.key]).roll k.column k.number .mappingStart).setKey none
      some { l.take .value with keyAllowed := false }
    -- What has to be a key is not one.
    else if k.required then none
    else (l.setKey none).looseValue

/-! ## Anchors, tags and scalars -/

/-- The name of an anchor, and the place behind it. -/
def name? (c : Cursor) : Option (List Char × Cursor) :=
  let (cs, c) := c.takeWhile isNameChar
  let ended := startsGap c.rest || c.rest.head?.any fun x => "?:,]\x7d%@\x60".toList.contains x
  if cs.isEmpty || !ended then none else some (cs, c)

/-- The handle in front of a tag: an exclamation mark, and more up to a second
    one if there is a second. -/
def tagHandle (c : Cursor) : List Char × Cursor :=
  let (cs, c) := (c.skip 1).takeWhile isNameChar
  if c.rest.head? == some '!' then ('!' :: cs ++ ['!'], c.skip 1) else ('!' :: cs, c)

/-- The handle and the suffix of a tag, and the place behind it. A tag in
    angle brackets has no handle. -/
def tagParts? (c : Cursor) : Option (List Char × List Char × Cursor) :=
  if c.rest.take 2 == ['!', '<'] then
    let (suffix, c) := (c.skip 2).takeWhile isTagChar
    if suffix.isEmpty || c.rest.head? != some '>' then none else some ([], suffix, c.skip 1)
  else
    let (handle, c) := tagHandle c
    let (suffix, c) := c.takeWhile isTagChar
    if 1 < handle.length && handle.getLast? == some '!' then
      if suffix.isEmpty then none else some (handle, suffix, c)
    else if handle.length == 1 && suffix.isEmpty then some ([], handle, c)
    else some (['!'], handle.tail ++ suffix, c)

/-- Emits a token that may be, or be part of, a key. -/
def content (l : Lexer) (read : Cursor → Option (Token × Cursor)) : Option Lexer := do
  let l ← l.noteKey
  let (t, c) ← read l.cursor
  return { l.emit t with cursor := c.skipLineComment, keyAllowed := false }

def anchor (l : Lexer) : Option Lexer :=
  l.content fun c => (name? (c.skip 1)).map fun (name, c) => (.anchor name, c)

def reference (l : Lexer) : Option Lexer :=
  l.content fun c => (name? (c.skip 1)).map fun (name, c) => (.reference name, c)

def tag (l : Lexer) : Option Lexer :=
  l.content fun c => do
    let (handle, suffix, c) ← tagParts? c
    if startsGap c.rest then some (.tag handle suffix, c) else none

def quoted (l : Lexer) (double : Bool) : Option Lexer :=
  l.content fun c =>
    let fuel := c.rest.length + 1
    let read := if double then Scalar.doubleQuoted fuel else Scalar.singleQuoted fuel
    (read (c.skip 1)).map fun (s, c) => (.scalar s false, c)

/-- A plain scalar. Behind one that ends with its line a key may start. -/
def plain (l : Lexer) : Option Lexer := do
  let l ← l.noteKey
  let (s, c, broken) ←
    Scalar.plain l.inFlow (l.indent + 1).toNat (l.cursor.rest.length + 1) l.cursor
  return { l.emit (.scalar s true) with
    cursor := if broken then c else c.skipLineComment, keyAllowed := broken }

/-- A scalar in a block. -/
def block (l : Lexer) (literal : Bool) : Option Lexer := do
  let l ← l.dropKey
  let (s, c) ← Scalar.block literal l.indent (l.cursor.skip 1)
  return { l.emit (.scalar s false) with cursor := c, keyAllowed := true }

/-! ## Documents -/

/-- Closes everything before a token outside of documents. -/
def leave (l : Lexer) : Option Lexer :=
  (l.unroll (-1)).dropKey.map fun l => { l with keyAllowed := false }

/-- A number of a version, of one or two digits. -/
def versionNumber? (c : Cursor) : Option (Nat × Cursor) :=
  let (ds, c) := c.takeWhile Char.isDigit
  if ds.isEmpty || 2 < ds.length then none else some (Bytes.value (bytes ds), c)

/-- The version of the language that a document is written in. -/
def version? (c : Cursor) : Option (Token × Cursor) := do
  let (major, c) ← versionNumber? c
  let (minor, c) ← if c.rest.head? == some '.' then versionNumber? (c.skip 1) else none
  return (.version major minor, c)

/-- What a handle of tags stands for. -/
def handle? (c : Cursor) : Option (Token × Cursor) :=
  let (handle, next) := tagHandle c
  let wellFormed := handle.length == 1 || handle.getLast? == some '!'
  if c.rest.head? == some '!' && wellFormed && next.rest.head?.any isBlank then
    let (meaning, c) := (next.skipWhile isBlank).takeWhile isTagChar
    if meaning.isEmpty || !startsGap c.rest then none else some (.handle handle meaning, c)
  else none

/-- The directive behind a percent sign, up to the end of its line. -/
def directive (l : Lexer) : Option Lexer := do
  let l ← l.leave
  let (name, c) := (l.cursor.skip 1).takeWhile isNameChar
  let c' := c.skipWhile isBlank
  let (t, c) ←
    if !startsGap c.rest then none
    else if name == "YAML".toList then version? c'
    else if name == "TAG".toList then handle? c'
    else none
  let c := c.skipLineComment.skipWhile isBlank
  if c.atLineEnd then return { l.emit t with cursor := if c.atBreak then c.breakLine else c }
  else none

/-- The line that divides documents. -/
def divider (l : Lexer) (t : Token) : Option Lexer :=
  l.leave.map fun l => { l.emit t with cursor := l.cursor.skip 3 }

/-! ## The text -/

/-- Moves over blanks, line breaks and comments. Where a key may start, tabs do
    not count as blanks. -/
def skipGap : Nat → Lexer → Lexer
  | 0, l => l
  | fuel + 1, l =>
    let tabs := l.inFlow || !l.keyAllowed
    let c := l.cursor.skipWhile fun x => x == ' ' || (tabs && x == '\t')
    let c := if c.rest.head? == some '#' then c.skipComments (c.rest.length + 1) else c
    if c.atBreak then
      -- A key may start on every line of a block.
      skipGap fuel { l with cursor := c.breakLine, keyAllowed := l.keyAllowed || !l.inFlow }
    else { l with cursor := c }

/-- Whether a plain scalar may start with a character, given what follows. -/
def startsPlain (c : Char) (rest : List Char) : Bool :=
  if c == '-' || c == '?' || c == ':' then !startsGap rest
  else !isBlank c && !",[]\x7b\x7d#&*!|>'\"%@\x60".toList.contains c

/-- The token that starts with a character inside a document. -/
def inDocument (l : Lexer) (c : Char) (rest : List Char) : Option Lexer :=
  if c == '[' then l.openFlow .flowListStart
  else if c == '\x7b' then l.openFlow .flowMappingStart
  else if c == ']' then l.closeFlow .flowListEnd
  else if c == '\x7d' then l.closeFlow .flowMappingEnd
  else if c == ',' then l.comma
  else if c == '-' && startsGap rest then l.item
  else if c == '?' && (l.inFlow || startsGap rest) then l.explicitKey
  else if c == ':' && (l.inFlow || startsGap rest) then l.value
  else if c == '*' then l.reference
  else if c == '&' then l.anchor
  else if c == '!' then l.tag
  else if c == '|' && !l.inFlow then l.block true
  else if c == '>' && !l.inFlow then l.block false
  else if c == '\'' then l.quoted false
  else if c == '"' then l.quoted true
  else if startsPlain c rest then l.plain
  else none

/-- Blocks inside each other, and brackets inside each other, at most. -/
def maxDepth : Nat := 10000

def isTooDeep (l : Lexer) : Bool := maxDepth < l.columns.length || maxDepth + 1 < l.keys.length

/-- Emits the next token, and what indentation says before it. -/
def next (l : Lexer) : Option Lexer :=
  let l := skipGap (l.cursor.rest.length + 1) l
  let l := l.unroll l.cursor.column
  match l.cursor.rest, l.cursor.divider? with
  | [], _ => l.leave.map (·.emit .streamEnd)
  | _, some '-' => l.divider .documentStart
  | _, some _ => l.divider .documentEnd
  | c :: rest, none =>
    -- A percent sign elsewhere is the start of no token.
    if c == '%' && l.cursor.column == 0 then l.directive
    else (l.inDocument c rest).filter fun l => !l.isTooDeep

/-- The tokens of a text up to its end, or up to where no token starts; then
    also the numbers of the tokens that may still have been keys. -/
def all : Nat → Lexer → List Token × Option (List Nat)
  | 0, l => (l.tokens.reverse, some [])
  | fuel + 1, l =>
    if l.tokens.head? == some .streamEnd then (l.tokens.reverse, none)
    else
      match l.next with
      | some l => all fuel l
      | none =>
        let pending := (l.keys.filterMap id).filter l.reaches
        (l.tokens.reverse, some (pending.map PossibleKey.number))

end Lexer

end Scriptlet.Yaml

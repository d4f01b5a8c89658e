/-
  Scriptlet.Token

  Tokens: their kinds, positions, reserved words, operator precedence and the
  classes of bytes they are made of.
-/
import Scriptlet.Text.Quoted
import Scriptlet.Number.Decimal

namespace Scriptlet

/-! ## Positions -/

/-- A place in a text. Lines count from one; a column counts bytes. -/
structure Position where
  line : Nat
  column : Nat
deriving DecidableEq, Repr, Inhabited

namespace Position

/-- The place after one more byte, with columns counted from zero. -/
def step (p : Position) (b : UInt8) : Position :=
  if b == 10 then ⟨p.line + 1, 0⟩ else ⟨p.line, p.column + 1⟩

/-- The place after a run of bytes. -/
def advance (p : Position) (bs : Bytes) : Position := bs.foldl step p

end Position

/-! ## Byte classes -/

namespace Byte

def isIdentifierStart (b : UInt8) : Bool :=
  b == 95 || (97 ≤ b && b ≤ 122) || (65 ≤ b && b ≤ 90)

def isIdentifierPart (b : UInt8) : Bool := isIdentifierStart b || Bytes.isDigit b

/-- A digit or a point. -/
def isNumberPart (b : UInt8) : Bool := Bytes.isDigit b || b == 46

/-- One of `+ - * / % < > = ! & | ^ ~`. -/
def isOperator (b : UInt8) : Bool := (text "+-*/%<>=!&|^~").contains b

/-- One of the brackets, or `. , : ;`. -/
def isPunctuation (b : UInt8) : Bool := (text "\x7b\x7d()[].,:;").contains b

/-- Space, tab, carriage return, vertical tab or form feed. -/
def isBlank (b : UInt8) : Bool := b == 32 || b == 9 || b == 13 || b == 11 || b == 12

end Byte

/-! ## Tokens -/

/-- The name of a variable, a function or a parameter. -/
abbrev Name := Bytes

/-- What a token is. Numbers keep the text they were written with beside their
    value; a string holds the text between its quotes, backslashes included. -/
inductive Lexeme where
  | identifier (name : Name)
  | keyword (word : Bytes)
  | punctuation (mark : Bytes)
  | operator (symbol : Bytes)
  | integer (literal : Bytes) (value : Int64)
  | float (literal : Bytes) (value : Double)
  | string (contents : Bytes)
deriving DecidableEq, Repr

/-- A lexeme and the place of its first byte, columns counted from one. -/
structure Token where
  lexeme : Lexeme
  position : Position
deriving DecidableEq, Repr

/-- The reserved words. -/
def keywords : List Bytes :=
  [text "if", text "else", text "elif", text "end", text "while", text "for", text "break",
   text "func", text "sprite", text "return", text "True", text "False", text "nil", text "and",
   text "or", text "not"]

/-- Whether a word is reserved. -/
def isKeyword (word : Bytes) : Bool := keywords.contains word

/-- Whether a byte string has the shape of an identifier. -/
def isIdentifier : Bytes → Bool
  | [] => false
  | b :: bs => Byte.isIdentifierStart b && bs.all Byte.isIdentifierPart

/-- Whether a byte string can name a variable: an identifier that is not
    reserved. -/
def isVariableName (name : Bytes) : Bool := isIdentifier name && !isKeyword name

namespace Lexeme

/-- The mark of the separator between statements. -/
def newline : Bytes := [10]

/-- The text of a lexeme, a string without its quotes. -/
def literal : Lexeme → Bytes
  | .identifier s | .keyword s | .punctuation s | .operator s | .string s => s
  | .integer s _ | .float s _ => s

/-- The name of the kind of a lexeme. -/
def kind : Lexeme → Bytes
  | .identifier _ => text "Identifier"
  | .keyword _ => text "Keyword"
  | .punctuation _ => text "Punctuation"
  | .operator _ => text "Operator"
  | .integer _ _ => text "Integer"
  | .float _ _ => text "Float"
  | .string _ => text "String"

/-- A word with the shape of an identifier, reserved or not. -/
def word (s : Bytes) : Lexeme := if isKeyword s then .keyword s else .identifier s

/-- The separator between statements. -/
def separator : Lexeme := .punctuation newline

end Lexeme

/-- How tightly a binary operator binds; zero for what is no binary operator. -/
def precedence (symbol : Bytes) : Nat :=
  if symbol == text "=" then 1
  else if symbol == text "||" then 2
  else if symbol == text "&&" then 3
  else if [text "<", text ">", text "<=", text ">=", text "==", text "!="].contains symbol then 7
  else if symbol == text "+" || symbol == text "-" then 10
  else if symbol == text "*" || symbol == text "/" || symbol == text "%" then 20
  else 0

namespace Token

/-- The precedence of an operator token, zero for other tokens. -/
def precedence (t : Token) : Nat :=
  match t.lexeme with
  | .operator symbol => Scriptlet.precedence symbol
  | _ => 0

/-- The middle part of a token's description. -/
def payload (t : Token) : Bytes :=
  match t.lexeme with
  | .integer _ n => Bytes.ofInt n.toInt
  | .float _ d => d.general
  | l => Quoted.quote l.literal

/-- A token on one line: kind, value and position. -/
def describe (t : Token) : Bytes :=
  text "Token(" ++ t.lexeme.kind ++ text ", " ++ t.payload ++ text ", Line: " ++
    Bytes.ofNat t.position.line ++ text ", Column: " ++ Bytes.ofNat t.position.column ++ text ")"

end Token

end Scriptlet

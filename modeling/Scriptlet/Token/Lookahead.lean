/-
  Scriptlet.Token.Lookahead

  A reader of tokens with one token of lookahead.
-/
import Scriptlet.Token.Lexer

namespace Scriptlet

/-- A cursor and the token read ahead of it, if one was. -/
structure Lexer where
  cursor : Cursor
  ahead : Option Token

namespace Lexer

def ofText (source : Bytes) : Lexer := ⟨.ofText source, none⟩

/-- The next token without taking it, or `none` at the end. -/
def peek (l : Lexer) : Except Fault (Option Token) × Lexer :=
  match l.ahead with
  | some t => (.ok (some t), l)
  | none =>
    match l.cursor.read with
    | .token t after => (.ok (some t), ⟨after, some t⟩)
    | .finished after => (.ok none, ⟨after, none⟩)
    -- The fault is not kept: the next look starts behind it.
    | .fault problem p after => (.error (.lex problem p), ⟨after, none⟩)

/-- Takes the next token, or gives `none` at the end. -/
def next (l : Lexer) : Except Fault (Option Token) × Lexer :=
  match l.peek with
  | (.ok t, l') => (.ok t, { l' with ahead := none })
  | (.error f, l') => (.error f, l')

/-- Whether there is a next token. -/
def hasNext (l : Lexer) : Except Fault Bool × Lexer :=
  match l.peek with
  | (.ok t, l') => (.ok t.isSome, l')
  | (.error f, l') => (.error f, l')

/-- All tokens still to come, and the fault that ends them if one does. -/
def tokens (l : Lexer) : List Token × Option Fault :=
  match l.ahead with
  | some t =>
    let more := l.cursor.tokens
    (t :: more.1, more.2)
  | none => l.cursor.tokens

/-- The reader after `n` tokens. -/
def drop (l : Lexer) : Nat → Lexer
  | 0 => l
  | n + 1 => l.next.2.drop n

end Lexer

end Scriptlet

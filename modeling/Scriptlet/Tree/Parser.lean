/-
  Scriptlet.Tree.Parser

  Reading tokens as a program: recursive descent, with precedence climbing for
  the binary operators. The first fault ends the reading.
-/
import Scriptlet.Tree
import Scriptlet.Token.Lookahead

namespace Scriptlet

/-! ## Streams and parsers -/

/-- The tokens ahead, the fault that stands behind them if there is one, and
    the position of the last token taken. -/
structure Stream where
  tokens : List Token
  ending : Option Fault
  last : Position

/-- What a parser gives: a result or a fault, with the stream behind it, or
    nothing because its fuel ran out. -/
inductive Reply (α : Type) where
  | ok (value : α) (rest : Stream)
  | fail (fault : Fault) (rest : Stream)
  | starved

/-- A reader of tokens. -/
def Parser (α : Type) : Type := Stream → Reply α

namespace Parser

instance : Monad Parser where
  pure a := fun s => .ok a s
  bind p f := fun s =>
    match p s with
    | .ok a s => f a s
    | .fail fault s => .fail fault s
    | .starved => .starved

/-- The parser without fuel. -/
def starve {α : Type} : Parser α := fun _ => .starved

/-- The next token without taking it, or `none` at the end. -/
def peek : Parser (Option Token) := fun s =>
  match s.tokens, s.ending with
  | t :: _, _ => .ok (some t) s
  | [], some fault => .fail fault s
  | [], none => .ok none s

/-- Takes the next token, or gives `none` at the end. -/
def next : Parser (Option Token) := fun s =>
  match s.tokens, s.ending with
  | t :: ts, _ => .ok (some t) { s with tokens := ts, last := t.position }
  | [], some fault => .fail fault s
  | [], none => .ok none s

/-- Takes the next token and gives `a`. -/
def take {α : Type} (a : α) : Parser α := do
  let _ ← next
  return a

/-- Refuses a token, or the end of the input behind the last token taken. -/
def refuse {α : Type} (token? : Option Token) (problem : ParseProblem) : Parser α := fun s =>
  match token? with
  | some t => .fail (.parse problem t.position false) s
  | none => .fail (.parse problem s.last true) s

/-! ## Single tokens -/

/-- Whether the next token is the lexeme `l`. -/
def isNext (l : Lexeme) : Parser Bool := do
  return (← peek).any fun t => t.lexeme == l

/-- Takes the punctuation `m` and nothing else. -/
def mark (m : Bytes) : Parser Unit := do
  let t? ← peek
  if t?.any fun t => t.lexeme == .punctuation m then take ()
  else refuse t? (.expectedPunctuation m (t?.map Token.lexeme))

/-- Takes `word` if it comes next. -/
def optionalKeyword (word : Bytes) : Parser Unit := do
  if ← isNext (.keyword word) then take () else return ()

/-- The separator after a statement, which the end of the input replaces. -/
def separator : Parser Unit := do
  if (← peek).isSome then mark Lexeme.newline else return ()

def identifier : Parser Name := do
  match ← next with
  | some ⟨.identifier name, _⟩ => return name
  | t? => refuse t? (.expectedIdentifier (t?.map Token.lexeme))

/-! ## Lists in parentheses -/

/-- The items up to the closing parenthesis. -/
def items {α : Type} (item : Parser α) : Nat → Bool → Parser (List α)
  | 0, _ => starve
  | fuel + 1, first => do
    let element : Parser (List α) := do
      let x ← item
      let xs ← items item fuel false
      return x :: xs
    if ← isNext (.punctuation (text ")")) then return []
    else if first then element
    else do
      mark (text ",")
      -- The comma was the last one if the parenthesis follows.
      if ← isNext (.punctuation (text ")")) then return [] else element

/-- Items in parentheses with commas between them; one comma may follow the
    last item. -/
def delimited {α : Type} (item : Parser α) (fuel : Nat) : Parser (List α) := do
  mark (text "(")
  let xs ← items item fuel true
  mark (text ")")
  return xs

/-- The first name that stands twice. -/
def repeated? (seen : List Name) : List Name → Option Name
  | [] => none
  | name :: names => if seen.contains name then some name else repeated? (name :: seen) names

/-! ## The grammar -/

/-- The node of a binary operator between two operands. -/
def combine (symbol : Bytes) (left right : Node) : Node :=
  if symbol == text "=" then .assign left right else .binary (.ofSymbol symbol) left right

/-- The words that close a block: `end`, and in the branch of a conditional
    the words that start the next branch. -/
def closes (branching : Bool) : Lexeme → Bool
  | .keyword word =>
    word == text "end" || (branching && (word == text "else" || word == text "elif"))
  | _ => false

mutual

/-- An expression. -/
def expression : Nat → Parser Node
  | 0 => starve
  | fuel + 1 => do
    let left ← atom fuel
    climb fuel left 0

/-- The operators after `left` that bind more tightly than `level`. Operators
    of one precedence associate to the left. -/
def climb : Nat → Node → Nat → Parser Node
  | 0, _, _ => starve
  | fuel + 1, left, level => do
    match ← peek with
    | some ⟨.operator symbol, position⟩ =>
      -- A run of operator bytes need not be an operator.
      if precedence symbol = 0 then
        refuse (some ⟨.operator symbol, position⟩) (.unknownOperator symbol)
      else if precedence symbol ≤ level then return left
      else do
        let _ ← next
        let operand ← atom fuel
        -- What binds tighter goes to the operand, and the rest stands behind the whole.
        let right ← climb fuel operand (precedence symbol)
        climb fuel (combine symbol left right) level
    | _ => return left

/-- An operand with the calls that follow it. -/
def atom : Nat → Parser Node
  | 0 => starve
  | fuel + 1 => do
    let callee ← operand fuel
    calls fuel callee

/-- The calls of `callee` that follow. -/
def calls : Nat → Node → Parser Node
  | 0, _ => starve
  | fuel + 1, callee => do
    if ← isNext (.punctuation (text "(")) then do
      let arguments ← delimited (expression fuel) fuel
      calls fuel (.call callee arguments)
    else return callee

/-- A literal, a name, a group, a prefix operator or a construct that starts
    with a keyword. -/
def operand : Nat → Parser Node
  | 0 => starve
  | fuel + 1 => do
    match ← peek with
    | none => refuse none .expectedExpression
    | some ⟨.identifier name, _⟩ => take (.ident name)
    | some ⟨.string contents, _⟩ => take (.str contents)
    | some ⟨.integer _ n, _⟩ => take (.int n)
    | some ⟨.float _ d, _⟩ => take (.float d)
    | some ⟨.operator symbol, position⟩ =>
      if symbol == text "!" || symbol == text "-" then do
        let _ ← next
        -- A prefix binds tighter than every operator between operands.
        let x ← atom fuel
        return .unary (.ofSymbol symbol) x
      else
        refuse (some ⟨.operator symbol, position⟩) (.unexpectedToken (.operator symbol))
    | some ⟨.punctuation m, position⟩ =>
      if m == text "(" then do
        let _ ← next
        let x ← expression fuel
        mark (text ")")
        return x
      else refuse (some ⟨.punctuation m, position⟩) (.unexpectedToken (.punctuation m))
    | some ⟨.keyword word, position⟩ =>
      if word == text "True" then take (.bool true)
      else if word == text "False" then take (.bool false)
      else if word == text "if" then do
        let _ ← next
        let condition ← expression fuel
        let block ← body fuel true
        let tail ← tail fuel
        return .branch condition block tail
      else if word == text "while" then do
        let _ ← next
        let condition ← expression fuel
        let block ← body fuel false
        return .loop condition block
      else if word == text "return" then do
        let _ ← next
        let x ← expression fuel
        return .ret x
      else if word == text "func" then do
        let _ ← next
        function fuel
      else refuse (some ⟨.keyword word, position⟩) (.unexpectedToken (.keyword word))

/-- A function after its keyword. An inline body is returned. -/
def function : Nat → Parser Node
  | 0 => starve
  | fuel + 1 => do
    let name ← identifier
    -- A parameter that stands twice is reported at the parenthesis.
    let opening ← peek
    let parameters ← delimited identifier fuel
    match repeated? [] parameters with
    | some parameter => refuse opening (.duplicateParameter parameter name)
    | none => do
      match ← body fuel false with
      | .mk [x] true => return .func name parameters (.mk [.ret x] true)
      | block => return .func name parameters block

/-- The branches of a conditional after the first. -/
def tail : Nat → Parser Tail
  | 0 => starve
  | fuel + 1 => do
    if ← isNext (.keyword (text "elif")) then do
      let _ ← next
      let condition ← expression fuel
      let block ← body fuel true
      let rest ← tail fuel
      return .elif condition block rest
    else if ← isNext (.keyword (text "else")) then do
      let _ ← next
      let block ← body fuel false
      return .else block
    else return .none

/-- A body: statements on lines of their own, or one inline expression that
    `end` may close. -/
def body : Nat → Bool → Parser Block
  | 0, _ => starve
  | fuel + 1, branching => do
    if ← isNext .separator then do
      let _ ← next
      let block ← statements fuel branching
      return .mk block false
    else do
      let x ← expression fuel
      optionalKeyword (text "end")
      return .mk [x] true

/-- Statements up to a closing word. Only `end` is taken. -/
def statements : Nat → Bool → Parser (List Node)
  | 0, _ => starve
  | fuel + 1, branching => do
    match ← peek with
    -- A block has to be closed, while a program ends with its text.
    | none => refuse none .unclosedBlock
    | some t =>
      if closes branching t.lexeme then do
        optionalKeyword (text "end")
        return []
      else do
        let x ← expression fuel
        separator
        let xs ← statements fuel branching
        return x :: xs

end

/-- All statements of a program. -/
def program : Nat → Parser (List Node)
  | 0 => starve
  | fuel + 1 => do
    if (← peek).isSome then do
      let x ← expression fuel
      separator
      let xs ← program fuel
      return x :: xs
    else return []

end Parser

/-! ## Programs -/

namespace Stream

/-- Fuel that suffices for a stream: no parser goes through more than a few
    levels of the grammar between two tokens. -/
def fuel (s : Stream) : Nat := 16 * (s.tokens.length + 1)

/-- The program that the stream holds, and the stream behind the last token
    taken. -/
def parse (s : Stream) : Except Fault Program × Stream :=
  match Parser.program s.fuel s with
  | .ok statements rest => (.ok ⟨statements⟩, rest)
  | .fail fault rest => (.error fault, rest)
  -- This does not happen with the fuel of the stream.
  | .starved => (.error (.parse .expectedExpression s.last true), s)

end Stream

/-- The tokens still to come from a reader. -/
def Lexer.stream (l : Lexer) : Stream :=
  let ahead := l.tokens
  ⟨ahead.1, ahead.2, ⟨0, 0⟩⟩

/-- Parses what a reader still has. Behind a lexical fault the reader stands
    where reading stopped, otherwise behind the last token taken. -/
def Lexer.parse (l : Lexer) : Except Fault Program × Lexer :=
  let s := l.stream
  let (result, rest) := s.parse
  let after := l.drop (s.tokens.length - rest.tokens.length)
  match result with
  -- The parser stopped in front of the fault, and the reader goes on to it.
  | .error (.lex _ _) => (result, after.peek.2)
  | _ => (result, after)

/-- The program that a text holds. -/
def parse (source : Bytes) : Except Fault Program := (Lexer.ofText source).stream.parse.1

end Scriptlet

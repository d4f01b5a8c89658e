/-
  Scriptlet.Tree

  Syntax trees. Every construct is an expression, so there is one type of
  nodes, with blocks and the tails of conditionals beside it.
-/
import Scriptlet.Token

namespace Scriptlet

/-! ## Operators -/

/-- A prefix operator. Trees built by hand may hold operators that the language
    does not have. -/
inductive UnaryOp where
  | not
  | negate
  | unknown (symbol : Bytes)
deriving DecidableEq, Repr

/-- A binary operator other than assignment. -/
inductive BinaryOp where
  | or
  | and
  | less
  | greater
  | lessEq
  | greaterEq
  | equal
  | notEqual
  | add
  | sub
  | mul
  | div
  | rem
  | unknown (symbol : Bytes)
deriving DecidableEq, Repr

namespace UnaryOp

def symbol : UnaryOp → Bytes
  | .not => text "!"
  | .negate => text "-"
  | .unknown s => s

/-- The operator spelled by a symbol. -/
def ofSymbol (s : Bytes) : UnaryOp :=
  if s == text "!" then .not else if s == text "-" then .negate else .unknown s

end UnaryOp

namespace BinaryOp

def symbol : BinaryOp → Bytes
  | .or => text "||"
  | .and => text "&&"
  | .less => text "<"
  | .greater => text ">"
  | .lessEq => text "<="
  | .greaterEq => text ">="
  | .equal => text "=="
  | .notEqual => text "!="
  | .add => text "+"
  | .sub => text "-"
  | .mul => text "*"
  | .div => text "/"
  | .rem => text "%"
  | .unknown s => s

/-- The operators of the language. -/
def all : List BinaryOp :=
  [.or, .and, .less, .greater, .lessEq, .greaterEq, .equal, .notEqual, .add, .sub, .mul, .div, .rem]

/-- The operator spelled by a symbol. -/
def ofSymbol (s : Bytes) : BinaryOp := (all.find? fun op => op.symbol == s).getD (.unknown s)

end BinaryOp

/-! ## Nodes -/

mutual

/-- An expression. `program`, `block`, `otherwise` and `absent` do not come out
    of the parser in expression position; they exist in trees built by hand. -/
inductive Node where
  | program (statements : List Node)
  | block (body : Block)
  | int (value : Int64)
  | float (value : Double)
  | str (contents : Bytes)
  | bool (value : Bool)
  | ident (name : Name)
  | unary (op : UnaryOp) (operand : Node)
  | binary (op : BinaryOp) (left right : Node)
  | assign (target value : Node)
  | call (callee : Node) (arguments : List Node)
  | func (name : Name) (parameters : List Name) (body : Block)
  | branch (condition : Node) (body : Block) (tail : Tail)
  | otherwise (body : Block)
  | loop (condition : Node) (body : Block)
  | ret (value : Node)
  | absent

/-- A body: one inline expression or a sequence of statements. -/
inductive Block where
  | mk (statements : List Node) (inline : Bool)

/-- What follows the first branch of a conditional. -/
inductive Tail where
  | none
  | elif (condition : Node) (body : Block) (tail : Tail)
  | else (body : Block)

end

instance : Inhabited Node := ⟨.absent⟩

instance : Inhabited Block := ⟨.mk [] false⟩

instance : Inhabited Tail := ⟨.none⟩

namespace Block

def statements : Block → List Node
  | .mk ss _ => ss

def inline : Block → Bool
  | .mk _ i => i

end Block

/-- A whole script: its statements in order. -/
structure Program where
  statements : List Node

/-- A declared function: the part of a declaration that a closure keeps. -/
structure Function where
  name : Name
  parameters : List Name
  body : Block

end Scriptlet

/-
  Scriptlet.Tree.Render

  The text of a tree. Operators are parenthesised, blocks stand on lines of
  their own, and the text of a parsed program parses again.
-/
import Scriptlet.Tree

namespace Scriptlet

/-- A float literal: positional digits with a point. The infinity is a run of
    digits too long for the range, which reads as the infinity again. -/
def renderFloat (d : Double) : Bytes :=
  if d.isInfinite && !d.isNegative then 49 :: List.replicate 309 48
  else
    let digits := d.positional
    if digits.contains 46 then digits else digits ++ text ".0"

def renderBool (b : Bool) : Bytes := if b then text "True" else text "False"

/-- The head of a function: name and parameters. -/
def renderHead (name : Name) (parameters : List Name) : Bytes :=
  text "func " ++ name ++ text "(" ++ Bytes.join (text ", ") parameters ++ text ")"

mutual

/-- The text of a node. -/
def Node.render : Node → Bytes
  | .program statements => renderLines statements
  | .block body => body.render
  | .int n => Bytes.ofInt n.toInt
  | .float d => renderFloat d
  | .str s => 34 :: s ++ [34]
  | .bool b => renderBool b
  | .ident name => name
  | .unary op operand => text "(" ++ op.symbol ++ operand.render ++ text ")"
  | .binary op left right =>
    text "(" ++ left.render ++ text " " ++ op.symbol ++ text " " ++ right.render ++ text ")"
  | .assign target value => text "(" ++ target.render ++ text " = " ++ value.render ++ text ")"
  | .call callee arguments =>
    callee.render ++ text "(" ++ Bytes.join (text ", ") (renderEach arguments) ++ text ")"
  -- An inline body is returned, which needs no word in its text.
  | .func name parameters (.mk [.ret value] true) =>
    renderHead name parameters ++ text " " ++ value.render
  | .func name parameters body =>
    renderHead name parameters ++ text " " ++ body.render ++ text "end"
  | .branch condition body tail =>
    text "if " ++ condition.render ++ text " " ++ body.render ++ tail.render
  | .otherwise body => text "else " ++ body.render
  | .loop condition body =>
    text "while " ++ condition.render ++ text " " ++ body.render ++ text " end"
  | .ret value => text "return " ++ value.render
  | .absent => []

/-- The text of a body: an inline expression for itself, statements on lines
    of their own after a line break. -/
def Block.render : Block → Bytes
  | .mk [statement] true => statement.render
  | .mk statements _ => 10 :: renderLines statements

/-- The text of the rest of a conditional, with its `end`. -/
def Tail.render : Tail → Bytes
  | .none => text " end"
  | .elif condition body tail =>
    text " elif " ++ condition.render ++ text " " ++ body.render ++ tail.render
  | .else body => text " else " ++ body.render ++ text " end"

/-- Each node followed by a line break. -/
def renderLines : List Node → Bytes
  | [] => []
  | node :: nodes => node.render ++ 10 :: renderLines nodes

/-- The texts of the nodes in order. -/
def renderEach : List Node → List Bytes
  | [] => []
  | node :: nodes => node.render :: renderEach nodes

end

/-- The text of a program, one statement a line. -/
def Program.render (p : Program) : Bytes := renderLines p.statements

end Scriptlet

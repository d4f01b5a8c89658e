/-
  Scriptlet.Tree.Dump

  The structure of a tree as one line of nested parentheses, in which two trees
  look the same only if they are.
-/
import Scriptlet.Tree

namespace Scriptlet

mutual

/-- The structure of a node. -/
def Node.dump : Node → Bytes
  | .program statements => text "(program" ++ dumpEach statements ++ text ")"
  | .block body => body.dump
  | .int n => text "(int " ++ Bytes.ofInt n.toInt ++ text ")"
  | .float d => text "(float " ++ d.general ++ text ")"
  | .str s => text "(str x" ++ s.flatMap (fun b => Bytes.hex 2 b.toNat) ++ text ")"
  | .bool b => text "(bool " ++ (if b then text "true" else text "false") ++ text ")"
  | .ident name => text "(id " ++ name ++ text ")"
  | .unary op operand => text "(unary " ++ op.symbol ++ text " " ++ operand.dump ++ text ")"
  | .binary op left right =>
    text "(binary " ++ op.symbol ++ text " " ++ left.dump ++ text " " ++ right.dump ++ text ")"
  | .assign target value => text "(assign " ++ target.dump ++ text " " ++ value.dump ++ text ")"
  | .call callee arguments => text "(call " ++ callee.dump ++ dumpEach arguments ++ text ")"
  | .func name parameters body =>
    text "(func " ++ name ++ text " [" ++ Bytes.join (text " ") parameters ++ text "] " ++
      body.dump ++ text ")"
  | .branch condition body tail =>
    text "(if " ++ condition.dump ++ text " " ++ body.dump ++ tail.dump ++ text ")"
  | .otherwise body => text "(else " ++ body.dump ++ text ")"
  | .loop condition body =>
    text "(while " ++ condition.dump ++ text " " ++ body.dump ++ text ")"
  | .ret value => text "(return " ++ value.dump ++ text ")"
  | .absent => []

def Block.dump : Block → Bytes
  | .mk statements inline =>
    text (if inline then "(block-inline" else "(block") ++ dumpEach statements ++ text ")"

def Tail.dump : Tail → Bytes
  | .none => []
  | .elif condition body tail =>
    text " (if " ++ condition.dump ++ text " " ++ body.dump ++ tail.dump ++ text ")"
  | .else body => text " (else " ++ body.dump ++ text ")"

/-- Each node after a blank. -/
def dumpEach : List Node → Bytes
  | [] => []
  | node :: nodes => 32 :: node.dump ++ dumpEach nodes

end

/-- The structure of a program. -/
def Program.dump (p : Program) : Bytes := (Node.program p.statements).dump

end Scriptlet

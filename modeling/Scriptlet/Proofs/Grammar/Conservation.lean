/-
  Scriptlet.Proofs.Grammar.Conservation

  Parsing loses, duplicates and reorders nothing. A tree, written down from
  left to right without brackets, is the token list of its text without
  brackets, commas, separators and closing words: `flatten_eq_visible_of_parse`.

  The invariant is `Derives.conserves`: a goal that starts from a node read
  before (`Goal.pending`) writes that node, then what it takes from the lexemes
  ahead, and leaves the rest.
-/
import Scriptlet.Proofs.Grammar.Sound

namespace Scriptlet

/-! ## Lexemes that leave no trace in a tree -/

namespace Lexeme

/-- Parentheses, commas, separators and the word `end`: what only marks the
    extent of something. -/
def isStructural : Lexeme → Bool
  | .punctuation m => m == text "(" || m == text ")" || m == text "," || m == newline
  | .keyword w => w == text "end"
  | _ => false

/-- A lexeme without the digits that its number was written with. -/
def decoded : Lexeme → Lexeme
  | .integer _ n => .integer [] n
  | .float _ d => .float [] d
  | l => l

/-- The kinds and values of the lexemes that leave a trace in a tree. -/
def visible (ls : List Lexeme) : List Lexeme :=
  (ls.filter fun l => !l.isStructural).map decoded

/-- A lexeme that only marks an extent is not seen. -/
theorem visible_cons_of_structural {l : Lexeme} (h : l.isStructural = true) (ls : List Lexeme) :
    visible (l :: ls) = visible ls := by
  simp [visible, h]

/-- Any other lexeme is seen first, without its digits. -/
theorem visible_cons {l : Lexeme} (h : l.isStructural = false) (ls : List Lexeme) :
    visible (l :: ls) = l.decoded :: visible ls := by
  simp [visible, h]

@[simp] theorem visible_opening (ls : List Lexeme) :
    visible (.punctuation (text "(") :: ls) = visible ls :=
  visible_cons_of_structural (by decide) ls

@[simp] theorem visible_closing (ls : List Lexeme) :
    visible (.punctuation (text ")") :: ls) = visible ls :=
  visible_cons_of_structural (by decide) ls

@[simp] theorem visible_comma (ls : List Lexeme) :
    visible (.punctuation (text ",") :: ls) = visible ls :=
  visible_cons_of_structural (by decide) ls

@[simp] theorem visible_newline (ls : List Lexeme) :
    visible (.punctuation newline :: ls) = visible ls :=
  visible_cons_of_structural (by decide) ls

@[simp] theorem visible_end (ls : List Lexeme) :
    visible (.keyword (text "end") :: ls) = visible ls :=
  visible_cons_of_structural (by decide) ls

/-- Every keyword but `end` is seen. -/
theorem visible_keyword {w : Bytes} (h : (w == text "end") = false) (ls : List Lexeme) :
    visible (.keyword w :: ls) = .keyword w :: visible ls :=
  visible_cons (l := .keyword w) h ls

@[simp] theorem visible_identifier (name : Name) (ls : List Lexeme) :
    visible (.identifier name :: ls) = .identifier name :: visible ls := rfl

@[simp] theorem visible_operator (op : Bytes) (ls : List Lexeme) :
    visible (.operator op :: ls) = .operator op :: visible ls := rfl

end Lexeme

/-! ## Trees from left to right -/

/-- A function without its body. -/
def flattenHead (name : Name) (parameters : List Name) : List Lexeme :=
  .keyword (text "func") :: .identifier name :: parameters.map .identifier

mutual

/-- The lexemes of a tree from left to right. The return around an inline
    function body was not written and gives none. -/
def Node.flatten : Node → List Lexeme
  | .program statements => flattenEach statements
  | .block body => body.flatten
  | .int n => [.integer [] n]
  | .float d => [.float [] d]
  | .str s => [.string s]
  | .bool b => [.keyword (renderBool b)]
  | .ident name => [.identifier name]
  | .unary op operand => .operator op.symbol :: operand.flatten
  | .binary op left right => left.flatten ++ .operator op.symbol :: right.flatten
  | .assign target value => target.flatten ++ .operator (text "=") :: value.flatten
  | .call callee arguments => callee.flatten ++ flattenEach arguments
  | .func name parameters (.mk [.ret value] true) =>
    flattenHead name parameters ++ value.flatten
  | .func name parameters body => flattenHead name parameters ++ body.flatten
  | .branch condition body tail =>
    .keyword (text "if") :: (condition.flatten ++ body.flatten ++ tail.flatten)
  | .otherwise body => .keyword (text "else") :: body.flatten
  | .loop condition body => .keyword (text "while") :: (condition.flatten ++ body.flatten)
  | .ret value => .keyword (text "return") :: value.flatten
  | .absent => []

def Block.flatten : Block → List Lexeme
  | .mk statements _ => flattenEach statements

def Tail.flatten : Tail → List Lexeme
  | .none => []
  | .elif condition body tail =>
    .keyword (text "elif") :: (condition.flatten ++ body.flatten ++ tail.flatten)
  | .else body => .keyword (text "else") :: body.flatten

/-- The lexemes of the nodes in order. -/
def flattenEach : List Node → List Lexeme
  | [] => []
  | node :: nodes => node.flatten ++ flattenEach nodes

end

attribute [simp] Node.flatten Block.flatten Tail.flatten flattenEach

/-- The lexemes of a program from left to right. -/
def Program.flatten (p : Program) : List Lexeme := flattenEach p.statements

/-- A prefix operator is written as it was read, unknown ones too. -/
theorem UnaryOp.symbol_ofSymbol (s : Bytes) : (UnaryOp.ofSymbol s).symbol = s := by
  unfold UnaryOp.ofSymbol
  split
  · rename_i h
    exact (eq_of_beq h).symm
  split
  · rename_i h
    exact (eq_of_beq h).symm
  · -- Any other symbol is kept in the node.
    rfl

/-- So is an infix operator. -/
theorem BinaryOp.symbol_ofSymbol (s : Bytes) : (BinaryOp.ofSymbol s).symbol = s := by
  unfold BinaryOp.ofSymbol
  cases h : BinaryOp.all.find? fun op => op.symbol == s with
  | none => rfl
  | some op =>
    -- The operator that was found is the one with this symbol.
    have := List.find?_some h
    exact eq_of_beq this

/-- Both nodes of a binary operator write it between their operands. -/
theorem flatten_combine (op : Bytes) (l r : Node) :
    (Parser.combine op l r).flatten = l.flatten ++ .operator op :: r.flatten := by
  unfold Parser.combine
  split
  · rename_i h
    rw [Node.flatten, eq_of_beq h]
  · rw [Node.flatten, BinaryOp.symbol_ofSymbol]

/-- Returning an inline body adds nothing. -/
theorem flatten_func_returning (name : Name) (ps : List Name) (b : Block) :
    (Node.func name ps b.returning).flatten = flattenHead name ps ++ b.flatten := by
  -- A body of one statement is returned only if it is inline.
  rcases b with ⟨ss, inline⟩
  rcases ss with _ | ⟨x, _ | ⟨y, ys⟩⟩ <;> cases inline <;>
    simp [Block.returning]

/-! ## The invariant -/

/-- What a result writes down. -/
def Goal.flatten : (g : Goal) → g.Result → List Lexeme
  | .operand, x => Node.flatten x
  | .atom, x => Node.flatten x
  | .calls _, x => Node.flatten x
  | .expression, x => Node.flatten x
  | .climb _ _, x => Node.flatten x
  | .arguments _, xs => flattenEach xs
  | .parameters _, ps => ps.map Lexeme.identifier
  | .body _, b => Block.flatten b
  | .statements _, ss => flattenEach ss
  | .tail, t => Tail.flatten t
  | .program, ss => flattenEach ss

/-- What was read before a goal goes on. -/
def Goal.pending : Goal → List Lexeme
  | .calls callee => callee.flatten
  | .climb left _ => left.flatten
  | _ => []

/-! ## One rule at a time

What is read for a part is the part from left to right. The parts of a rule chain,
each one starting with what the one before left. -/

section Rules

open Lexeme

variable {s s₁ s₂ r : List Lexeme} {c f l x y z : Node} {b : Block} {t : Tail}
  {xs : List Node} {ps : List Name}

theorem conserves_bool (b : Bool) :
    visible (.keyword (renderBool b) :: s) = (Node.bool b).flatten ++ visible s := by
  cases b <;> exact visible_keyword (by decide) _

/-- A prefix operator stands in front of its operand. -/
theorem conserves_unary {op : Bytes} (hx : visible s = x.flatten ++ visible r) :
    visible (.operator op :: s) = (Node.unary (.ofSymbol op) x).flatten ++ visible r := by
  rw [visible_operator, hx, Node.flatten, UnaryOp.symbol_ofSymbol, List.cons_append]

/-- The parentheses of a group are not visible. -/
theorem conserves_group (hx : visible s = x.flatten ++ visible (.punctuation (text ")") :: r)) :
    visible (.punctuation (text "(") :: s) = x.flatten ++ visible r := by
  rw [visible_opening, hx, visible_closing]

/-- A conditional is its keyword, the condition, the body and the branches behind it. -/
theorem conserves_branch (hc : visible s = c.flatten ++ visible s₁)
    (hb : visible s₁ = b.flatten ++ visible s₂) (ht : visible s₂ = t.flatten ++ visible r) :
    visible (.keyword (text "if") :: s) = (Node.branch c b t).flatten ++ visible r := by
  rw [visible_keyword (by decide), hc, hb, ht, Node.flatten]
  simp only [List.append_assoc, List.cons_append]

theorem conserves_loop (hc : visible s = c.flatten ++ visible s₁)
    (hb : visible s₁ = b.flatten ++ visible r) :
    visible (.keyword (text "while") :: s) = (Node.loop c b).flatten ++ visible r := by
  rw [visible_keyword (by decide), hc, hb, Node.flatten]
  simp only [List.append_assoc, List.cons_append]

theorem conserves_ret (hx : visible s = x.flatten ++ visible r) :
    visible (.keyword (text "return") :: s) = (Node.ret x).flatten ++ visible r := by
  rw [visible_keyword (by decide), hx, Node.flatten, List.cons_append]

/-- A function is its keyword, its name, the parameters and the body; the parentheses are not
visible. -/
theorem conserves_func {name : Name}
    (hps : visible s = ps.map Lexeme.identifier ++ visible (.punctuation (text ")") :: s₁))
    (hb : visible s₁ = b.flatten ++ visible r) :
    visible (.keyword (text "func") :: .identifier name :: .punctuation (text "(") :: s) =
      (Node.func name ps b.returning).flatten ++ visible r := by
  rw [visible_keyword (by decide), visible_identifier, visible_opening, hps, visible_closing, hb,
    flatten_func_returning, flattenHead]
  simp only [List.append_assoc, List.cons_append]

/-- The callee moves from what is pending into the call. -/
theorem conserves_call
    (has : visible s = flattenEach xs ++ visible (.punctuation (text ")") :: s₁))
    (hc : (Node.call f xs).flatten ++ visible s₁ = x.flatten ++ visible r) :
    f.flatten ++ visible (.punctuation (text "(") :: s) = x.flatten ++ visible r := by
  -- The call is `f` and the arguments, and it is what the calls behind it start from.
  rw [visible_opening, has, visible_closing, ← hc, Node.flatten, List.append_assoc]

/-- The left operand moves from what is pending into the combined node. -/
theorem conserves_climb {op : Bytes} (hy : visible s = y.flatten ++ visible s₁)
    (hx : y.flatten ++ visible s₁ = x.flatten ++ visible s₂)
    (hz : (Parser.combine op l x).flatten ++ visible s₂ = z.flatten ++ visible r) :
    l.flatten ++ visible (.operator op :: s) = z.flatten ++ visible r := by
  -- The right operand ends where the operators behind it bind no tighter.
  rw [visible_operator, hy, hx, ← hz, flatten_combine, List.append_assoc, List.cons_append]

/-- A list is its first part and the rest of it. -/
theorem conserves_cons (hx : visible s = x.flatten ++ visible s₁)
    (hxs : visible s₁ = flattenEach xs ++ visible r) :
    visible s = flattenEach (x :: xs) ++ visible r := by
  rw [hx, hxs, flattenEach, List.append_assoc]

theorem conserves_parameter {name : Name}
    (hps : visible s = ps.map Lexeme.identifier ++ visible r) :
    visible (.identifier name :: s) = (name :: ps).map Lexeme.identifier ++ visible r := by
  rw [visible_identifier, hps, List.map_cons, List.cons_append]

theorem conserves_inline (hx : visible s = x.flatten ++ visible r) :
    visible s = (Block.mk [x] true).flatten ++ visible r := by
  simp [hx]

/-- A further branch is its keyword, the condition, the body and what follows. -/
theorem conserves_elif (hc : visible s = c.flatten ++ visible s₁)
    (hb : visible s₁ = b.flatten ++ visible s₂) (ht : visible s₂ = t.flatten ++ visible r) :
    visible (.keyword (text "elif") :: s) = (Tail.elif c b t).flatten ++ visible r := by
  rw [visible_keyword (by decide), hc, hb, ht, Tail.flatten]
  simp only [List.append_assoc, List.cons_append]

theorem conserves_else (hb : visible s = b.flatten ++ visible r) :
    visible (.keyword (text "else") :: s) = (Tail.else b).flatten ++ visible r := by
  rw [visible_keyword (by decide), hb, Tail.flatten, List.cons_append]

end Rules

open Lexeme in
/-- Every rule puts each lexeme it takes into exactly one place, in order. -/
theorem Derives.conserves {g : Goal} {s r : List Lexeme} {v : g.Result} (h : Derives g s v r) :
    g.pending ++ visible s = g.flatten v ++ visible r := by
  induction h with
  | ident | str | int | float | uncalled | climbed | noArguments | noParameters | blockTurn
    | noTail | finished => rfl
  | bool hw =>
    subst hw
    exact conserves_bool _
  | unary _ _ ihx => exact conserves_unary ihx
  | group hm hm' _ ihx =>
    subst hm hm'
    exact conserves_group ihx
  | branch hw _ _ _ ihc ihb iht =>
    subst hw
    exact conserves_branch ihc ihb iht
  | loop hw _ _ ihc ihb =>
    subst hw
    exact conserves_loop ihc ihb
  | ret hw _ ihx =>
    subst hw
    exact conserves_ret ihx
  | func hw hm hm' _ _ _ ihps ihb =>
    subst hw hm hm'
    exact conserves_func ihps ihb
  | call hm hm' _ _ ihas ihc =>
    subst hm hm'
    exact conserves_call ihas ihc
  | climb _ _ _ _ ihy ihx ihz => exact conserves_climb ihy ihx ihz
  -- What was read first is pending for the rest.
  | atom _ _ iho ihc => exact Eq.trans iho ihc
  | expression _ _ iha ihc => exact Eq.trans iha ihc
  | firstArgument _ _ ihx ihxs => exact conserves_cons ihx ihxs
  | nextArgument hm _ _ ihx ihxs =>
    subst hm
    exact (visible_comma _).trans (conserves_cons ihx ihxs)
  | lastComma hm _ | lastParameterComma hm _ =>
    subst hm
    exact visible_comma _
  | firstParameter _ ihs => exact conserves_parameter ihs
  | nextParameter hm _ ihs =>
    subst hm
    exact (visible_comma _).trans (conserves_parameter ihs)
  | block hm _ ihs =>
    subst hm
    exact (visible_newline _).trans ihs
  | inline _ _ ihx => exact conserves_inline ihx
  | inlineEnd hw _ ihx =>
    subst hw
    exact conserves_inline (ihx.trans (congrArg _ (visible_end _)))
  | blockEnd hw =>
    subst hw
    exact visible_end _
  | statement hm _ _ ihx ihxs | line hm _ _ ihx ihxs =>
    subst hm
    exact conserves_cons (ihx.trans (congrArg _ (visible_newline _))) ihxs
  | lastStatement _ ihx => exact conserves_cons ihx rfl
  | elif hw _ _ _ ihc ihb iht =>
    subst hw
    exact conserves_elif ihc ihb iht
  | «else» hw _ ihb =>
    subst hw
    exact conserves_else ihb

/-- A whole program leaves nothing, so all that is visible is in its tree. -/
theorem Derives.visible_eq {s : List Lexeme} {p : Program}
    (h : Derives .program s p.statements []) : Lexeme.visible s = p.flatten := by
  -- Nothing is pending before a program and nothing is left behind it.
  have hvisible : Lexeme.visible s = p.flatten ++ [] := h.conserves
  rw [hvisible, List.append_nil]

/-- A text that parses splits into tokens, and these, without those that only
    mark extents, are its tree from left to right: nothing is lost, duplicated
    or reordered. -/
theorem flatten_eq_visible_of_parse {source : Bytes} {p : Program} (h : parse source = .ok p) :
    ∃ ts, tokenize source = .ok ts ∧ p.flatten = Lexeme.visible (ts.map Token.lexeme) := by
  obtain ⟨ts, hts, d⟩ := parse_derives h
  exact ⟨ts, hts, d.visible_eq.symm⟩

/-- A function with a trailing comma, an inline body and a closing word. -/
theorem flatten_eq_visible_of_inline_func :
    ∃ ts, tokenize (text "func f(a,) -(a) end") = .ok ts ∧
      (⟨[.func (text "f") [text "a"] (.mk [.ret (.unary .negate (.ident (text "a")))] true)]⟩ :
        Program).flatten = Lexeme.visible (ts.map Token.lexeme) :=
  flatten_eq_visible_of_parse (by with_unfolding_all rfl)

end Scriptlet

/-
  Scriptlet.Proofs.Grammar

  The grammar of scripts as a relation: `Derives g s v r` says that `g` can be
  read at the front of the lexemes `s`, that it reads as `v`, and that the
  lexemes `r` are left.

  The relation has one rule for each way through the parser and says nothing
  about fuel, faults or positions. Where the parser looks ahead before it stops
  (no further call, no further operator, no further branch, no `end`), the rule
  asks for the same of the lexemes left, so a derivation is always the one the
  parser takes. `Proofs.Grammar.Sound` and `Proofs.Grammar.Complete` prove that
  the two agree; everything about the shape of parsed trees is proved here or
  on top of here, by induction on derivations.
-/
import Scriptlet.Tree.Parser
import Scriptlet.Tree.Render
import Mathlib.Data.List.Basic

namespace Scriptlet

/-! ## What can be read -/

/-- What a derivation reads. `calls` and `climb` go on from a node read
    before, the lists go on after their opening parenthesis. -/
inductive Goal where
  | operand
  | atom
  | calls (callee : Node)
  | expression
  | climb (left : Node) (level : Nat)
  | arguments (first : Bool)
  | parameters (first : Bool)
  | body (branching : Bool)
  | statements (branching : Bool)
  | tail
  | program

/-- What a goal reads as. -/
abbrev Goal.Result : Goal → Type
  | .arguments _ | .statements _ | .program => List Node
  | .parameters _ => List Name
  | .body _ => Block
  | .tail => Tail
  | _ => Node

/-- The body of a function that was read with the body `b`: an inline body is
    returned. -/
def Block.returning : Block → Block
  | .mk [x] true => .mk [.ret x] true
  | b => b

/-- Only an inline body is returned. -/
@[simp] theorem Block.returning_block (ss : List Node) :
    (Block.mk ss false).returning = .mk ss false := by
  rcases ss with _ | ⟨x, _ | ⟨y, ys⟩⟩ <;> rfl

/-- Whether the operators ahead end an expression read at `level`. -/
def Climbed (level : Nat) : List Lexeme → Prop
  | .operator op :: _ => 0 < precedence op ∧ precedence op ≤ level
  | _ => True

/-! ## The rules -/

/-- `g` reads the front of the lexemes as its result and leaves the last
    list. -/
inductive Derives : (g : Goal) → List Lexeme → g.Result → List Lexeme → Prop where
  | ident {name s} : Derives .operand (.identifier name :: s) (.ident name) s
  | str {contents s} : Derives .operand (.string contents :: s) (.str contents) s
  | int {literal n s} : Derives .operand (.integer literal n :: s) (.int n) s
  | float {literal d s} : Derives .operand (.float literal d :: s) (.float d) s
  | bool {w b s} (hw : w = renderBool b) : Derives .operand (.keyword w :: s) (.bool b) s
  | unary {op s x r} (hop : op = text "!" ∨ op = text "-") (hx : Derives .atom s x r) :
      Derives .operand (.operator op :: s) (.unary (.ofSymbol op) x) r
  | group {m m' s x r} (hm : m = text "(") (hm' : m' = text ")")
      (hx : Derives .expression s x (.punctuation m' :: r)) :
      Derives .operand (.punctuation m :: s) x r
  | branch {w s c s₁ b s₂ t r} (hw : w = text "if") (hc : Derives .expression s c s₁)
      (hb : Derives (.body true) s₁ b s₂) (ht : Derives .tail s₂ t r) :
      Derives .operand (.keyword w :: s) (.branch c b t) r
  | loop {w s c s₁ b r} (hw : w = text "while") (hc : Derives .expression s c s₁)
      (hb : Derives (.body false) s₁ b r) :
      Derives .operand (.keyword w :: s) (.loop c b) r
  | ret {w s x r} (hw : w = text "return") (hx : Derives .expression s x r) :
      Derives .operand (.keyword w :: s) (.ret x) r
  | func {w name m m' s ps s₁ b r} (hw : w = text "func") (hm : m = text "(")
      (hm' : m' = text ")") (hps : Derives (.parameters true) s ps (.punctuation m' :: s₁))
      (hdistinct : Parser.repeated? [] ps = none) (hb : Derives (.body false) s₁ b r) :
      Derives .operand (.keyword w :: .identifier name :: .punctuation m :: s)
        (.func name ps b.returning) r
  | atom {s f s₁ x r} (ho : Derives .operand s f s₁) (hc : Derives (.calls f) s₁ x r) :
      Derives .atom s x r
  -- Calls stop where no parenthesis follows.
  | uncalled {f s} (h : s.head? ≠ some (.punctuation (text "("))) : Derives (.calls f) s f s
  | call {m m' f s as s₁ x r} (hm : m = text "(") (hm' : m' = text ")")
      (has : Derives (.arguments true) s as (.punctuation m' :: s₁))
      (hc : Derives (.calls (.call f as)) s₁ x r) :
      Derives (.calls f) (.punctuation m :: s) x r
  | expression {s l s₁ x r} (ha : Derives .atom s l s₁) (hc : Derives (.climb l 0) s₁ x r) :
      Derives .expression s x r
  -- Operators stop at one that binds no tighter than what is read.
  | climbed {l level s} (h : Climbed level s) : Derives (.climb l level) s l s
  | climb {op l level s y s₁ x s₂ z r} (hp : level < precedence op)
      (hy : Derives .atom s y s₁) (hx : Derives (.climb y (precedence op)) s₁ x s₂)
      (hz : Derives (.climb (Parser.combine op l x) level) s₂ z r) :
      Derives (.climb l level) (.operator op :: s) z r
  | noArguments {m first s} (hm : m = text ")") :
      Derives (.arguments first) (.punctuation m :: s) [] (.punctuation m :: s)
  | firstArgument {s x s₁ xs r} (hx : Derives .expression s x s₁)
      (hxs : Derives (.arguments false) s₁ xs r) : Derives (.arguments true) s (x :: xs) r
  -- A comma may stand behind the last argument.
  | lastComma {m m' s} (hm : m = text ",") (hm' : m' = text ")") :
      Derives (.arguments false) (.punctuation m :: .punctuation m' :: s) []
        (.punctuation m' :: s)
  | nextArgument {m s x s₁ xs r} (hm : m = text ",") (hx : Derives .expression s x s₁)
      (hxs : Derives (.arguments false) s₁ xs r) :
      Derives (.arguments false) (.punctuation m :: s) (x :: xs) r
  | noParameters {m first s} (hm : m = text ")") :
      Derives (.parameters first) (.punctuation m :: s) [] (.punctuation m :: s)
  | firstParameter {name s names r} (hs : Derives (.parameters false) s names r) :
      Derives (.parameters true) (.identifier name :: s) (name :: names) r
  | lastParameterComma {m m' s} (hm : m = text ",") (hm' : m' = text ")") :
      Derives (.parameters false) (.punctuation m :: .punctuation m' :: s) []
        (.punctuation m' :: s)
  | nextParameter {m name s names r} (hm : m = text ",")
      (hs : Derives (.parameters false) s names r) :
      Derives (.parameters false) (.punctuation m :: .identifier name :: s) (name :: names) r
  | block {m branching s ss r} (hm : m = Lexeme.newline)
      (hs : Derives (.statements branching) s ss r) :
      Derives (.body branching) (.punctuation m :: s) (.mk ss false) r
  -- An inline body takes the `end` behind it, if there is one.
  | inline {branching s x r} (hx : Derives .expression s x r)
      (h : r.head? ≠ some (.keyword (text "end"))) :
      Derives (.body branching) s (.mk [x] true) r
  | inlineEnd {w branching s x r} (hw : w = text "end")
      (hx : Derives .expression s x (.keyword w :: r)) :
      Derives (.body branching) s (.mk [x] true) r
  | blockEnd {w branching s} (hw : w = text "end") :
      Derives (.statements branching) (.keyword w :: s) [] s
  -- The body of a branch stops in front of the next one.
  | blockTurn {w s} (hw : w = text "else" ∨ w = text "elif") :
      Derives (.statements true) (.keyword w :: s) [] (.keyword w :: s)
  | statement {m branching s x s₁ xs r} (hm : m = Lexeme.newline)
      (hx : Derives .expression s x (.punctuation m :: s₁))
      (hxs : Derives (.statements branching) s₁ xs r) :
      Derives (.statements branching) s (x :: xs) r
  | elif {w s c s₁ b s₂ t r} (hw : w = text "elif") (hc : Derives .expression s c s₁)
      (hb : Derives (.body true) s₁ b s₂) (ht : Derives .tail s₂ t r) :
      Derives .tail (.keyword w :: s) (.elif c b t) r
  | else {w s b r} (hw : w = text "else") (hb : Derives (.body false) s b r) :
      Derives .tail (.keyword w :: s) (.else b) r
  | noTail {s} (helif : s.head? ≠ some (.keyword (text "elif")))
      (helse : s.head? ≠ some (.keyword (text "else"))) : Derives .tail s .none s
  | finished : Derives .program [] [] []
  | lastStatement {s x} (hx : Derives .expression s x []) : Derives .program s [x] []
  | line {m s x s₁ xs r} (hm : m = Lexeme.newline)
      (hx : Derives .expression s x (.punctuation m :: s₁)) (hxs : Derives .program s₁ xs r) :
      Derives .program s (x :: xs) r

/-! ## What is left -/

/-- What is left stands at the end of what was there. -/
theorem Derives.suffix {g : Goal} {s r : List Lexeme} {v : g.Result} (h : Derives g s v r) :
    r <:+ s := by
  induction h with
  -- These take one lexeme.
  | ident | str | int | float | bool | lastComma | lastParameterComma | blockEnd =>
    exact List.suffix_cons _ _
  -- These take none.
  | uncalled | climbed | noArguments | noParameters | blockTurn | noTail | finished =>
    exact List.suffix_rfl
  -- The others take what their parts take, from the last one back to the first.
  | unary _ _ ihx | ret _ _ ihx | block _ _ ihx | «else» _ _ ihx =>
    exact ihx.trans (List.suffix_cons _ _)
  | group _ _ _ ihx => exact ((List.suffix_cons _ _).trans ihx).trans (List.suffix_cons _ _)
  | branch _ _ _ _ ihc ihb iht | elif _ _ _ _ ihc ihb iht =>
    exact ((iht.trans ihb).trans ihc).trans (List.suffix_cons _ _)
  | loop _ _ _ ihc ihb => exact (ihb.trans ihc).trans (List.suffix_cons _ _)
  | func _ _ _ _ _ _ ihps ihb =>
    exact ((ihb.trans (List.suffix_cons _ _)).trans ihps).trans (List.suffix_append [_, _, _] _)
  | atom _ _ ih₁ ih₂ | expression _ _ ih₁ ih₂ | firstArgument _ _ ih₁ ih₂ => exact ih₂.trans ih₁
  | call _ _ _ _ ihas ihc =>
    exact ((ihc.trans (List.suffix_cons _ _)).trans ihas).trans (List.suffix_cons _ _)
  | climb _ _ _ _ ihy ihx ihz => exact ((ihz.trans ihx).trans ihy).trans (List.suffix_cons _ _)
  | nextArgument _ _ _ ihx ihxs => exact (ihxs.trans ihx).trans (List.suffix_cons _ _)
  | firstParameter _ ihs => exact ihs.trans (List.suffix_cons _ _)
  | nextParameter _ _ ihs => exact ihs.trans (List.suffix_append [_, _] _)
  | inline _ _ ihx => exact ihx
  | inlineEnd _ _ ihx => exact (List.suffix_cons _ _).trans ihx
  | statement _ _ _ ihx ihxs | line _ _ _ ihx ihxs =>
    exact (ihxs.trans (List.suffix_cons _ _)).trans ihx
  | lastStatement _ ihx => exact ihx

/-- How many lexemes a goal takes at least. -/
def Goal.least : Goal → Nat
  | .operand | .atom | .expression | .body _ => 1
  | _ => 0

/-- What is left is shorter by at least what the goal takes. -/
theorem Derives.length_add_least_le {g : Goal} {s r : List Lexeme} {v : g.Result}
    (h : Derives g s v r) : r.length + g.least ≤ s.length := by
  induction h <;> simp only [Goal.least, List.length_cons, List.length_nil] at * <;> omega

/-- No expression stands at the end of the lexemes. -/
theorem not_derives_expression_nil {x : Node} {r : List Lexeme} : ¬ Derives .expression [] x r := by
  intro h
  simpa [Goal.least] using h.length_add_least_le

/-- No block is closed at the end of the lexemes. -/
theorem not_derives_statements_nil {branching : Bool} {ss : List Node} {r : List Lexeme} :
    ¬ Derives (.statements branching) [] ss r := by
  intro h
  cases h with
  | statement _ hx _ => exact not_derives_expression_nil hx

theorem derives_program_nil {ss : List Node} {r : List Lexeme} (h : Derives .program [] ss r) :
    ss = [] := by
  cases h with
  | finished => rfl
  | lastStatement hx => exact absurd hx not_derives_expression_nil
  | line _ hx _ => exact absurd hx not_derives_expression_nil

end Scriptlet

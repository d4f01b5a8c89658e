/-
  Scriptlet.Proofs.Render.Reread

  When the text of a tree is read as this tree again. Inline bodies have no
  fixed end: `return` and inline functions reach as far as an expression does,
  `end` is optional behind an inline body, and a conditional goes on with any
  `else` that follows. So the answer depends on what stands behind the text: a
  number of words `end`, and one lexeme that is no `end`.

  `Node.rereads` computes it, and `Proper.rereads` proves that it suffices.
  Trees without inline bodies are always read back: `parse_render_structured`.
-/
import Scriptlet.Proofs.Grammar.Complete
import Scriptlet.Proofs.Render.Text

namespace Scriptlet

open Lexeme (opening closing comma ending)

/-! ## What stands behind a tree -/

/-- What a lexeme does to the expression in front of it. -/
inductive Follow where
  | stop
  | extend
  | turn
deriving DecidableEq, Repr

/-- An operator and an opening parenthesis extend an expression, `else` and
    `elif` turn to the next branch, the rest stops it. -/
def Lexeme.follow : Lexeme → Follow
  | .operator _ => .extend
  | .punctuation m => if m = text "(" then .extend else .stop
  | .keyword w => if w = text "else" ∨ w = text "elif" then .turn else .stop
  | _ => .stop

/-- The lexemes behind a tree: `n` words `end`, then `l` and the rest. -/
def behind (n : Nat) (l : Lexeme) (w : List Lexeme) : List Lexeme :=
  List.replicate n ending ++ l :: w

theorem behind_zero (l : Lexeme) (w : List Lexeme) : behind 0 l w = l :: w := rfl

theorem behind_succ (n : Nat) (l : Lexeme) (w : List Lexeme) :
    behind (n + 1) l w = ending :: behind n l w := rfl

/-! ## Reading back -/

mutual

/-- How many words `end` behind its text a tree takes for its inline bodies. -/
def Node.appetite : Node → Nat
  | .ret value => value.appetite
  -- The body is inline, so it takes an `end` of its own behind those of the value.
  | .func _ _ (.mk [.ret value] true) => value.appetite + 1
  | .branch _ body tail => tail.appetite body.appetite
  | .loop _ body => body.appetite
  | _ => 0

def Block.appetite : Block → Nat
  | .mk [statement] true => statement.appetite
  | _ => 0

/-- The appetite of the last body of a conditional, given that of the body in
    front. -/
def Tail.appetite : Tail → Nat → Nat
  | .none, k => k
  | .elif _ body tail, _ => tail.appetite body.appetite
  | .else body, _ => body.appetite

end

attribute [simp] Node.appetite Block.appetite Tail.appetite

/-- Whether the text of a tree starts with a parenthesis, which makes it the
    argument list of an expression in front of it. -/
def Node.opens : Node → Bool
  | .unary _ _ | .binary _ _ _ | .assign _ _ => true
  | .call callee _ => callee.opens
  | _ => false

def Block.opens : Block → Bool
  | .mk [statement] true => statement.opens
  | _ => false

namespace Tail

/-- How many words `end` stand behind a body that this tail follows. -/
def ends : Tail → Nat → Nat
  | .none, n => n + 1
  | _, _ => 0

/-- What follows the words `end` behind a body that this tail follows. -/
def follow : Tail → Follow → Follow
  | .none, next => next
  | _, _ => .turn

end Tail

/-- Whether an expression with the given appetite ends in front of `n` words
    `end` and what follows them. -/
def Follow.stopsAt (next : Follow) (n appetite : Nat) : Bool := next != .extend || appetite < n

mutual

/-- Whether the text of a tree is read as this tree, with `n` words `end` behind
    it and then a lexeme that does `next`. -/
def Node.rereads : Node → Nat → Follow → Bool
  | .unary _ operand, _, _ => operand.rereads 0 .stop
  | .binary _ left right, _, _ => left.rereads 0 .extend && right.rereads 0 .stop
  | .assign target value, _, _ => target.rereads 0 .extend && value.rereads 0 .stop
  | .call callee arguments, _, _ => callee.rereads 0 .extend && rereadsEach arguments
  | .func _ _ (.mk [.ret value] true), n, next =>
    value.rereads n next && next.stopsAt n value.appetite
  | .func _ _ (.mk statements _), _, _ => rereadsEach statements
  | .branch condition body tail, n, next =>
    -- A body that opens a parenthesis would be the argument list of the condition.
    condition.rereads 0 .stop && !body.opens && body.rereads (tail.ends n) (tail.follow next) &&
      tail.rereads body.appetite n next
  | .loop condition body, n, next =>
    condition.rereads 0 .stop && !body.opens && body.rereads (n + 1) next
  | .ret value, n, next => value.rereads n next && next.stopsAt n value.appetite
  | _, _, _ => true

def Block.rereads : Block → Nat → Follow → Bool
  | .mk [statement] true, n, next =>
    statement.rereads n next && next.stopsAt n statement.appetite
  | .mk statements _, _, _ => rereadsEach statements

/-- The rest of a conditional behind a body with the given appetite. Without a
    further branch, an `else` of another conditional must not come next. -/
def Tail.rereads : Tail → Nat → Nat → Follow → Bool
  -- The body has taken `k` words `end`; one that is left stands in front of `next`.
  | .none, k, n, next => next != .turn || k < n
  | .elif condition body tail, _, n, next =>
    condition.rereads 0 .stop && !body.opens && body.rereads (tail.ends n) (tail.follow next) &&
      tail.rereads body.appetite n next
  | .else body, _, n, next => body.rereads (n + 1) next

/-- Statements and arguments: nothing goes on behind them. -/
def rereadsEach : List Node → Bool
  | [] => true
  | node :: nodes => node.rereads 0 .stop && rereadsEach nodes

end

/-- Whether the text of a program is read as this program. -/
def Program.rereads (p : Program) : Bool := rereadsEach p.statements

attribute [simp] Node.rereads Block.rereads Tail.rereads rereadsEach

/-! ## First lexemes -/

/-- The text of a proper tree starts with a lexeme that starts an expression,
    and that extends one in front of it only if it is a parenthesis. -/
theorem Proper.first {x : Node} (hx : Proper (.node x)) :
    ∃ l w, x.lexemes = l :: w ∧ l.starts = true ∧
      l.follow = if x.opens then .extend else .stop := by
  generalize hpart : Part.node x = part at hx
  induction hx generalizing x with
  | int | float | str | ident =>
    cases hpart
    exact ⟨_, _, rfl, rfl, rfl⟩
  | @bool b =>
    cases hpart
    refine ⟨_, _, rfl, ?_, ?_⟩ <;> cases b <;> decide
  | unary | binary | assign =>
    cases hpart
    exact ⟨opening, _, rfl, by decide, by simp [Node.opens, Lexeme.follow]⟩
  | call _ _ ihc _ =>
    cases hpart
    obtain ⟨l, w, hl, hstarts, hfollow⟩ := ihc rfl
    exact ⟨l, _, by rw [Node.lexemes, hl]; rfl, hstarts, hfollow⟩
  | inlineFunc =>
    cases hpart
    have hfollow : (Lexeme.keyword (text "func")).follow = .stop := by decide
    exact ⟨_, _, by rw [Node.lexemes, headLexemes]; rfl, by decide, hfollow⟩
  | blockFunc =>
    cases hpart
    have hfollow : (Lexeme.keyword (text "func")).follow = .stop := by decide
    exact ⟨_, _, by rw [Node.lexemes_func_block, headLexemes]; rfl, by decide, hfollow⟩
  | branch =>
    cases hpart
    have hfollow : (Lexeme.keyword (text "if")).follow = .stop := by decide
    exact ⟨_, _, by rw [Node.lexemes], by decide, hfollow⟩
  | loop =>
    cases hpart
    have hfollow : (Lexeme.keyword (text "while")).follow = .stop := by decide
    exact ⟨_, _, by rw [Node.lexemes], by decide, hfollow⟩
  | ret =>
    cases hpart
    have hfollow : (Lexeme.keyword (text "return")).follow = .stop := by decide
    exact ⟨_, _, by rw [Node.lexemes], by decide, hfollow⟩
  | inline | block | none | elif | «else» | nil | cons => cases hpart

/-- What starts an expression is none of what does not. -/
theorem Lexeme.ne_of_starts {l m : Lexeme} (hl : l.starts = true) (hm : m.starts = false) :
    l ≠ m := by
  rintro rfl
  rw [hl] at hm
  cases hm

/-- The text of a body starts with no closing word, and extends a condition only if it opens a
parenthesis. -/
theorem Proper.first_block {b : Block} (hb : Proper (.block b)) :
    ∃ l w, b.lexemes = l :: w ∧ l ≠ ending ∧ l.follow = if b.opens then .extend else .stop := by
  cases hb with
  | inline hx =>
    obtain ⟨l, w, hl, hstarts, hfollow⟩ := hx.first
    exact ⟨l, w, hl, Lexeme.ne_of_starts hstarts (by decide), hfollow⟩
  | @block ss hss =>
    refine ⟨.separator, _, Block.lexemes_block ss, by decide, ?_⟩
    have hopens : (Block.mk ss false).opens = false := by
      rw [Block.opens]
      intro x h
      cases h
    rw [hopens]
    decide

/-! ## Expressions that stop -/

/-- The lexemes ahead extend no expression. -/
def Settled (s : List Lexeme) : Prop := ∀ l ∈ s.head?, l.follow ≠ .extend

/-- What extends no expression calls none. -/
theorem Settled.not_opening {s : List Lexeme} (h : Settled s) :
    s.head? ≠ some (.punctuation (text "(")) := by
  intro hl
  exact h _ hl (by decide)

/-- And it is no operator, so every climb ends there. -/
theorem Settled.climbed {s : List Lexeme} (h : Settled s) (level : Nat) : Climbed level s := by
  cases s with
  | nil => trivial
  | cons l s =>
    cases l with
    | operator op => exact absurd rfl (h _ rfl)
    | _ => trivial

theorem settled_cons {l : Lexeme} {w : List Lexeme} (h : l.follow ≠ .extend) :
    Settled (l :: w) := by
  rintro _ ⟨⟩
  exact h

/-- An expression is settled where its appetite leaves a word `end`, or nothing extends it. -/
theorem settled_behind {n k : Nat} {l : Lexeme} {w : List Lexeme}
    (h : l.follow.stopsAt n k = true) : Settled (behind (n - k) l w) := by
  rw [Follow.stopsAt, Bool.or_eq_true, bne_iff_ne, decide_eq_true_eq] at h
  -- An `end` that is left stops the expression by itself.
  cases hk : n - k with
  | zero =>
    rcases h with h | h
    · exact settled_cons h
    · omega
  | succ m => exact settled_cons (by decide)

/-! ## The parts of a tree

What reading back means for each part. An atom may be called by what follows it,
so for a node it says that reading goes on with the calls of this node. -/

namespace Tail

/-- What a tail sees once the body in front of it has been read. -/
def left : Tail → (k n : Nat) → Lexeme → List Lexeme → List Lexeme
  | .none, k, n, l, w => behind (n - k) l w
  | .elif c b t, _, n, l, w => (Tail.elif c b t).lexemes ++ behind n l w
  | .else b, _, n, l, w => (Tail.else b).lexemes ++ behind n l w

end Tail

/-- A part of a tree is read back wherever it is expected to be. -/
def Part.Rereads : Part → Prop
  | .node x => ∀ {n l w}, l ≠ ending → x.rereads n l.follow = true → ∀ {y r},
      Derives .atom (x.lexemes ++ behind n l w) y r ↔
        Derives (.calls x) (behind (n - x.appetite) l w) y r
  | .block b => ∀ {branching n l w}, l ≠ ending → b.rereads n l.follow = true →
      (0 < n ∨ branching = true ∧ l.follow = .turn) →
      Derives (.body branching) (b.lexemes ++ behind n l w) b (behind (n - (b.appetite + 1)) l w)
  | .tail t => ∀ {k n l w}, l ≠ ending → t.rereads k n l.follow = true →
      Derives .tail (t.left k n l w) t (behind (n - t.appetite k) l w)
  | .each xs => rereadsEach xs = true →
      (∀ {branching s r}, Derives (.statements branching) s [] r →
        Derives (.statements branching) (lineLexemes xs ++ s) xs r) ∧
      Derives .program (lineLexemes xs) xs [] ∧
      (∀ {s}, Derives (.arguments true) (argumentLexemes xs ++ closing :: s) xs (closing :: s)) ∧
      ∀ {s}, Derives (.arguments false) (laterLexemes xs ++ closing :: s) xs (closing :: s)

/-- Reading an operand leaves the calls of this operand. -/
theorem atom_iff_of_operand {s s₁ r : List Lexeme} {x y : Node} (h : Derives .operand s x s₁) :
    Derives .atom s y r ↔ Derives (.calls x) s₁ y r := by
  constructor
  · intro ha
    cases ha with
    | atom ho hc =>
      obtain ⟨rfl, rfl⟩ := h.unique ho
      exact hc
  · exact fun hc => .atom h hc

theorem Part.Rereads.atom {x : Node} (hx : Part.Rereads (.node x)) {n : Nat} {l : Lexeme}
    {w : List Lexeme} (hl : l ≠ ending) (hr : x.rereads n l.follow = true)
    (hopening : (behind (n - x.appetite) l w).head? ≠ some opening) :
    Derives .atom (x.lexemes ++ behind n l w) x (behind (n - x.appetite) l w) :=
  (hx hl hr).mpr (.uncalled hopening)

/-- An expression that nothing extends. -/
theorem Part.Rereads.expression {x : Node} (hx : Part.Rereads (.node x)) {n : Nat} {l : Lexeme}
    {w : List Lexeme} (hl : l ≠ ending) (hr : x.rereads n l.follow = true)
    (hstops : l.follow.stopsAt n x.appetite = true) :
    Derives .expression (x.lexemes ++ behind n l w) x (behind (n - x.appetite) l w) := by
  have hsettled := settled_behind (w := w) hstops
  exact .expression (hx.atom hl hr hsettled.not_opening) (.climbed (hsettled.climbed 0))

/-- An expression in front of a lexeme that stops it. -/
theorem Part.Rereads.stopped {x : Node} (hx : Part.Rereads (.node x)) {l : Lexeme}
    {w : List Lexeme} (hl : l ≠ ending) (hfollow : l.follow = .stop)
    (hr : x.rereads 0 .stop = true) : Derives .expression (x.lexemes ++ l :: w) x (l :: w) := by
  have hstops : l.follow.stopsAt 0 x.appetite = true := by rw [hfollow]; rfl
  have := hx.expression (n := 0) (w := w) hl (by rwa [hfollow]) hstops
  rwa [Nat.zero_sub, behind_zero] at this

/-- A condition ends where its body starts. -/
theorem Part.Rereads.condition {c : Node} {b : Block} (hc : Part.Rereads (.node c))
    (hb : Proper (.block b)) (hr : c.rereads 0 .stop = true) (hopens : b.opens = false)
    (s : List Lexeme) : Derives .expression (c.lexemes ++ (b.lexemes ++ s)) c (b.lexemes ++ s) := by
  obtain ⟨l, w, hfirst, hl, hfollow⟩ := hb.first_block
  rw [hopens] at hfollow
  rw [hfirst, List.cons_append]
  exact hc.stopped hl hfollow hr

/-! ## Operators and lists -/

/-- The prefix operators of the language are read as they are written. -/
theorem UnaryOp.ofSymbol_symbol {op : UnaryOp} (h : op = .not ∨ op = .negate) :
    UnaryOp.ofSymbol op.symbol = op := by
  rcases h with rfl | rfl <;> decide

theorem UnaryOp.symbol_cases {op : UnaryOp} (h : op = .not ∨ op = .negate) :
    op.symbol = text "!" ∨ op.symbol = text "-" := by
  rcases h with rfl | rfl
  · exact .inl rfl
  · exact .inr rfl

/-- The infix operators are read as they are written, too, and none of them assigns. -/
theorem BinaryOp.combine_symbol {op : BinaryOp} (h : op ∈ BinaryOp.all) (l r : Node) :
    Parser.combine op.symbol l r = .binary op l r := by
  have htest : (BinaryOp.all.all fun op =>
      op.symbol != text "=" && BinaryOp.ofSymbol op.symbol == op) = true := by decide
  have := List.all_eq_true.mp htest op h
  rw [Bool.and_eq_true, bne_iff_ne, beq_iff_eq] at this
  rw [Parser.combine, if_neg (by simpa using this.1), this.2]

/-- Every infix operator of the language has a precedence. -/
theorem BinaryOp.precedence_symbol_pos {op : BinaryOp} (h : op ∈ BinaryOp.all) :
    0 < precedence op.symbol := by
  have htest : (BinaryOp.all.all fun op => 0 < precedence op.symbol) = true := by decide
  exact of_decide_eq_true (List.all_eq_true.mp htest op h)

theorem operator_ne_ending (o : Bytes) : Lexeme.operator o ≠ ending := by
  rintro ⟨⟩

theorem derives_infix {l r : Node} {o : Bytes} (ho : 0 < precedence o)
    (hl : Part.Rereads (.node l)) (hr : Part.Rereads (.node r))
    (hleft : l.rereads 0 .extend = true) (hright : r.rereads 0 .stop = true) (s : List Lexeme) :
    Derives .operand (opening :: (l.lexemes ++ .operator o :: (r.lexemes ++ closing :: s)))
      (Parser.combine o l r) s := by
  have hfirst : Derives .atom (l.lexemes ++ .operator o :: (r.lexemes ++ closing :: s)) l
      (.operator o :: (r.lexemes ++ closing :: s)) := by
    have := hl.atom (n := 0) (l := .operator o) (w := r.lexemes ++ closing :: s)
      (operator_ne_ending o) hleft
    rw [Nat.zero_sub, behind_zero] at this
    exact this (by simp)
  have hsecond : Derives .atom (r.lexemes ++ closing :: s) r (closing :: s) := by
    have := hr.atom (n := 0) (l := closing) (w := s) (by decide) hright
    rw [Nat.zero_sub, behind_zero] at this
    exact this (settled_cons (by decide)).not_opening
  -- The operator takes the right operand and nothing more, for both ends at a parenthesis.
  have hclimb : Derives (.climb l 0) _ (Parser.combine o l r) _ :=
    .climb ho hsecond (.climbed trivial) (.climbed trivial)
  exact .group rfl rfl (.expression hfirst hclimb)

/-- Names with commas between them are read as parameters. -/
theorem derives_parameters (names : List Name) (s : List Lexeme) :
    Derives (.parameters true) (nameLexemes names ++ closing :: s) names (closing :: s) := by
  have hlater : ∀ names : List Name, Derives (.parameters false)
      ((names.flatMap fun name => [comma, .identifier name]) ++ closing :: s) names
      (closing :: s) := by
    intro names
    induction names with
    | nil => exact .noParameters rfl
    | cons name names ih => exact .nextParameter rfl ih
  cases names with
  | nil => exact .noParameters rfl
  | cons name names => exact .firstParameter (hlater names)

/-- A head with distinct names and a body are read as a function. -/
theorem derives_func {name : Name} {ps : List Name} (h : ProperHead name ps) {b : Block}
    {s r : List Lexeme} (hb : Derives (.body false) s b r) :
    Derives .operand (headLexemes name ps ++ s) (.func name ps b.returning) r := by
  have hparameters := derives_parameters ps s
  have : headLexemes name ps ++ s = .keyword (text "func") :: .identifier name :: opening ::
      (nameLexemes ps ++ closing :: s) := by
    simp [headLexemes]
  rw [this]
  exact .func rfl rfl rfl hparameters h.distinct hb

/-! ## Bodies and branches -/

/-- An inline body takes the `end` behind its expression if there is one. -/
theorem derives_inline {x : Node} (hx : Part.Rereads (.node x)) {branching : Bool} {n : Nat}
    {l : Lexeme} {w : List Lexeme} (hl : l ≠ ending) (hr : x.rereads n l.follow = true)
    (hstops : l.follow.stopsAt n x.appetite = true) :
    Derives (.body branching) (x.lexemes ++ behind n l w) (.mk [x] true)
      (behind (n - (x.appetite + 1)) l w) := by
  have hexpression := hx.expression (w := w) hl hr hstops
  -- The body takes one `end` more than its expression, or none if the expression
  -- has taken all of them.
  cases hk : n - x.appetite with
  | zero =>
    rw [hk, behind_zero] at hexpression
    rw [show n - (x.appetite + 1) = 0 by omega, behind_zero]
    exact .inline hexpression (by simpa using hl)
  | succ m =>
    rw [hk, behind_succ] at hexpression
    rw [show n - (x.appetite + 1) = m by omega]
    exact .inlineEnd rfl hexpression

/-- Statements are closed by an `end`, or in a branch by the next one. -/
theorem derives_close {branching : Bool} {n : Nat} {l : Lexeme} {w : List Lexeme}
    (h : 0 < n ∨ branching = true ∧ l.follow = .turn) :
    Derives (.statements branching) (behind n l w) [] (behind (n - 1) l w) := by
  cases n with
  | succ n => exact .blockEnd rfl
  | zero =>
    -- Only the keywords `else` and `elif` turn.
    obtain ⟨rfl, hturn⟩ : branching = true ∧ l.follow = .turn := by simpa using h
    cases l with
    | keyword v =>
      have hv : v = text "else" ∨ v = text "elif" := by
        by_contra hno
        rw [Lexeme.follow, if_neg hno] at hturn
        cases hturn
      exact .blockTurn hv
    | punctuation m =>
      rw [Lexeme.follow] at hturn
      split at hturn <;> cases hturn
    | _ => cases hturn

/-- The lexemes behind a body that a tail follows. -/
theorem Tail.behind_eq (t : Tail) (n : Nat) {l : Lexeme} (w : List Lexeme) (hl : l ≠ ending) :
    ∃ l' w', t.lexemes ++ behind n l w = behind (t.ends n) l' w' ∧ l' ≠ ending ∧
      l'.follow = t.follow l.follow ∧ (0 < t.ends n ∨ true = true ∧ l'.follow = .turn) ∧
      ∀ k, behind (t.ends n - (k + 1)) l' w' = t.left k n l w := by
  cases t with
  -- The closing word of the conditional is one more word `end` behind the body.
  | none =>
    refine ⟨l, w, by rw [Tail.lexemes]; rfl, hl, rfl, .inl (Nat.succ_pos n), fun k => ?_⟩
    rw [Tail.left, Tail.ends, Nat.add_sub_add_right]
  | elif c b t =>
    -- A further branch closes the body in front of it and takes no `end`.
    have hturn : (Lexeme.keyword (text "elif")).follow = .turn := by decide
    refine ⟨.keyword (text "elif"), _, by rw [Tail.lexemes]; rfl, by decide, hturn,
      .inr ⟨rfl, hturn⟩, fun k => ?_⟩
    rw [Tail.left, Tail.lexemes, Tail.ends, Nat.zero_sub]
    · rfl
    · intro h
      cases h
  | «else» b =>
    have hturn : (Lexeme.keyword (text "else")).follow = .turn := by decide
    refine ⟨.keyword (text "else"), _, by rw [Tail.lexemes]; rfl, by decide, hturn,
      .inr ⟨rfl, hturn⟩, fun k => ?_⟩
    rw [Tail.left, Tail.lexemes, Tail.ends, Nat.zero_sub]
    · rfl
    · intro h
      cases h

theorem derives_branches {c : Node} {b : Block} {t : Tail} (hbody : Proper (.block b))
    (hc : Part.Rereads (.node c)) (hb : Part.Rereads (.block b)) (ht : Part.Rereads (.tail t))
    {n : Nat} {l : Lexeme} {w : List Lexeme} (hl : l ≠ ending)
    (h : (c.rereads 0 .stop && !b.opens && b.rereads (t.ends n) (t.follow l.follow) &&
      t.rereads b.appetite n l.follow) = true) :
    ∃ s₁ s₂, Derives .expression (c.lexemes ++ b.lexemes ++ t.lexemes ++ behind n l w) c s₁ ∧
      Derives (.body true) s₁ b s₂ ∧
      Derives .tail s₂ t (behind (n - t.appetite b.appetite) l w) := by
  rw [Bool.and_eq_true, Bool.and_eq_true, Bool.and_eq_true, Bool.not_eq_true'] at h
  obtain ⟨⟨⟨hcondition, hopens⟩, hblock⟩, htail⟩ := h
  obtain ⟨l', w', hbehind, hl', hfollow, hcloses, hleft⟩ := t.behind_eq n w hl
  refine ⟨b.lexemes ++ behind (t.ends n) l' w', t.left b.appetite n l w, ?_, ?_, ht hl htail⟩
  · rw [List.append_assoc, List.append_assoc, hbehind]
    exact hc.condition hbody hcondition hopens _
  · -- The body leaves what the tail has to see.
    have := hb (w := w') hl' (by rwa [hfollow]) hcloses
    rwa [hleft] at this

/-! ## Trees -/

/-- Statements on lines of their own are asked one by one, whatever follows. -/
theorem Block.rereads_block {ss : List Node} {n : Nat} {next : Follow} :
    (Block.mk ss false).rereads n next = rereadsEach ss := by
  rw [Block.rereads]
  intro x _ h
  cases h

theorem Node.rereads_func_block {name : Name} {ps : List Name} {ss : List Node} {n : Nat}
    {next : Follow} : (Node.func name ps (.mk ss false)).rereads n next = rereadsEach ss := by
  rw [Node.rereads]
  intro v _ h
  cases h

theorem Node.appetite_func_block {name : Name} {ps : List Name} {ss : List Node} :
    (Node.func name ps (.mk ss false)).appetite = 0 := by
  rw [Node.appetite]
  all_goals intros; simp_all

theorem Block.appetite_block {ss : List Node} : (Block.mk ss false).appetite = 0 := by
  rw [Block.appetite]
  intro x h
  cases h

/-- Reading back the calls of `f`: its argument list is read and it is called. -/
theorem calls_iff_of_arguments {f y : Node} {as : List Node} {s s₁ r : List Lexeme}
    (h : Derives (.arguments true) s as (closing :: s₁)) :
    Derives (.calls f) (opening :: s) y r ↔ Derives (.calls (.call f as)) s₁ y r := by
  constructor
  · intro hc
    cases hc with
    | uncalled hne => exact absurd rfl hne
    | call hm hm' has hc =>
      subst hm'
      -- Derivations are unique, so the arguments read here are those of `h`.
      obtain ⟨rfl, hrest⟩ := h.unique has
      cases hrest
      exact hc
  · exact fun hc => .call rfl rfl h hc

/-! One lemma for each way to build a part: it rereads if the parts that it is
built from do. A node is one operand that ends where its own text does, after the
words `end` it has taken; what is behind it may still call it. -/

/-- Parentheses keep the operand apart, so nothing behind matters. -/
theorem rereads_unary {op : UnaryOp} {x : Node} (hop : op = .not ∨ op = .negate)
    (hx : Part.Rereads (.node x)) : Part.Rereads (.node (.unary op x)) := by
  intro n l w hl hr y r
  have hatom := hx.atom (n := 0) (l := closing) (w := behind n l w) (by decide) hr
  rw [Nat.zero_sub, behind_zero] at hatom
  have hunary := Derives.unary (UnaryOp.symbol_cases hop)
    (hatom (settled_cons (by decide)).not_opening)
  rw [UnaryOp.ofSymbol_symbol hop] at hunary
  have hinside : Derives .expression _ _ (closing :: behind n l w) :=
    .expression (.atom hunary (.uncalled (settled_cons (by decide)).not_opening))
      (.climbed trivial)
  have hgroup := Derives.group (m := text "(") rfl rfl hinside
  have hoperand : Derives .operand ((Node.unary op x).lexemes ++ behind n l w) (.unary op x)
      (behind n l w) := by
    simpa using hgroup
  exact atom_iff_of_operand hoperand

/-- The same around an infix operator, in front of which the left operand has to end. -/
theorem rereads_binary {op : BinaryOp} {a b : Node} (hop : op ∈ BinaryOp.all)
    (ha : Part.Rereads (.node a)) (hb : Part.Rereads (.node b)) :
    Part.Rereads (.node (.binary op a b)) := by
  intro n l w _ hr y r
  rw [Node.rereads, Bool.and_eq_true] at hr
  have hoperand := derives_infix (BinaryOp.precedence_symbol_pos hop) ha hb hr.1 hr.2
    (behind n l w)
  rw [BinaryOp.combine_symbol hop] at hoperand
  refine atom_iff_of_operand ?_
  simpa using hoperand

/-- An assignment is read back as an infix operator is. -/
theorem rereads_assign {a b : Node} (ha : Part.Rereads (.node a))
    (hb : Part.Rereads (.node b)) : Part.Rereads (.node (.assign a b)) := by
  intro n l w _ hr y r
  rw [Node.rereads, Bool.and_eq_true] at hr
  have hoperand := derives_infix (o := text "=") (by decide) ha hb hr.1 hr.2 (behind n l w)
  refine atom_iff_of_operand ?_
  simpa [Parser.combine] using hoperand

/-- The function of a call has to end in front of the arguments. -/
theorem rereads_call {c : Node} {as : List Node} (hc : Part.Rereads (.node c))
    (has : Part.Rereads (.each as)) : Part.Rereads (.node (.call c as)) := by
  intro n l w _ hr y r
  rw [Node.rereads, Bool.and_eq_true] at hr
  obtain ⟨-, -, harguments, -⟩ := has hr.2
  -- The callee is followed by its argument list, so it is read as called.
  have hcallee := hc (n := 0) (l := opening)
    (w := argumentLexemes as ++ closing :: behind n l w) (by decide) hr.1 (y := y) (r := r)
  rw [Nat.zero_sub, behind_zero] at hcallee
  have hcalls := calls_iff_of_arguments (f := c) (y := y) (r := r)
    (harguments (s := behind n l w))
  simpa using hcallee.trans hcalls

/-- An inline function takes an `end` behind its value, if there is one. -/
theorem rereads_inlineFunc {name : Name} {ps : List Name} {v : Node} (hhead : ProperHead name ps)
    (hv : Part.Rereads (.node v)) :
    Part.Rereads (.node (.func name ps (.mk [.ret v] true))) := by
  intro n l w hl hr y r
  rw [Node.rereads, Bool.and_eq_true] at hr
  have hbody : Derives (.body false) _ _ _ := derives_inline (w := w) hv hl hr.1 hr.2
  have hoperand := derives_func hhead hbody
  refine atom_iff_of_operand ?_
  rw [Node.lexemes, List.append_assoc, Node.appetite]
  exact hoperand

/-- A function with statements is closed by its own `end`. -/
theorem rereads_blockFunc {name : Name} {ps : List Name} {ss : List Node}
    (hhead : ProperHead name ps) (hss : Part.Rereads (.each ss)) :
    Part.Rereads (.node (.func name ps (.mk ss false))) := by
  intro n l w _ hr y r
  rw [Node.rereads_func_block] at hr
  have hclose : Derives (.statements false) (ending :: behind n l w) [] (behind n l w) :=
    .blockEnd rfl
  have hbody := Derives.block (m := Lexeme.newline) rfl ((hss hr).1 hclose)
  have hoperand := derives_func hhead hbody
  rw [Block.returning_block] at hoperand
  refine atom_iff_of_operand ?_
  rw [Node.lexemes_func_block, Block.lexemes_block, Node.appetite_func_block]
  simpa [Lexeme.separator] using hoperand

/-- A conditional, by its condition, its body and what stands behind it. -/
theorem rereads_branch {c : Node} {b : Block} {t : Tail} (hbody : Proper (.block b))
    (hc : Part.Rereads (.node c)) (hb : Part.Rereads (.block b)) (ht : Part.Rereads (.tail t)) :
    Part.Rereads (.node (.branch c b t)) := by
  intro n l w hl hr y r
  obtain ⟨s₁, s₂, hcondition, hblock, htail⟩ := derives_branches hbody hc hb ht (w := w) hl hr
  refine atom_iff_of_operand ?_
  rw [Node.lexemes, List.cons_append, Node.appetite]
  exact .branch rfl hcondition hblock htail

/-- A loop hands its body the `end` that closes it. -/
theorem rereads_loop {c : Node} {b : Block} (hbody : Proper (.block b))
    (hc : Part.Rereads (.node c)) (hb : Part.Rereads (.block b)) :
    Part.Rereads (.node (.loop c b)) := by
  intro n l w hl hr y r
  rw [Node.rereads, Bool.and_eq_true, Bool.and_eq_true, Bool.not_eq_true'] at hr
  obtain ⟨⟨hcondition, hopens⟩, hrb⟩ := hr
  have hexpression := hc.condition hbody hcondition hopens (behind (n + 1) l w)
  have hblock : Derives (.body false) _ _ _ := hb (w := w) hl hrb (.inl (Nat.succ_pos n))
  rw [Nat.add_sub_add_right] at hblock
  refine atom_iff_of_operand ?_
  rw [Node.appetite]
  have hloop := Derives.loop (w := text "while") rfl hexpression hblock
  simpa [behind_succ] using hloop

/-- A return reaches as far as its value. -/
theorem rereads_ret {v : Node} (hv : Part.Rereads (.node v)) :
    Part.Rereads (.node (.ret v)) := by
  intro n l w hl hr y r
  rw [Node.rereads, Bool.and_eq_true] at hr
  have hexpression := hv.expression (w := w) hl hr.1 hr.2
  refine atom_iff_of_operand ?_
  rw [Node.lexemes, List.cons_append, Node.appetite]
  exact .ret rfl hexpression

/-- An inline body reaches as far as its expression, and takes an `end`. -/
theorem rereads_inline {x : Node} (hx : Part.Rereads (.node x)) :
    Part.Rereads (.block (.mk [x] true)) := by
  intro branching n l w hl hr _
  rw [Block.rereads, Bool.and_eq_true] at hr
  exact derives_inline hx hl hr.1 hr.2

/-- Statements are closed by an `end`, or in a branch by the next one. -/
theorem rereads_block {ss : List Node} (hss : Part.Rereads (.each ss)) :
    Part.Rereads (.block (.mk ss false)) := by
  intro branching n l w _ hr hcloses
  rw [Block.rereads_block] at hr
  rw [Block.lexemes_block, Block.appetite_block]
  exact .block rfl ((hss hr).1 (derives_close hcloses))

/-- Without a further branch the next lexeme must not start one. -/
theorem rereads_none : Part.Rereads (.tail .none) := by
  intro k n l w _ hr
  rw [Tail.rereads, Bool.or_eq_true, bne_iff_ne, decide_eq_true_eq] at hr
  -- Neither an `end` that is left nor `l` opens another branch.
  have hturn : ∀ m ∈ (behind (n - k) l w).head?, m.follow ≠ .turn := by
    cases hk : n - k with
    | zero =>
      rcases hr with hr | hr
      · rintro _ ⟨⟩
        exact hr
      · omega
    | succ m =>
      rintro _ ⟨⟩
      decide
  exact .noTail (fun h => hturn _ h (by decide)) (fun h => hturn _ h (by decide))

/-- A further branch is read back as a conditional is. -/
theorem rereads_elif {c : Node} {b : Block} {t : Tail} (hbody : Proper (.block b))
    (hc : Part.Rereads (.node c)) (hb : Part.Rereads (.block b)) (ht : Part.Rereads (.tail t)) :
    Part.Rereads (.tail (.elif c b t)) := by
  intro k n l w hl hr
  obtain ⟨s₁, s₂, hcondition, hblock, htail⟩ := derives_branches hbody hc hb ht (w := w) hl hr
  rw [Tail.left, Tail.lexemes, List.cons_append, Tail.appetite]
  exact .elif rfl hcondition hblock htail

/-- The last branch hands its body the `end` that closes the conditional. -/
theorem rereads_else {b : Block} (hb : Part.Rereads (.block b)) :
    Part.Rereads (.tail (.else b)) := by
  intro k n l w hl hr
  have hblock : Derives (.body false) _ _ _ := hb (w := w) hl hr (.inl (Nat.succ_pos n))
  rw [Nat.add_sub_add_right] at hblock
  have helse := Derives.else (w := text "else") rfl hblock
  rw [Tail.left, Tail.appetite]
  simpa [behind_succ] using helse

/-- A list is read back if all of it is, as lines or as arguments. -/
theorem rereads_cons {x : Node} {xs : List Node} (hx : Part.Rereads (.node x))
    (hxs : Part.Rereads (.each xs)) : Part.Rereads (.each (x :: xs)) := by
  intro hr
  rw [rereadsEach, Bool.and_eq_true] at hr
  obtain ⟨hlines, hprogram, -, hlater⟩ := hxs hr.2
  -- In front of a separator, a comma or `)` an expression always stops.
  have hline : ∀ s, Derives .expression (x.lexemes ++ .separator :: s) x (.separator :: s) :=
    fun s => hx.stopped (by decide) (by decide) hr.1
  have hargument : ∀ s, Derives .expression (x.lexemes ++ (laterLexemes xs ++ closing :: s)) x
      (laterLexemes xs ++ closing :: s) := by
    intro s
    cases xs with
    | nil => exact hx.stopped (by decide) (by decide) hr.1
    | cons z zs => exact hx.stopped (l := comma) (by decide) (by decide) hr.1
  refine ⟨?_, ?_, ?_, ?_⟩
  · intro branching s r hs
    rw [lineLexemes, List.append_assoc, List.cons_append]
    exact .statement rfl (hline _) (hlines hs)
  · rw [lineLexemes]
    exact .line rfl (hline _) hprogram
  · intro s
    rw [argumentLexemes, List.append_assoc]
    exact .firstArgument (hargument s) hlater
  · intro s
    rw [laterLexemes, List.cons_append, List.append_assoc]
    exact .nextArgument rfl (hargument s) hlater

/-- Every part of a proper tree is read back where it asks to be. -/
theorem Proper.rereads {part : Part} (h : Proper part) : part.Rereads := by
  induction h with
  | int => exact fun _ _ => atom_iff_of_operand .int
  | float => exact fun _ _ => atom_iff_of_operand .float
  | str => exact fun _ _ => atom_iff_of_operand .str
  | bool => exact fun _ _ => atom_iff_of_operand (.bool rfl)
  | ident => exact fun _ _ => atom_iff_of_operand .ident
  | unary hop _ ihx => exact rereads_unary hop ihx
  | binary hop _ _ iha ihb => exact rereads_binary hop iha ihb
  | assign _ _ iha ihb => exact rereads_assign iha ihb
  | call _ _ ihc ihas => exact rereads_call ihc ihas
  | inlineFunc hhead _ ihv => exact rereads_inlineFunc hhead ihv
  | blockFunc hhead _ ihss => exact rereads_blockFunc hhead ihss
  | branch _ hb _ ihc ihb iht => exact rereads_branch hb ihc ihb iht
  | loop _ hb ihc ihb => exact rereads_loop hb ihc ihb
  | ret _ ihv => exact rereads_ret ihv
  | inline _ ihx => exact rereads_inline ihx
  | block _ ihss => exact rereads_block ihss
  | none => exact rereads_none
  | elif _ hb _ ihc ihb iht => exact rereads_elif hb ihc ihb iht
  | «else» _ ihb => exact rereads_else ihb
  | nil => exact fun _ => ⟨fun h => h, .finished, .noArguments rfl, .noArguments rfl⟩
  | cons _ _ ihx ihxs => exact rereads_cons ihx ihxs

/-- The text of a proper program that rereads is parsed as this program. -/
theorem parse_render_of_rereads {p : Program} (h : Proper (.each p.statements))
    (hr : p.rereads = true) : parse p.render = .ok p := by
  obtain ⟨ts, hts, hlexemes⟩ := exists_tokenize_render h
  have hprogram := (h.rereads hr).2.1
  rw [← hlexemes] at hprogram
  exact parse_of_derives hts hprogram

/-! ## Trees without inline bodies -/

/-- Literals, names, operators, assignments and calls. -/
inductive IsExpression : Node → Prop where
  | int {n} (hn : 0 ≤ n) : IsExpression (.int n)
  | float {d} (hneg : d.isNegative = false) (hnan : d.isNaN = false) : IsExpression (.float d)
  | str {s} (hs : isQuotable false s = true) : IsExpression (.str s)
  | bool {b} : IsExpression (.bool b)
  | ident {name} (hname : isVariableName name = true) : IsExpression (.ident name)
  | unary {op x} (hop : op = .not ∨ op = .negate) (hx : IsExpression x) :
      IsExpression (.unary op x)
  | binary {op l r} (hop : op ∈ BinaryOp.all) (hl : IsExpression l) (hr : IsExpression r) :
      IsExpression (.binary op l r)
  | assign {l r} (hl : IsExpression l) (hr : IsExpression r) : IsExpression (.assign l r)
  | call {c as} (hc : IsExpression c) (has : ∀ a ∈ as, IsExpression a) :
      IsExpression (.call c as)

/-- Expressions, returns of expressions, functions, conditionals and loops, with
    all bodies on lines of their own. -/
inductive IsStatement : Part → Prop where
  | expression {x} (hx : IsExpression x) : IsStatement (.node x)
  | ret {x} (hx : IsExpression x) : IsStatement (.node (.ret x))
  | func {name ps ss} (hname : isVariableName name = true)
      (hps : ∀ p ∈ ps, isVariableName p = true) (hdistinct : ps.Nodup)
      (hss : ∀ s ∈ ss, IsStatement (.node s)) : IsStatement (.node (.func name ps (.mk ss false)))
  | branch {c b t} (hc : IsExpression c) (hb : IsStatement (.block b))
      (ht : IsStatement (.tail t)) : IsStatement (.node (.branch c b t))
  | loop {c b} (hc : IsExpression c) (hb : IsStatement (.block b)) :
      IsStatement (.node (.loop c b))
  | block {ss} (hss : ∀ s ∈ ss, IsStatement (.node s)) : IsStatement (.block (.mk ss false))
  | none : IsStatement (.tail .none)
  | elif {c b t} (hc : IsExpression c) (hb : IsStatement (.block b))
      (ht : IsStatement (.tail t)) : IsStatement (.tail (.elif c b t))
  | else {b} (hb : IsStatement (.block b)) : IsStatement (.tail (.else b))

theorem proper_each {xs : List Node} (h : ∀ x ∈ xs, Proper (.node x)) : Proper (.each xs) := by
  induction xs with
  | nil => exact .nil
  | cons x xs ih =>
    obtain ⟨hx, hxs⟩ := List.forall_mem_cons.mp h
    exact .cons hx (ih hxs)

theorem rereadsEach_of_forall {xs : List Node} (h : ∀ x ∈ xs, x.rereads 0 .stop = true) :
    rereadsEach xs = true := by
  induction xs with
  | nil => rfl
  | cons x xs ih =>
    obtain ⟨hx, hxs⟩ := List.forall_mem_cons.mp h
    simp [hx, ih hxs]

/-- No parameter stands twice exactly when the names are distinct. -/
theorem repeated?_eq_none {names seen : List Name} (hnames : names.Nodup)
    (hseen : ∀ name ∈ names, name ∉ seen) : Parser.repeated? seen names = none := by
  induction names generalizing seen with
  | nil => rfl
  | cons name names ih =>
    obtain ⟨hfirst, hnames⟩ := List.nodup_cons.mp hnames
    obtain ⟨hnew, hseen⟩ := List.forall_mem_cons.mp hseen
    rw [Parser.repeated?, if_neg (by simpa using hnew)]
    refine ih hnames fun other hother => ?_
    rw [List.mem_cons, not_or]
    exact ⟨fun heq => hfirst (heq ▸ hother), hseen other hother⟩

/-- Expressions without bodies are proper. -/
theorem IsExpression.proper {x : Node} (h : IsExpression x) : Proper (.node x) := by
  induction h with
  | int hn => exact .int hn
  | float hneg hnan => exact .float hneg hnan
  | str hs => exact .str hs
  | bool => exact .bool
  | ident hname => exact .ident hname
  | unary hop _ ihx => exact .unary hop ihx
  | binary hop _ _ ihl ihr => exact .binary hop ihl ihr
  | assign _ _ ihl ihr => exact .assign ihl ihr
  | call _ _ ihc ihas => exact .call ihc (proper_each ihas)

/-- An expression of this kind is read back wherever it stands: all its parts
    are closed. -/
theorem IsExpression.rereads {x : Node} (h : IsExpression x) (n : Nat) (next : Follow) :
    x.rereads n next = true := by
  induction h generalizing n next with
  | int | float | str | bool | ident => rfl
  | unary _ _ ihx => exact ihx 0 .stop
  | binary _ _ _ ihl ihr | assign _ _ ihl ihr =>
    simp [ihl, ihr]
  | call _ _ ihc ihas =>
    simp [ihc, rereadsEach_of_forall fun a ha => ihas a ha 0 .stop]

/-- So are statements whose bodies stand on lines of their own. -/
theorem IsStatement.proper {part : Part} (h : IsStatement part) : Proper part := by
  induction h with
  | expression hx => exact hx.proper
  | ret hx => exact .ret hx.proper
  | func hname hps hdistinct _ ihss =>
    exact .blockFunc ⟨hname, hps, repeated?_eq_none hdistinct (by simp)⟩ (proper_each ihss)
  | branch hc _ _ ihb iht => exact .branch hc.proper ihb iht
  | loop hc _ ihb => exact .loop hc.proper ihb
  | block _ ihss => exact .block (proper_each ihss)
  | none => exact .none
  | elif hc _ _ ihb iht => exact .elif hc.proper ihb iht
  | «else» _ ihb => exact .else ihb

/-- What reading back asks of the parts of a statement with nothing behind it. -/
def Part.rereadsAlone : Part → Prop
  | .node x => x.rereads 0 .stop = true
  | .block b => b.opens = false ∧ ∀ n next, b.rereads n next = true
  | .tail t => ∀ k, t.rereads k 0 .stop = true
  | .each xs => rereadsEach xs = true

/-- All bodies being closed, nothing behind them is taken. -/
theorem IsStatement.rereadsAlone {part : Part} (h : IsStatement part) : part.rereadsAlone := by
  induction h with
  | expression hx => exact hx.rereads 0 .stop
  | ret hx =>
    show (_ && _) = true
    rw [hx.rereads]
    rfl
  | func _ _ _ _ ihss =>
    show Node.rereads _ _ _ = true
    rw [Node.rereads_func_block]
    exact rereadsEach_of_forall ihss
  | branch hc _ _ ihb iht =>
    show Node.rereads _ _ _ = true
    simpa [hc.rereads, ihb.1, ihb.2] using iht _
  | loop hc _ ihb =>
    show Node.rereads _ _ _ = true
    simp [hc.rereads, ihb.1, ihb.2]
  | block _ ihss =>
    refine ⟨?_, fun n next => ?_⟩
    · -- The body starts with a line break, so it opens no parenthesis.
      rw [Block.opens]
      intro x h
      cases h
    · rw [Block.rereads_block]
      exact rereadsEach_of_forall ihss
  | none => exact fun _ => rfl
  | elif hc _ _ ihb iht =>
    intro k
    simpa [hc.rereads, ihb.1, ihb.2] using iht _
  | «else» _ ihb => exact fun _ => ihb.2 _ _

/-- The text of a program whose bodies all stand on lines of their own is parsed
    as this program, whether the program was parsed itself or built by hand. -/
theorem parse_render_structured {p : Program} (h : ∀ x ∈ p.statements, IsStatement (.node x)) :
    parse p.render = .ok p :=
  parse_render_of_rereads (proper_each fun x hx => (h x hx).proper)
    (rereadsEach_of_forall fun x hx => (h x hx).rereadsAlone)

/-- A function with a conditional, an empty branch and literals of all kinds. -/
theorem parse_render_structured_func :
    parse (⟨[.func (text "f") [text "a", text "b"] (.mk [.branch
      (.binary .less (.call (.ident (text "a")) [.int 7, .str (text "s")])
        (.float Double.infinity))
      (.mk [.ret (.unary .not (.bool true))] false) (.else (.mk [] false))] false)]⟩ :
        Program).render = .ok ⟨[.func (text "f") [text "a", text "b"] (.mk [.branch
      (.binary .less (.call (.ident (text "a")) [.int 7, .str (text "s")])
        (.float Double.infinity))
      (.mk [.ret (.unary .not (.bool true))] false) (.else (.mk [] false))] false)]⟩ := by
  refine parse_render_structured ?_
  simp only [List.forall_mem_cons, List.not_mem_nil, false_implies, implies_true, and_true]
  refine .func (by decide) (by decide) (by decide) ?_
  simp only [List.forall_mem_cons, List.not_mem_nil, false_implies, implies_true, and_true]
  refine .branch (.binary (by decide) (.call (.ident (by decide)) ?_)
    (.float (by decide) (by decide))) (.block ?_) (.else (.block (by simp)))
  · simp only [List.forall_mem_cons, List.not_mem_nil, false_implies, implies_true, and_true]
    exact ⟨.int (by decide), .str (by decide)⟩
  · simp only [List.forall_mem_cons, List.not_mem_nil, false_implies, implies_true, and_true]
    exact .ret (.unary (.inl rfl) .bool)

end Scriptlet

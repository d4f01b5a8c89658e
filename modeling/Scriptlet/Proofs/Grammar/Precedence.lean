/-
  Scriptlet.Proofs.Grammar.Precedence

  Operands with operators between them on one line: how they are grouped.

  A `Grouping` is a tree over the operands, and an ordered one has at every operator
  only operators on its left that bind at least as tightly and only operators on its
  right that bind more tightly. Adding an operator and an operand behind an ordered
  grouping gives one ordered grouping again (`Grouping.extend`), and every ordered
  grouping arises so, hence a sequence has exactly one (`Grouping.exists_ordered`,
  `Grouping.eq_of_sequence`).

  The parser finds it: climbing from the first operand with a level below the operators
  of an ordered grouping goes on behind the grouping with its node
  (`Grouping.climbs`). This is where the two recursions of climbing meet. The right
  operand is climbed at the level of its operator, so it ends before an operator that
  binds no more tightly, and then the whole is climbed on at the level from before.
-/
import Scriptlet.Proofs.Grammar.Pieces
import Scriptlet.Proofs.Render.Reread

namespace Scriptlet

open Lexeme (opening closing)

/-! ## Operators between operands -/

/-- An operator that stands between operands. -/
inductive Connective where
  | assign
  | binary (op : BinaryOp) (known : op ∈ BinaryOp.all)

namespace Connective

def symbol : Connective → Bytes
  | .assign => text "="
  | .binary op _ => op.symbol

/-- How tightly the operator binds. -/
def precedence (o : Connective) : Nat := Scriptlet.precedence o.symbol

/-- The node of the operator between two operands. -/
def node : Connective → Node → Node → Node
  | .assign => .assign
  | .binary op _ => .binary op

/-- Every connective has a precedence of its own, above that of other operators. -/
theorem precedence_pos (o : Connective) : 0 < o.precedence := by
  cases o with
  | assign => decide
  | binary op known => exact BinaryOp.precedence_symbol_pos known

/-- Every operator of the precedence table stands between operands. -/
theorem exists_of_precedence {s : Bytes} (h : 0 < Scriptlet.precedence s) :
    ∃ o : Connective, o.symbol = s := by
  have hmem : s = text "=" ∨ ∃ op ∈ BinaryOp.all, op.symbol = s := by
    -- Any other symbol falls through the whole table.
    by_contra hne
    simp only [BinaryOp.all, List.mem_cons, List.not_mem_nil, or_false, exists_eq_or_imp,
      exists_eq_left, BinaryOp.symbol, not_or, @eq_comm _ _ s] at hne
    simp [Scriptlet.precedence, hne] at h
  rcases hmem with rfl | ⟨op, hop, rfl⟩
  · exact ⟨.assign, rfl⟩
  · exact ⟨.binary op hop, rfl⟩

theorem combine_symbol (o : Connective) (l r : Node) :
    Parser.combine o.symbol l r = o.node l r := by
  cases o with
  | assign => rfl
  | binary op known => exact BinaryOp.combine_symbol known l r

theorem isOperator_symbol (o : Connective) : IsOperator o.symbol := by
  cases o with
  | assign => exact isOperator_of_all (by decide)
  | binary op known => exact BinaryOp.isOperator_symbol known

end Connective

/-! ## Groupings -/

/-- A tree over operands. -/
inductive Grouping (α : Type) where
  | operand (x : α)
  | join (o : Connective) (left right : Grouping α)

namespace Grouping

variable {α β : Type} {g h : Grouping α} {o p : Connective} {x : α}

/-- The operands and operators from left to right. -/
def sequence : Grouping α → List (α ⊕ Connective)
  | .operand x => [.inl x]
  | .join o l r => l.sequence ++ .inr o :: r.sequence

/-- The operator at the root. -/
def root? : Grouping α → Option Connective
  | .operand _ => none
  | .join o _ _ => some o

/-- At every operator, the operator at the root of the left part binds at least as tightly,
    and the one at the root of the right part more tightly. -/
def Ordered : Grouping α → Prop
  | .operand _ => True
  | .join o l r => l.Ordered ∧ r.Ordered ∧ (∀ p ∈ l.root?, o.precedence ≤ p.precedence) ∧
      ∀ p ∈ r.root?, o.precedence < p.precedence

/-- The expression of a grouping of expressions. -/
def node : Grouping Node → Node
  | .operand x => x
  | .join o l r => o.node l.node r.node

def map (f : α → β) : Grouping α → Grouping β
  | .operand x => .operand (f x)
  | .join o l r => .join o (l.map f) (r.map f)

/-- Changing operands changes no operator. -/
theorem root?_map (f : α → β) (g : Grouping α) : (g.map f).root? = g.root? := by
  cases g <;> rfl

/-- What stands in the tree from left to right changes operand by operand. -/
theorem sequence_map (f : α → β) (g : Grouping α) :
    (g.map f).sequence = g.sequence.map (Sum.map f id) := by
  induction g with
  | operand x => rfl
  | join o l r ihl ihr => simp [map, sequence, ihl, ihr]

/-- The order is one of operators only. -/
theorem Ordered.map (f : α → β) (hg : g.Ordered) : (g.map f).Ordered := by
  induction g with
  | operand x => trivial
  | join o l r ihl ihr =>
    obtain ⟨hl, hr, hleft, hright⟩ := hg
    refine ⟨ihl hl, ihr hr, ?_, ?_⟩
    · rwa [root?_map]
    · rwa [root?_map]

/-! ### One more operator and operand -/

/-- The grouping with an operator and an operand added behind it: the operator takes all on
    its left that binds at least as tightly. -/
def extend (o : Connective) (x : α) : Grouping α → Grouping α
  | .operand y => .join o (.operand y) (.operand x)
  | .join p l r =>
    if o.precedence ≤ p.precedence then .join o (.join p l r) (.operand x)
    else .join p l (r.extend o x)

/-- The added operator and operand come last. -/
theorem sequence_extend (o : Connective) (x : α) (g : Grouping α) :
    (g.extend o x).sequence = g.sequence ++ [.inr o, .inl x] := by
  induction g with
  | operand y => rfl
  | join p l r ihl ihr =>
    unfold extend
    split
    · rfl
    · simp [sequence, ihr]

/-- The root is the new operator, or still the old one, which then binds less tightly. -/
theorem root?_extend (o : Connective) (x : α) (g : Grouping α) :
    (g.extend o x).root? = some o ∧ (∀ p ∈ g.root?, o.precedence ≤ p.precedence) ∨
      ∃ p, (g.extend o x).root? = some p ∧ g.root? = some p ∧ p.precedence < o.precedence := by
  cases g with
  | operand y => exact .inl ⟨rfl, nofun⟩
  | join p l r =>
    unfold extend
    split
    · rename_i hle
      exact .inl ⟨rfl, by rintro _ ⟨⟩; exact hle⟩
    · rename_i hlt
      exact .inr ⟨p, rfl, rfl, by omega⟩

/-- Adding behind an ordered grouping keeps it ordered. -/
theorem Ordered.extend (o : Connective) (x : α) (hg : g.Ordered) : (g.extend o x).Ordered := by
  induction g with
  | operand y => exact ⟨trivial, trivial, nofun, nofun⟩
  | join p l r ihl ihr =>
    unfold Grouping.extend
    split
    · -- The new operator takes the whole tree as its left part.
      rename_i hle
      exact ⟨hg, trivial, by rintro _ ⟨⟩; exact hle, nofun⟩
    · -- It goes into the right part, whose root stays above `p` either way.
      rename_i hlt
      obtain ⟨hl, hr, hleft, hright⟩ := hg
      refine ⟨hl, ihr hr, hleft, fun q hq => ?_⟩
      rcases root?_extend o x r with ⟨hroot, -⟩ | ⟨q', hroot, hold, -⟩
      · cases hroot.symm.trans hq
        omega
      · cases hroot.symm.trans hq
        exact hright q hold

/-- An ordered grouping is an operand, or an ordered one with an operator and an operand
    added behind it. -/
theorem Ordered.cases_extend (hg : g.Ordered) :
    (∃ x, g = .operand x) ∨ ∃ o x h, h.Ordered ∧ g = Grouping.extend o x h := by
  induction g with
  | operand x => exact .inl ⟨x, rfl⟩
  | join o l r ihl ihr =>
    obtain ⟨hl, hr, hleft, hright⟩ := hg
    right
    rcases ihr hr with ⟨x, rfl⟩ | ⟨p, x, h, hh, rfl⟩
    · -- All of the left part binds at least as tightly.
      refine ⟨o, x, l, hl, ?_⟩
      cases l with
      | operand y => rfl
      | join q l₁ l₂ => exact (if_pos (hleft q rfl)).symm
    · -- What was added behind the right part was added behind the whole.
      have hbehind : o.precedence < p.precedence ∧ ∀ q ∈ h.root?, o.precedence < q.precedence := by
        rcases root?_extend p x h with ⟨hroot, hall⟩ | ⟨q, hroot, hold, hlt⟩
        · have hp := hright p hroot
          exact ⟨hp, fun q hq => Nat.lt_of_lt_of_le hp (hall q hq)⟩
        · have hq := hright q hroot
          exact ⟨hq.trans hlt, fun q' hq' => by cases hold.symm.trans hq'; exact hq⟩
      refine ⟨p, x, .join o l h, ⟨hl, hh, hleft, hbehind.2⟩, ?_⟩
      exact (if_neg (by omega)).symm

/-- Every sequence of operands with operators between them has an ordered grouping. -/
theorem exists_ordered (x : α) (links : List (Connective × α)) :
    ∃ g : Grouping α, g.Ordered ∧
      g.sequence = .inl x :: links.flatMap fun k => [.inr k.1, .inl k.2] := by
  -- From the front: every further operator is added behind an ordered grouping.
  induction links using List.reverseRecOn with
  | nil => exact ⟨.operand x, trivial, rfl⟩
  | append_singleton links k ih =>
    obtain ⟨g, hg, hsequence⟩ := ih
    refine ⟨g.extend k.1 k.2, hg.extend k.1 k.2, ?_⟩
    simp [sequence_extend, hsequence]

/-- A sequence has no more than one ordered grouping. -/
theorem eq_of_sequence (hg : g.Ordered) (hh : h.Ordered) (heq : g.sequence = h.sequence) :
    g = h := by
  -- The last operator and operand were added behind the rest on both sides.
  induction hn : g.sequence.length using Nat.strongRecOn generalizing g h with
  | ind n ih =>
    rcases hg.cases_extend with ⟨x, rfl⟩ | ⟨o, x, g', hg', rfl⟩
    · rcases hh.cases_extend with ⟨y, rfl⟩ | ⟨p, y, h', hh', rfl⟩
      · cases heq
        rfl
      · have hlength := congrArg List.length heq
        simp [sequence_extend, sequence] at hlength
    · rcases hh.cases_extend with ⟨y, rfl⟩ | ⟨p, y, h', hh', rfl⟩
      · have hlength := congrArg List.length heq
        simp [sequence_extend, sequence] at hlength
      · rw [sequence_extend, sequence_extend] at heq
        obtain ⟨hrest, hlast⟩ := List.append_inj' heq rfl
        cases hlast
        rw [ih g'.sequence.length (by simp [← hn, sequence_extend]) hg' hh' hrest rfl]

end Grouping

/-! ## Operands -/

/-- Lexemes of a literal, a name, an expression in parentheses, or calls of such, and what
    they read as. -/
inductive Primary : List Lexeme → Node → Prop where
  | ident {name} : Primary [.identifier name] (.ident name)
  | str {contents} : Primary [.string contents] (.str contents)
  | int {literal n} : Primary [.integer literal n] (.int n)
  | float {literal d} : Primary [.float literal d] (.float d)
  | bool {b} : Primary [.keyword (renderBool b)] (.bool b)
  | group {s x} (hx : Derives .expression (s ++ [closing]) x [closing]) :
      Primary (opening :: (s ++ [closing])) x
  | call {s f args xs} (hf : Primary s f)
      (hxs : Derives (.arguments true) (args ++ [closing]) xs [closing]) :
      Primary (s ++ opening :: (args ++ [closing])) (.call f xs)

/-- Lexemes of an operand: such a one, or one behind prefix operators. -/
inductive IsOperand : List Lexeme → Node → Prop where
  | primary {s x} (h : Primary s x) : IsOperand s x
  | unary {op s x} (hop : op = UnaryOp.not ∨ op = .negate) (h : IsOperand s x) :
      IsOperand (.operator op.symbol :: s) (.unary op x)

/-- The calls behind calls of an operand are calls of it. -/
theorem Primary.atom {s t r : List Lexeme} {f x : Node} (h : Primary s f)
    (hcalls : Derives (.calls f) t x r) : Derives .atom (s ++ t) x r := by
  induction h generalizing t with
  | ident => exact .atom .ident hcalls
  | str => exact .atom .str hcalls
  | int => exact .atom .int hcalls
  | float => exact .atom .float hcalls
  | bool => exact .atom (.bool rfl) hcalls
  | group hx =>
    have hgroup := hx.append (t := t) (List.cons_ne_nil _ _)
    exact .atom (.group rfl rfl hgroup) hcalls
  | call _ hxs ih =>
    have harguments := hxs.append (t := t) (List.cons_ne_nil _ _)
    rw [List.append_assoc]
    exact ih (.call rfl rfl harguments hcalls)

/-- An operand is read as an atom where no call follows. -/
theorem IsOperand.atom {s t : List Lexeme} {x : Node} (h : IsOperand s x)
    (ht : t.head? ≠ some opening) : Derives .atom (s ++ t) x t := by
  induction h with
  | primary h => exact h.atom (.uncalled ht)
  | @unary op s x hop _ ih =>
    have hoperand := Derives.unary (UnaryOp.symbol_cases hop) ih
    rw [UnaryOp.ofSymbol_symbol hop] at hoperand
    exact .atom hoperand (.uncalled ht)

/-- An operand is an expression of its own. -/
theorem IsOperand.expression {s t : List Lexeme} {x : Node} (h : IsOperand s x)
    (ht : Settled t) : Derives .expression (s ++ t) x t :=
  .expression (h.atom ht.not_opening) (.climbed (ht.climbed 0))

/-- The lexemes of a text as it stands, if it can be split behind a lexeme. -/
def lexemesOf? (w : Bytes) : Option (List Lexeme) :=
  match (⟨w, ⟨1, 0⟩, false⟩ : Cursor).tokens with
  | (ts, none) => some (ts.map Token.lexeme)
  | (_, some _) => none

/-- The text of an operand, with its lexemes and what it reads as. -/
structure Operand where
  spelling : Bytes
  lexemes : List Lexeme
  node : Node
  reads : lexemesOf? spelling = some lexemes
  isOperand : IsOperand lexemes node

/-! ### Texts of operands -/

/-- No byte that could lengthen a word, a number or an operator comes first. -/
def Rests (s : Bytes) : Prop :=
  Stops (fun b => Byte.isIdentifierPart b || Byte.isNumberPart b || Byte.isOperator b) s

/-- What starts with no such byte continues no run of a narrower class. -/
theorem Rests.stops {s : Bytes} (h : Rests s) {p : UInt8 → Bool}
    (hp : ∀ b, p b = true →
      (Byte.isIdentifierPart b || Byte.isNumberPart b || Byte.isOperator b) = true) :
    Stops p s := by
  intro b hb
  cases hpb : p b with
  | false => rfl
  | true => exact (hp b hpb).symm.trans (h b hb)

theorem rests_of_blank {b : UInt8} (hb : Byte.isBlank b = true) (s : Bytes) : Rests (b :: s) := by
  refine stops_cons.mpr ?_
  simp only [Byte.isBlank, Bool.or_eq_true, beq_iff_eq] at hb
  rcases hb with (((rfl | rfl) | rfl) | rfl) | rfl <;> decide

theorem rests_of_line (s : Bytes) : Rests (10 :: s) := stops_cons.mpr (by decide)

/-- A run that stops in a text or at its end stops there before a further text too. -/
theorem Stops.append_rests {p : UInt8 → Bool} {s t : Bytes} (h : Stops p s) (ht : Stops p t) :
    Stops p (s ++ t) := by
  cases s with
  | nil => exact ht
  | cons b s => exact stops_cons.mpr (stops_cons.mp h)

/-- Nothing stays nothing, so no lexeme has come since the last separator. -/
theorem Lexes.fresh_of_nil {ls : List Lexeme} {f : Bool} (h : Lexes [] true ls [] f) :
    f = true := by
  generalize hs : ([] : Bytes) = s at h
  cases h with
  | stop => rfl
  | word hw =>
    obtain ⟨rfl, -⟩ := List.append_eq_nil_iff.mp hs.symm
    cases hw
  | operator hne => exact absurd (List.append_eq_nil_iff.mp hs.symm).1 hne
  | _ => cases hs

/-- A text that ends with a lexeme other than a separator is split the same way where the
    text behind it does not lengthen that lexeme. -/
theorem Lexes.append_rests {s t : Bytes} {fresh : Bool} {ls : List Lexeme}
    (h : Lexes s fresh ls [] false) (ht : Rests t) : Lexes (s ++ t) fresh ls t false := by
  generalize hr : [] = r at h
  generalize hf : false = f at h
  induction h with
  | stop =>
    subst hr hf
    exact .stop
  | blank hb _ ih => exact .blank hb (ih hr hf)
  | emptyLine _ ih => exact .emptyLine (ih hr hf)
  | newline _ ih => exact .newline (ih hr hf)
  -- A comment that the end of the text closes leaves no lexeme at the end.
  | emptyComment hc hs h ih =>
    rcases hs with rfl | ⟨rfl, rfl⟩
    · rw [List.cons_append, List.append_assoc]
      exact .emptyComment hc (.inl rfl) (ih hr hf)
    · subst hr hf
      cases h.fresh_of_nil
  | comment hc hs h ih =>
    rcases hs with rfl | ⟨rfl, rfl⟩
    · rw [List.cons_append, List.append_assoc]
      exact .comment hc (.inl rfl) (ih hr hf)
    · subst hr hf
      cases h.fresh_of_nil
  | string hc _ ih =>
    rw [List.cons_append, List.append_assoc]
    exact .string hc (ih hr hf)
  | punctuation hb _ ih => exact .punctuation hb (ih hr hf)
  -- The runs of words, numbers and operators stop before `t` as they do at the end.
  | word hw hs _ ih =>
    rw [List.append_assoc]
    exact .word hw (hs.append_rests (ht.stops (by simp +contextual))) (ih hr hf)
  | number hb hn hl hs _ ih =>
    rw [List.append_assoc]
    exact .number hb hn hl (hs.append_rests (ht.stops (by simp +contextual))) (ih hr hf)
  | operator hne ho hs _ ih =>
    rw [List.append_assoc]
    exact .operator hne ho (hs.append_rests (ht.stops (by simp +contextual))) (ih hr hf)

/-- A text whose first lexeme is no separator is split the same way at the start of a
    line. -/
theorem Lexes.at_start {s r : Bytes} {f : Bool} {ls : List Lexeme} (h : Lexes s false ls r f)
    (hne : ls ≠ []) (hhead : ls.head? ≠ some .separator) : Lexes s true ls r f := by
  generalize hfresh : false = fresh at h
  induction h with
  | stop => exact absurd rfl hne
  | blank hb _ ih => exact .blank hb (ih hne hhead hfresh)
  | emptyLine | emptyComment => cases hfresh
  | newline | comment => exact absurd rfl hhead
  | string hc h => exact .string hc h
  | punctuation hb h => exact .punctuation hb h
  | word hw hs h => exact .word hw hs h
  | number hb hn hl hs h => exact .number hb hn hl hs h
  | operator hne' ho hs h => exact .operator hne' ho hs h

namespace Operand

variable (a : Operand)

theorem expression : Derives .expression a.lexemes a.node [] := by
  simpa using a.isOperand.expression (t := []) nofun

theorem ne_nil : a.lexemes ≠ [] := by
  obtain ⟨l, ls, hls, -⟩ := a.expression.expression_starts
  rw [hls]
  exact List.cons_ne_nil _ _

/-- Its text is split into its lexemes, the last of which is no separator. -/
theorem lexes_alone : Lexes a.spelling false a.lexemes [] false := by
  have hreads := a.reads
  unfold lexemesOf? at hreads
  split at hreads
  · rename_i ts htokens
    obtain ⟨f, hlexes⟩ := (exists_tokens_iff_lexes ⟨1, 0⟩).mp
      ⟨ts, htokens, Option.some.inj hreads⟩
    cases f with
    | false => exact hlexes
    | true =>
      -- An operand does not end with a separator.
      have hlast := a.expression.unseparated nofun rfl
      rcases hlexes.getLast?_of_fresh rfl with h | ⟨hnil, -⟩
      · exact absurd h hlast
      · exact absurd hnil a.ne_nil
  · cases hreads

/-- An operand is split into its lexemes in front of any text that does not lengthen the
    last of them. -/
theorem lexes (fresh : Bool) {t : Bytes} (ht : Rests t) :
    Lexes (a.spelling ++ t) fresh a.lexemes t false := by
  have hlexes := a.lexes_alone.append_rests ht
  cases fresh with
  | false => exact hlexes
  | true => exact hlexes.at_start a.ne_nil (a.expression.head?_ne rfl)

end Operand

/-! ## Lines of operands and operators -/

/-- An operator with blanks around it and the operand behind it. -/
structure Link where
  before : Bytes
  connective : Connective
  after : Bytes
  operand : Operand
  before_ne_nil : before ≠ []
  before_blank : ∀ b ∈ before, Byte.isBlank b = true
  after_ne_nil : after ≠ []
  after_blank : ∀ b ∈ after, Byte.isBlank b = true

/-- An operand, and then any number of operators and operands. -/
structure Chain where
  first : Operand
  links : List Link

namespace Link

def spelling (k : Link) : Bytes :=
  k.before ++ (k.connective.symbol ++ (k.after ++ k.operand.spelling))

def lexemes (k : Link) : List Lexeme := .operator k.connective.symbol :: k.operand.lexemes

/-- Blanks between operands and operators end the lexeme before them. -/
theorem rests_blanks {w : Bytes} (hne : w ≠ []) (hw : ∀ b ∈ w, Byte.isBlank b = true) (s : Bytes) :
    Rests (w ++ s) := by
  obtain ⟨b, w, rfl⟩ := List.exists_cons_of_ne_nil hne
  exact rests_of_blank (hw b List.mem_cons_self) _

/-- An operator and its operand are split as they stand, the blanks around them skipped. -/
theorem lexes (k : Link) {t : Bytes} (ht : Rests t) :
    Lexes (k.spelling ++ t) false k.lexemes t false := by
  have hoperand := k.operand.lexes false ht
  have hstops : Stops Byte.isOperator (k.after ++ (k.operand.spelling ++ t)) :=
    (rests_blanks k.after_ne_nil k.after_blank _).stops (by simp +contextual)
  -- The operator ends at the blanks behind it.
  have hoperator : Lexes (k.connective.symbol ++ (k.after ++ (k.operand.spelling ++ t))) false
      k.lexemes t false :=
    k.connective.isOperator_symbol.lexes hstops (hoperand.blanks k.after_blank)
  simpa [spelling] using hoperator.blanks k.before_blank

end Link

namespace Chain

def spelling (c : Chain) : Bytes := c.first.spelling ++ c.links.flatMap Link.spelling

def lexemes (c : Chain) : List Lexeme := c.first.lexemes ++ c.links.flatMap Link.lexemes

/-- The operands and operators of the line from left to right. -/
def sequence (c : Chain) : List (Node ⊕ Connective) :=
  .inl c.first.node :: c.links.flatMap fun k => [.inr k.connective, .inl k.operand.node]

/-- What stands behind an operand continues no lexeme of it. -/
theorem rests_links (links : List Link) {t : Bytes} (ht : Rests t) :
    Rests (links.flatMap Link.spelling ++ t) := by
  cases links with
  | nil => exact ht
  | cons k links =>
    simp only [List.flatMap_cons, Link.spelling, List.append_assoc]
    exact Link.rests_blanks k.before_ne_nil k.before_blank _

/-- Link by link, each in front of the blanks of the next. -/
theorem lexes_links (links : List Link) {t : Bytes} (ht : Rests t) :
    Lexes (links.flatMap Link.spelling ++ t) false (links.flatMap Link.lexemes) t false := by
  induction links with
  | nil => exact .stop
  | cons k links ih =>
    rw [List.flatMap_cons, List.flatMap_cons, List.append_assoc]
    exact (k.lexes (rests_links links ht)).trans ih

/-- A line is split into the lexemes of its operands and operators. -/
theorem lexes (c : Chain) {t : Bytes} (ht : Rests t) :
    Lexes (c.spelling ++ t) true c.lexemes t false := by
  rw [spelling, lexemes, List.append_assoc]
  exact (c.first.lexes true (rests_links c.links ht)).trans (lexes_links c.links ht)

end Chain

/-! ## Climbing -/

/-- What ends a climb ends one at a higher level. -/
theorem Climbed.mono {k level : Nat} {s : List Lexeme} (h : Climbed k s) (hle : k ≤ level) :
    Climbed level s := by
  unfold Climbed at h ⊢
  split
  · exact ⟨h.1, h.2.trans hle⟩
  · trivial

namespace Grouping

/-- The lexemes of a grouping from left to right. -/
def lexemes : Grouping Operand → List Lexeme
  | .operand a => a.lexemes
  | .join o l r => l.lexemes ++ .operator o.symbol :: r.lexemes

/-- The lexemes of a grouping are those of its operands and operators in order. -/
theorem lexemes_eq_flatMap (g : Grouping Operand) :
    g.lexemes = g.sequence.flatMap (Sum.elim Operand.lexemes fun o => [.operator o.symbol]) := by
  induction g with
  | operand a => simp [lexemes, sequence]
  | join o l r ihl ihr => simp [lexemes, sequence, ihl, ihr]

/-- Climbing from the first operand of an ordered grouping, at a level below its operators,
    comes to the end of the grouping with its node. -/
theorem climbs {g : Grouping Operand} (hg : g.Ordered) {level : Nat} {s r : List Lexeme}
    {z : Node} (hlevel : ∀ o ∈ g.root?, level < o.precedence)
    (hend : ∀ o ∈ g.root?, Climbed o.precedence s) (hcall : s.head? ≠ some opening)
    (h : Derives (.climb (g.map Operand.node).node level) s z r) :
    ∃ y s₁, Derives .atom (g.lexemes ++ s) y s₁ ∧ Derives (.climb y level) s₁ z r := by
  induction g generalizing level s r z with
  | operand a => exact ⟨a.node, s, a.isOperand.atom hcall, h⟩
  | join o left right ihl ihr =>
    obtain ⟨hl, hr, hleft, hright⟩ := hg
    have hlt : level < o.precedence := hlevel o rfl
    have hstop : Climbed o.precedence s := hend o rfl
    -- The right operand is climbed at the level of `o` and ends where the grouping does.
    obtain ⟨y, s₁, hy, hx⟩ := ihr hr hright (fun p hp => hstop.mono (hright p hp).le) hcall
      (.climbed hstop)
    -- Combined with the left one, it is climbed on at the level from before.
    have hnode : Derives (.climb (left.map Operand.node).node level)
        (.operator o.symbol :: (right.lexemes ++ s)) z r := by
      refine .climb hlt hy hx ?_
      rw [o.combine_symbol]
      exact h
    rw [lexemes, List.append_assoc, List.cons_append]
    -- The left part is climbed from its own first operand, up to the operator `o`.
    exact ihl hl (fun p hp => hlt.trans_le (hleft p hp))
      (fun p hp => ⟨o.precedence_pos, hleft p hp⟩) nofun hnode

/-- An ordered grouping is read as one expression. -/
theorem Ordered.expression {g : Grouping Operand} (hg : g.Ordered) {s : List Lexeme}
    (hs : Settled s) : Derives .expression (g.lexemes ++ s) (g.map Operand.node).node s := by
  have hend : Derives (.climb (g.map Operand.node).node 0) s (g.map Operand.node).node s :=
    .climbed (hs.climbed 0)
  obtain ⟨y, s₁, hy, hclimb⟩ := climbs hg (fun o _ => o.precedence_pos)
    (fun o _ => hs.climbed o.precedence) hs.not_opening hend
  exact .expression hy hclimb

end Grouping

namespace Chain

/-- The operands and operators of a line have an ordered grouping, with the lexemes of the
    line. -/
theorem exists_grouping (c : Chain) : ∃ g : Grouping Operand, g.Ordered ∧
    g.lexemes = c.lexemes ∧ (g.map Operand.node).sequence = c.sequence := by
  obtain ⟨g, hg, hsequence⟩ := Grouping.exists_ordered c.first
    (c.links.map fun k => (k.connective, k.operand))
  -- Lexemes and operands are both read off the sequence.
  refine ⟨g, hg, ?_, ?_⟩
  · rw [g.lexemes_eq_flatMap, hsequence]
    show _ = c.first.lexemes ++ c.links.flatMap fun k =>
      .operator k.connective.symbol :: k.operand.lexemes
    simp [List.flatMap_assoc, List.flatMap_map]
  · rw [Grouping.sequence_map, hsequence]
    simp [sequence, List.map_flatMap, List.flatMap_map]

/-- A line ends with its last operand, so the line break behind it is added. -/
theorem completed_spelling (c : Chain) : completed c.spelling = c.spelling ++ [10] := by
  obtain ⟨g, hg, hlexemes, -⟩ := c.exists_grouping
  have hexpression := hg.expression (s := []) nofun
  rw [List.append_nil, hlexemes] at hexpression
  have hlast : c.spelling.getLast? ≠ some 10 := by
    -- A line break at the end would be a separator behind an expression.
    intro hline
    have hlexes := c.lexes (t := []) (stops_nil _)
    rw [List.append_nil] at hlexes
    rcases (hlexes.append_line (t := []) (.inl hline)).getLast?_of_fresh rfl with h | ⟨h, -⟩
    · exact hexpression.unseparated nofun rfl h
    · rw [h] at hexpression
      exact not_derives_expression_nil hexpression
  rw [completed, if_neg (by simpa using hlast)]

/-- A line of operands with operators between them is one statement. It is an ordered
    grouping of the operands and operators of the line, and there is no other one. -/
theorem parse_spelling (c : Chain) :
    ∃ g : Grouping Node, parse c.spelling = .ok ⟨[g.node]⟩ ∧ g.sequence = c.sequence ∧
      g.Ordered ∧ ∀ h : Grouping Node, h.sequence = c.sequence → h.Ordered → h = g := by
  obtain ⟨g, hg, hlexemes, hsequence⟩ := c.exists_grouping
  refine ⟨g.map Operand.node, ?_, hsequence, hg.map _, ?_⟩
  · -- The line as a statement: its lexemes and the separator of the line break.
    have hline : Lexes (completed c.spelling) true (c.lexemes ++ [.separator]) [] true := by
      rw [c.completed_spelling]
      exact (c.lexes (rests_of_line [])).trans (.newline .stop)
    obtain ⟨ts, hts, htokens⟩ := exists_tokenize_iff.mpr ⟨true, hline⟩
    refine parse_of_derives hts ?_
    rw [htokens, ← hlexemes]
    exact .line rfl (hg.expression (settled_cons (by decide))) .finished
  · intro h hh hordered
    exact Grouping.eq_of_sequence hordered (hg.map _) (hh.trans hsequence.symm)

/-- Operators of one level are grouped from the left, and an operand in parentheses stays
    whole. -/
theorem parse_spelling_difference :
    parse (text "x = 5 - -f(y) - (z)") = .ok ⟨[.assign (.ident (text "x")) (.binary .sub
      (.binary .sub (.int 5) (.unary .negate (.call (.ident (text "f")) [.ident (text "y")])))
      (.ident (text "z")))]⟩ := by
  have inside (name : Name) :
      Derives .expression ([.identifier name] ++ [closing]) (.ident name) [closing] :=
    (IsOperand.primary .ident).expression (settled_cons (by decide))
  let x : Operand := ⟨text "x", [.identifier (text "x")], .ident (text "x"), by decide +kernel,
    .primary .ident⟩
  let five : Operand := ⟨text "5", [.integer (text "5") 5], .int 5, by decide +kernel,
    .primary .int⟩
  let negated : Operand := ⟨text "-f(y)", .operator (text "-") :: ([.identifier (text "f")] ++
      opening :: ([.identifier (text "y")] ++ [closing])),
    .unary .negate (.call (.ident (text "f")) [.ident (text "y")]), by decide +kernel,
    .unary (.inr rfl) (.primary (.call .ident (.firstArgument (inside _) (.noArguments rfl))))⟩
  let z : Operand := ⟨text "(z)", opening :: ([.identifier (text "z")] ++ [closing]),
    .ident (text "z"), by decide +kernel, .primary (.group (inside _))⟩
  have blank : ∀ b ∈ ([32] : Bytes), Byte.isBlank b = true := List.forall_mem_singleton.mpr rfl
  let link (o : Connective) (a : Operand) : Link :=
    ⟨[32], o, [32], a, List.cons_ne_nil _ _, blank, List.cons_ne_nil _ _, blank⟩
  let minus : Connective := .binary .sub (by decide)
  obtain ⟨g, hparse, -, -, hunique⟩ :=
    parse_spelling ⟨x, [link .assign five, link minus negated, link minus z]⟩
  have hg := hunique (.join .assign (.operand x.node) (.join minus
    (.join minus (.operand five.node) (.operand negated.node)) (.operand z.node))) rfl
    (by simp [Grouping.Ordered, Grouping.root?]; decide)
  rw [← hg] at hparse
  exact hparse

end Chain

end Scriptlet

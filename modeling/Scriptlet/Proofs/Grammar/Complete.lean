/-
  Scriptlet.Proofs.Grammar.Complete

  Whatever has a derivation is accepted: `Derives.accepted`, by induction on
  derivations, with the fuel that a stream is given, and `parse_of_derives` for
  whole texts. With soundness this makes a derivation unique,
  `Derives.unique`.

  `Parser.Takes p s v r` is the triple in which this is put together: on every
  stream that shows the lexemes `s`, the parser `p` gives `v` and leaves `r`.
-/
import Scriptlet.Proofs.Grammar.Sound

namespace Scriptlet

namespace Parser

variable {α β : Type} {s s₁ r : List Lexeme}

/-! ## Triples -/

/-- The parser reads the front of `s` as `v` and leaves `r`, wherever the
    lexemes stand. A stream that is read to its end must not end in a fault. -/
def Takes (p : Parser α) (s : List Lexeme) (v : α) (r : List Lexeme) : Prop :=
  ∀ st : Stream, st.lexemes = s → (r = [] → st.ending = none) →
    ∃ rest, p st = .ok v rest ∧ rest.lexemes = r ∧ rest.ending = st.ending

/-- A lexeme ahead comes from a token that carries its place. -/
theorem tokens_of_lexemes {st : Stream} {l : Lexeme} {ls : List Lexeme}
    (h : st.lexemes = l :: ls) : ∃ p ts, st.tokens = ⟨l, p⟩ :: ts ∧ ts.map Token.lexeme = ls := by
  obtain ⟨⟨l', p⟩, ts, hs, rfl, hts⟩ := List.map_eq_cons_iff.mp h
  exact ⟨p, ts, hs, hts⟩

theorem bind_of_ok {st st₁ : Stream} {p : Parser α} {f : α → Parser β} {a : α}
    (h : p st = .ok a st₁) : (p >>= f) st = f a st₁ := by
  simp only [Bind.bind, h]

theorem Takes.pure (a : α) : Takes (pure a) s a s :=
  fun st hst _ => ⟨st, rfl, hst, rfl⟩

/-- Triples compose. The second parser must not leave more than the first did, so that a stream
read to its end by both was read to its end by the first only if nothing was left to read. -/
theorem Takes.bind {p : Parser α} {f : α → Parser β} {a : α} {b : β} (hp : Takes p s a s₁)
    (hf : Takes (f a) s₁ b r) (hle : r.length ≤ s₁.length) : Takes (p >>= f) s b r := by
  intro st hst hend
  -- If the first parser leaves nothing, then nothing is left behind the second.
  obtain ⟨st₁, h₁, l₁, e₁⟩ := hp st hst fun h => hend <|
    List.eq_nil_of_length_eq_zero (by rw [h, List.length_nil] at hle; omega)
  obtain ⟨st₂, h₂, l₂, e₂⟩ := hf st₁ l₁ fun h => e₁ ▸ hend h
  exact ⟨st₂, by rw [bind_of_ok h₁, h₂], l₂, e₂.trans e₁⟩

/-- Taking a token whose lexeme is known already. -/
theorem Takes.next_bind {l : Lexeme} {f : Option Token → Parser β} {b : β}
    (hf : ∀ t?, Takes (f t?) s b r) : Takes (next >>= f) (l :: s) b r := by
  intro st hst hend
  obtain ⟨p, ts, hs, hts⟩ := tokens_of_lexemes hst
  have hn : next st = .ok (some ⟨l, p⟩) { st with tokens := ts, last := p } := by rw [next, hs]
  obtain ⟨st₂, h₂, l₂, e₂⟩ := hf (some ⟨l, p⟩) { st with tokens := ts, last := p } hts hend
  exact ⟨st₂, by rw [bind_of_ok hn, h₂], l₂, e₂⟩

/-- Looking at a lexeme hands the token to what follows and takes nothing. -/
theorem Takes.peek_bind {l : Lexeme} {f : Option Token → Parser β} {b : β}
    (hf : ∀ p, Takes (f (some ⟨l, p⟩)) (l :: s) b r) : Takes (peek >>= f) (l :: s) b r := by
  intro st hst hend
  obtain ⟨p, ts, hs, hts⟩ := tokens_of_lexemes hst
  have hp : peek st = .ok (some ⟨l, p⟩) st := by rw [peek, hs]
  obtain ⟨st₂, h₂, l₂, e₂⟩ := hf p st hst hend
  exact ⟨st₂, by rw [bind_of_ok hp, h₂], l₂, e₂⟩

theorem Takes.peek_bind_nil {f : Option Token → Parser β} {b : β} (hf : Takes (f none) [] b []) :
    Takes (peek >>= f) [] b [] := by
  intro st hst hend
  -- Looking at the end of the tokens would raise the fault that stands there.
  have hs : st.tokens = [] := List.map_eq_nil_iff.mp hst
  have hp : peek st = .ok none st := by rw [peek, hs, hend rfl]
  obtain ⟨st₂, h₂, l₂, e₂⟩ := hf st hst hend
  exact ⟨st₂, by rw [bind_of_ok hp, h₂], l₂, e₂⟩

/-! ## Single tokens -/

theorem Takes.take {l : Lexeme} (a : α) : Takes (take a) (l :: s) a s :=
  .next_bind fun _ => .pure a

/-- Asking for a lexeme answers by the one ahead and takes nothing. -/
theorem Takes.isNext (l : Lexeme) : Takes (isNext l) s (decide (s.head? = some l)) s := by
  cases s with
  | nil => exact .peek_bind_nil (.pure _)
  | cons l' ls =>
    refine .peek_bind fun p => ?_
    -- The place of the token does not matter to the question.
    have : (some (⟨l', p⟩ : Token)).any (fun t => t.lexeme == l) =
        decide ((l' :: ls).head? = some l) := by simp [beq_eq_decide]
    rw [this]
    exact .pure _

/-- Branching on the lexeme ahead. -/
theorem Takes.isNext_bind {l : Lexeme} {f : Bool → Parser β} {b : β}
    (hf : Takes (f (decide (s.head? = some l))) s b r) (hle : r.length ≤ s.length) :
    Takes (Parser.isNext l >>= f) s b r :=
  (Takes.isNext l).bind hf hle

theorem Takes.mark {m : Bytes} : Takes (mark m) (.punctuation m :: s) () s := by
  refine .peek_bind fun p => ?_
  rw [if_pos (by simp)]
  exact .take ()

theorem Takes.optionalKeyword {w : Bytes} : Takes (optionalKeyword w) (.keyword w :: s) () s := by
  refine .isNext_bind ?_ (by simp)
  rw [if_pos (by simp)]
  exact .take ()

theorem Takes.optionalKeyword_absent {w : Bytes} (h : s.head? ≠ some (.keyword w)) :
    Takes (Parser.optionalKeyword w) s () s := by
  refine .isNext_bind ?_ (Nat.le_refl _)
  rw [if_neg (by simp [h])]
  exact .pure ()

theorem Takes.separator : Takes separator (.punctuation Lexeme.newline :: s) () s :=
  .peek_bind fun _ => .mark

theorem Takes.separator_nil : Takes Parser.separator [] () [] := .peek_bind_nil (.pure ())

theorem Takes.identifier {name : Name} : Takes identifier (.identifier name :: s) name s := by
  intro st hst hend
  obtain ⟨p, ts, hs, hts⟩ := tokens_of_lexemes hst
  refine ⟨{ st with tokens := ts, last := p }, ?_, hts, rfl⟩
  have hn : Parser.next st =
      .ok (some ⟨.identifier name, p⟩) { st with tokens := ts, last := p } := by
    rw [next, hs]
  rw [Parser.identifier, bind_of_ok hn]
  rfl

/-! ## Lists in parentheses -/

theorem comma_ne_closing : text "," ≠ text ")" := by decide

section Lists

variable {item : Parser α} {n : Nat} {x : α} {xs : List α}

/-- A closing parenthesis ends the items, before the first one too. -/
theorem Takes.items_none {first : Bool} :
    Takes (items item (n + 1) first) (.punctuation (text ")") :: s) []
      (.punctuation (text ")") :: s) := by
  refine .isNext_bind ?_ (Nat.le_refl _)
  rw [if_pos (by simp)]
  exact .pure []

theorem Takes.element (hx : Takes item s x s₁) (hxs : Takes (items item n false) s₁ xs r)
    (hle : r.length ≤ s₁.length) :
    Takes (do let x ← item; let xs ← items item n false; return x :: xs) s (x :: xs) r :=
  hx.bind (hxs.bind (.pure _) (Nat.le_refl _)) hle

/-- The first item needs no comma in front of it. -/
theorem Takes.items_first (hs : s.head? ≠ some (.punctuation (text ")"))) (hx : Takes item s x s₁)
    (hxs : Takes (items item n false) s₁ xs r) (hle : r.length ≤ s₁.length)
    (hle' : s₁.length ≤ s.length) : Takes (items item (n + 1) true) s (x :: xs) r := by
  refine .isNext_bind ?_ (by omega)
  rw [if_neg (by simp [hs]), if_pos rfl]
  exact .element hx hxs hle

/-- A comma may stand behind the last item. -/
theorem Takes.items_lastComma :
    Takes (items item (n + 1) false) (.punctuation (text ",") :: .punctuation (text ")") :: s) []
      (.punctuation (text ")") :: s) := by
  refine .isNext_bind ?_ (by simp)
  rw [if_neg (by simp [comma_ne_closing]), if_neg Bool.false_ne_true]
  refine Takes.mark.bind (.isNext_bind ?_ (Nat.le_refl _)) (Nat.le_refl _)
  rw [if_pos (by simp)]
  exact .pure []

/-- Every later item follows a comma. -/
theorem Takes.items_next (hs : s.head? ≠ some (.punctuation (text ")"))) (hx : Takes item s x s₁)
    (hxs : Takes (items item n false) s₁ xs r) (hle : r.length ≤ s₁.length)
    (hle' : s₁.length ≤ s.length) :
    Takes (items item (n + 1) false) (.punctuation (text ",") :: s) (x :: xs) r := by
  refine .isNext_bind ?_ (by simp only [List.length_cons]; omega)
  rw [if_neg (by simp [comma_ne_closing]), if_neg Bool.false_ne_true]
  refine Takes.mark.bind (.isNext_bind ?_ (by omega)) (by omega)
  rw [if_neg (by simp [hs])]
  exact .element hx hxs hle

/-- The items of a list and the two parentheses around them. -/
theorem Takes.delimited (hxs : Takes (items item n true) s xs (.punctuation (text ")") :: r))
    (hle : r.length < s.length) :
    Takes (delimited item n) (.punctuation (text "(") :: s) xs r :=
  Takes.mark.bind
    (hxs.bind (Takes.mark.bind (.pure xs) (Nat.le_refl _)) (by simp)) (by omega)

end Lists

end Parser

/-! ## How an operand starts -/

/-- Whether a lexeme can start an expression. -/
def Lexeme.starts : Lexeme → Bool
  | .punctuation m => m == text "("
  | .operator op => op == text "!" || op == text "-"
  | .keyword w =>
    [text "True", text "False", text "if", text "while", text "return", text "func"].contains w
  | _ => true

/-- An operand starts with a lexeme that can start one. -/
theorem Derives.operand_starts {s r : List Lexeme} {x : Node} (h : Derives .operand s x r) :
    ∃ l ls, s = l :: ls ∧ l.starts = true := by
  cases h with
  | ident | str | int | float => exact ⟨_, _, rfl, rfl⟩
  | @bool w b s hw => exact ⟨_, _, rfl, by subst hw; cases b <;> decide⟩
  | unary hop => exact ⟨_, _, rfl, by rcases hop with rfl | rfl <;> decide⟩
  | group hm | branch hm | loop hm | ret hm | func hm => exact ⟨_, _, rfl, by subst hm; decide⟩

/-- So does an expression, whose first part is an operand. -/
theorem Derives.expression_starts {s r : List Lexeme} {x : Node} (h : Derives .expression s x r) :
    ∃ l ls, s = l :: ls ∧ l.starts = true := by
  cases h with
  | expression ha =>
    cases ha with
    | atom ho => exact ho.operand_starts

/-- An expression starts with nothing that ends one. -/
theorem Derives.head?_ne {s r : List Lexeme} {x : Node} {l : Lexeme}
    (h : Derives .expression s x r) (hl : l.starts = false) : s.head? ≠ some l := by
  obtain ⟨l', ls, rfl, hstarts⟩ := h.expression_starts
  rintro ⟨⟩
  rw [hl] at hstarts
  exact Bool.noConfusion hstarts

/-! ## Acceptance -/

namespace Goal

/-- The parser of a goal. Items are read with fuel `e` and listed with
    `fuel`. -/
def run : (g : Goal) → (e fuel : Nat) → Parser g.Result
  | .operand, _, fuel => Parser.operand fuel
  | .atom, _, fuel => Parser.atom fuel
  | .calls f, _, fuel => Parser.calls fuel f
  | .expression, _, fuel => Parser.expression fuel
  | .climb l level, _, fuel => Parser.climb fuel l level
  | .arguments first, e, fuel => Parser.items (Parser.expression e) fuel first
  | .parameters first, _, fuel => Parser.items Parser.identifier fuel first
  | .body branching, _, fuel => Parser.body fuel branching
  | .statements branching, _, fuel => Parser.statements fuel branching
  | .tail, _, fuel => Parser.tail fuel
  | .program, _, fuel => Parser.program fuel

/-- The levels of the grammar that a goal goes through before it takes a
    lexeme. -/
def cost : Goal → Nat
  | .atom => 2
  | .expression | .arguments _ => 3
  | .body _ | .statements _ | .program => 4
  | _ => 1

/-- Every goal costs at least the unit its own parser spends. -/
theorem cost_pos (g : Goal) : 0 < g.cost := by
  cases g <;> simp [cost]

/-- The parser of a goal reads `s` as `v` up to `r` with all fuel that suffices
    for a stream of this length. -/
structure Accepted (g : Goal) (s : List Lexeme) (v : g.Result) (r : List Lexeme) : Prop where
  length_le : r.length + g.least ≤ s.length
  takes : ∀ {e n : Nat}, 16 * s.length + g.cost ≤ n → n ≤ e → Parser.Takes (g.run e n) s v r

namespace Accepted

variable {s s₁ s₂ r : List Lexeme} {x y z c f : Node} {b : Block} {t : Tail} {xs : List Node}

/-- The step that all rules share: one unit of fuel is spent. -/
theorem of_succ {g : Goal} {v : g.Result} (hle : r.length + g.least ≤ s.length)
    (h : ∀ e n, 16 * s.length + g.cost ≤ n + 1 → n < e → Parser.Takes (g.run e (n + 1)) s v r) :
    g.Accepted s v r := by
  refine ⟨hle, ?_⟩
  intro e fuel hfuel he
  -- The fuel is at least the cost, so there is a unit to spend.
  have hpos := g.cost_pos
  obtain ⟨n, rfl⟩ : ∃ n, fuel = n + 1 := ⟨fuel - 1, by omega⟩
  exact h e n hfuel he

/-! ### Expressions -/

/-- An expression is read where its atom and the climb behind it are. -/
theorem expression (ha : Goal.atom.Accepted s y s₁) (hc : (Goal.climb y 0).Accepted s₁ x r) :
    Goal.expression.Accepted s x r := by
  have hla := ha.length_le
  have hlc := hc.length_le
  simp only [least] at hla hlc
  refine of_succ (by simp only [least]; omega) fun e n hn he => ?_
  simp only [cost] at hn
  -- An atom costs one less than an expression, and the operators behind it are
  -- read from a shorter stream.
  show Parser.Takes (Parser.expression (n + 1)) s x r
  rw [Parser.expression]
  exact (ha.takes (e := e) (by simp only [cost]; omega) (by omega)).bind
    (hc.takes (e := e) (by simp only [cost]; omega) (by omega)) (by omega)

/-- The climb ends where no operator above its level is ahead. -/
theorem climbed {level : Nat} (h : Climbed level s) : (Goal.climb y level).Accepted s y s := by
  refine of_succ (by simp [least]) fun e n _ _ => ?_
  show Parser.Takes (Parser.climb (n + 1) y level) s y s
  rw [Parser.climb]
  cases s with
  | nil => exact .peek_bind_nil (.pure y)
  | cons l ls =>
    refine .peek_bind fun p => ?_
    cases l with
    | operator op =>
      obtain ⟨hpos, hle⟩ := h
      dsimp only
      -- The operator has a precedence, but not one above the level.
      rw [if_neg (by omega), if_pos hle]
      exact .pure y
    | _ => exact .pure y

/-- An operator above the level takes its right operand at its own level, and the climb goes on.
-/
theorem climb {op : Bytes} {level : Nat} (hp : level < precedence op)
    (hy : Goal.atom.Accepted s y s₁) (hx : (Goal.climb y (precedence op)).Accepted s₁ x s₂)
    (hz : (Goal.climb (Parser.combine op f x) level).Accepted s₂ z r) :
    (Goal.climb f level).Accepted (.operator op :: s) z r := by
  have hly := hy.length_le
  have hlx := hx.length_le
  have hlz := hz.length_le
  simp only [least] at hly hlx hlz
  refine of_succ (by simp only [least, List.length_cons]; omega) fun e n hn he => ?_
  simp only [cost, List.length_cons] at hn
  show Parser.Takes (Parser.climb (n + 1) f level) (.operator op :: s) z r
  rw [Parser.climb]
  refine .peek_bind fun p => ?_
  dsimp only
  -- The operator has a precedence, and it is above the level.
  rw [if_neg (by omega), if_neg (by omega)]
  refine .next_bind fun _ => ?_
  exact (hy.takes (e := e) (by simp only [cost]; omega) (by omega)).bind
    ((hx.takes (e := e) (by simp only [cost]; omega) (by omega)).bind
      (hz.takes (e := e) (by simp only [cost]; omega) (by omega)) (by omega)) (by omega)

theorem atom (ho : Goal.operand.Accepted s f s₁) (hc : (Goal.calls f).Accepted s₁ x r) :
    Goal.atom.Accepted s x r := by
  have hlo := ho.length_le
  have hlc := hc.length_le
  simp only [least] at hlo hlc
  refine of_succ (by simp only [least]; omega) fun e n hn he => ?_
  simp only [cost] at hn
  show Parser.Takes (Parser.atom (n + 1)) s x r
  rw [Parser.atom]
  exact (ho.takes (e := e) (by simp only [cost]; omega) (by omega)).bind
    (hc.takes (e := e) (by simp only [cost]; omega) (by omega)) (by omega)

/-- Without a parenthesis ahead nothing is called. -/
theorem uncalled (h : s.head? ≠ some (.punctuation (text "("))) :
    (Goal.calls f).Accepted s f s := by
  refine of_succ (by simp [least]) fun e n _ _ => ?_
  show Parser.Takes (Parser.calls (n + 1) f) s f s
  rw [Parser.calls]
  refine .isNext_bind ?_ (Nat.le_refl _)
  rw [if_neg (by simp [h])]
  exact .pure f

/-- A call reads its arguments, and the calls behind it apply to the call. -/
theorem call (has : (Goal.arguments true).Accepted s xs (.punctuation (text ")") :: s₁))
    (hc : (Goal.calls (.call f xs)).Accepted s₁ x r) :
    (Goal.calls f).Accepted (.punctuation (text "(") :: s) x r := by
  have hla := has.length_le
  have hlc := hc.length_le
  simp only [least, List.length_cons] at hla hlc
  refine of_succ (by simp only [least, List.length_cons]; omega) fun e n hn he => ?_
  simp only [cost, List.length_cons] at hn
  show Parser.Takes (Parser.calls (n + 1) f) (.punctuation (text "(") :: s) x r
  rw [Parser.calls]
  refine .isNext_bind ?_ (by simp only [List.length_cons]; omega)
  rw [if_pos (by simp)]
  -- The list and its items share the fuel that is left.
  have hitems := has.takes (e := n) (n := n) (by simp only [cost]; omega) (Nat.le_refl n)
  exact (Parser.Takes.delimited hitems (by omega)).bind
    (hc.takes (e := e) (by simp only [cost]; omega) (by omega)) (by omega)

/-! ### Operands -/

theorem leaf {l : Lexeme} (h : ∀ n, Parser.Takes (Parser.operand (n + 1)) (l :: s) x s) :
    Goal.operand.Accepted (l :: s) x s :=
  of_succ (by simp [least]) fun _ n _ _ => h n

/-- A prefix operator reads an atom, so it binds tighter than every infix one. -/
theorem unary {op : Bytes} (hop : op = text "!" ∨ op = text "-")
    (hx : Goal.atom.Accepted s x r) :
    Goal.operand.Accepted (.operator op :: s) (.unary (.ofSymbol op) x) r := by
  have hlx := hx.length_le
  simp only [least] at hlx
  refine of_succ (by simp only [least, List.length_cons]; omega) fun e n hn he => ?_
  simp only [cost, List.length_cons] at hn
  show Parser.Takes (Parser.operand (n + 1)) (.operator op :: s) _ r
  rw [Parser.operand]
  refine .peek_bind fun p => ?_
  dsimp only
  rw [if_pos (by simpa using hop)]
  refine .next_bind fun _ => ?_
  exact (hx.takes (e := e) (by simp only [cost]; omega) (by omega)).bind (.pure _) (Nat.le_refl _)

/-- Parentheses leave no trace in the tree. -/
theorem group (hx : Goal.expression.Accepted s x (.punctuation (text ")") :: r)) :
    Goal.operand.Accepted (.punctuation (text "(") :: s) x r := by
  have hlx := hx.length_le
  simp only [least, List.length_cons] at hlx
  refine of_succ (by simp only [least, List.length_cons]; omega) fun e n hn he => ?_
  simp only [cost, List.length_cons] at hn
  show Parser.Takes (Parser.operand (n + 1)) (.punctuation (text "(") :: s) x r
  rw [Parser.operand]
  refine .peek_bind fun p => ?_
  dsimp only
  rw [if_pos (by simp)]
  refine .next_bind fun _ => ?_
  exact (hx.takes (e := e) (by simp only [cost]; omega) (by omega)).bind
    (Parser.Takes.mark.bind (.pure x) (Nat.le_refl _)) (by simp)

theorem bool {b : Bool} : Goal.operand.Accepted (.keyword (renderBool b) :: s) (.bool b) s := by
  refine leaf fun n => ?_
  rw [Parser.operand]
  refine .peek_bind fun p => ?_
  cases b with
  | false =>
    dsimp only
    rw [if_neg (by decide), if_pos (by decide)]
    exact .take _
  | true =>
    dsimp only
    rw [if_pos (by decide)]
    exact .take _

/-- A conditional, its first body open to `else` and `elif`. -/
theorem branch (hc : Goal.expression.Accepted s c s₁) (hb : (Goal.body true).Accepted s₁ b s₂)
    (ht : Goal.tail.Accepted s₂ t r) :
    Goal.operand.Accepted (.keyword (text "if") :: s) (.branch c b t) r := by
  have hlc := hc.length_le
  have hlb := hb.length_le
  have hlt := ht.length_le
  simp only [least] at hlc hlb hlt
  refine of_succ (by simp only [least, List.length_cons]; omega) fun e n hn he => ?_
  simp only [cost, List.length_cons] at hn
  show Parser.Takes (Parser.operand (n + 1)) (.keyword (text "if") :: s) _ r
  rw [Parser.operand]
  refine .peek_bind fun p => ?_
  dsimp only
  -- The parser tries the words in order, so the earlier ones are passed.
  rw [if_neg (by decide), if_neg (by decide), if_pos (by decide)]
  refine .next_bind fun _ => ?_
  exact (hc.takes (e := e) (by simp only [cost]; omega) (by omega)).bind
    ((hb.takes (e := e) (by simp only [cost]; omega) (by omega)).bind
      ((ht.takes (e := e) (by simp only [cost]; omega) (by omega)).bind (.pure _) (Nat.le_refl _))
      (by omega)) (by omega)

/-- A loop; its body is closed by `end` only. -/
theorem loop (hc : Goal.expression.Accepted s c s₁) (hb : (Goal.body false).Accepted s₁ b r) :
    Goal.operand.Accepted (.keyword (text "while") :: s) (.loop c b) r := by
  have hlc := hc.length_le
  have hlb := hb.length_le
  simp only [least] at hlc hlb
  refine of_succ (by simp only [least, List.length_cons]; omega) fun e n hn he => ?_
  simp only [cost, List.length_cons] at hn
  show Parser.Takes (Parser.operand (n + 1)) (.keyword (text "while") :: s) _ r
  rw [Parser.operand]
  refine .peek_bind fun p => ?_
  dsimp only
  rw [if_neg (by decide), if_neg (by decide), if_neg (by decide), if_pos (by decide)]
  refine .next_bind fun _ => ?_
  exact (hc.takes (e := e) (by simp only [cost]; omega) (by omega)).bind
    ((hb.takes (e := e) (by simp only [cost]; omega) (by omega)).bind (.pure _) (Nat.le_refl _))
    (by omega)

theorem ret (hx : Goal.expression.Accepted s x r) :
    Goal.operand.Accepted (.keyword (text "return") :: s) (.ret x) r := by
  have hlx := hx.length_le
  simp only [least] at hlx
  refine of_succ (by simp only [least, List.length_cons]; omega) fun e n hn he => ?_
  simp only [cost, List.length_cons] at hn
  show Parser.Takes (Parser.operand (n + 1)) (.keyword (text "return") :: s) _ r
  rw [Parser.operand]
  refine .peek_bind fun p => ?_
  dsimp only
  rw [if_neg (by decide), if_neg (by decide), if_neg (by decide), if_neg (by decide),
    if_pos (by decide)]
  refine .next_bind fun _ => ?_
  exact (hx.takes (e := e) (by simp only [cost]; omega) (by omega)).bind (.pure _) (Nat.le_refl _)

theorem func {name : Name} {ps : List Name}
    (hps : (Goal.parameters true).Accepted s ps (.punctuation (text ")") :: s₁))
    (hdistinct : Parser.repeated? [] ps = none) (hb : (Goal.body false).Accepted s₁ b r) :
    Goal.operand.Accepted
      (.keyword (text "func") :: .identifier name :: .punctuation (text "(") :: s)
      (.func name ps b.returning) r := by
  have hlp := hps.length_le
  have hlb := hb.length_le
  simp only [least, List.length_cons] at hlp hlb
  refine of_succ (by simp only [least, List.length_cons]; omega) fun e n hn he => ?_
  simp only [cost, List.length_cons] at hn
  -- A function spends two units: one for the keyword, one for its own parser.
  obtain ⟨n, rfl⟩ : ∃ m, n = m + 1 := ⟨n - 1, by omega⟩
  show Parser.Takes (Parser.operand (n + 2))
    (.keyword (text "func") :: .identifier name :: .punctuation (text "(") :: s) _ r
  rw [Parser.operand]
  refine .peek_bind fun p => ?_
  dsimp only
  rw [if_neg (by decide), if_neg (by decide), if_neg (by decide), if_neg (by decide),
    if_neg (by decide), if_pos (by decide)]
  refine .next_bind fun _ => ?_
  rw [Parser.function]
  refine Parser.Takes.identifier.bind (.peek_bind fun p' => ?_)
    (by simp only [List.length_cons]; omega)
  have hitems := hps.takes (e := n) (n := n) (by simp only [cost]; omega) (Nat.le_refl n)
  refine (Parser.Takes.delimited hitems (by omega)).bind ?_ (by omega)
  simp only [hdistinct]
  refine (hb.takes (e := e) (n := n) (by simp only [cost]; omega) (by omega)).bind ?_
    (Nat.le_refl _)
  -- The test for an inline body is one on its shape.
  rcases b with ⟨ss, inline⟩
  rcases ss with _ | ⟨x, _ | ⟨y, ys⟩⟩ <;> cases inline <;> exact .pure _

/-! ### Lists -/

theorem noArguments {first : Bool} :
    (Goal.arguments first).Accepted (.punctuation (text ")") :: s) []
      (.punctuation (text ")") :: s) :=
  of_succ (by simp [least]) fun _ _ _ _ => Parser.Takes.items_none

/-- Behind the parenthesis an expression starts, so the list is not over. -/
theorem firstArgument (hs : s.head? ≠ some (.punctuation (text ")")))
    (hx : Goal.expression.Accepted s x s₁) (hxs : (Goal.arguments false).Accepted s₁ xs r) :
    (Goal.arguments true).Accepted s (x :: xs) r := by
  have hlx := hx.length_le
  have hls := hxs.length_le
  simp only [least] at hlx hls
  refine of_succ (by simp only [least]; omega) fun e n hn he => ?_
  simp only [cost] at hn
  -- The items are read with the fuel of the whole list, and listed with what is left of it.
  have hitem : Parser.Takes (Parser.expression e) s x s₁ :=
    hx.takes (e := e) (by simp only [cost]; omega) (Nat.le_refl e)
  have hitems := hxs.takes (e := e) (n := n) (by simp only [cost]; omega) (by omega)
  exact Parser.Takes.items_first hs hitem hitems (by omega) (by omega)

theorem lastComma :
    (Goal.arguments false).Accepted (.punctuation (text ",") :: .punctuation (text ")") :: s) []
      (.punctuation (text ")") :: s) :=
  of_succ (by simp [least]) fun _ _ _ _ => Parser.Takes.items_lastComma

/-- A comma and an expression go on with the list. -/
theorem nextArgument (hs : s.head? ≠ some (.punctuation (text ")")))
    (hx : Goal.expression.Accepted s x s₁) (hxs : (Goal.arguments false).Accepted s₁ xs r) :
    (Goal.arguments false).Accepted (.punctuation (text ",") :: s) (x :: xs) r := by
  have hlx := hx.length_le
  have hls := hxs.length_le
  simp only [least] at hlx hls
  refine of_succ (by simp only [least, List.length_cons]; omega) fun e n hn he => ?_
  simp only [cost, List.length_cons] at hn
  have hitem : Parser.Takes (Parser.expression e) s x s₁ :=
    hx.takes (e := e) (by simp only [cost]; omega) (Nat.le_refl e)
  have hitems := hxs.takes (e := e) (n := n) (by simp only [cost]; omega) (by omega)
  exact Parser.Takes.items_next hs hitem hitems (by omega) (by omega)

theorem noParameters {first : Bool} :
    (Goal.parameters first).Accepted (.punctuation (text ")") :: s) []
      (.punctuation (text ")") :: s) :=
  of_succ (by simp [least]) fun _ _ _ _ => Parser.Takes.items_none

/-- A name behind the parenthesis is the first parameter. -/
theorem firstParameter {name : Name} {names : List Name}
    (hs : (Goal.parameters false).Accepted s names r) :
    (Goal.parameters true).Accepted (.identifier name :: s) (name :: names) r := by
  have hls := hs.length_le
  simp only [least] at hls
  refine of_succ (by simp only [least, List.length_cons]; omega) fun e n hn he => ?_
  simp only [cost, List.length_cons] at hn
  have hitems := hs.takes (e := e) (n := n) (by simp only [cost]; omega) (by omega)
  exact Parser.Takes.items_first (by simp) .identifier hitems (by omega) (by simp)

theorem lastParameterComma :
    (Goal.parameters false).Accepted (.punctuation (text ",") :: .punctuation (text ")") :: s) []
      (.punctuation (text ")") :: s) :=
  of_succ (by simp [least]) fun _ _ _ _ => Parser.Takes.items_lastComma

theorem nextParameter {name : Name} {names : List Name}
    (hs : (Goal.parameters false).Accepted s names r) :
    (Goal.parameters false).Accepted (.punctuation (text ",") :: .identifier name :: s)
      (name :: names) r := by
  have hls := hs.length_le
  simp only [least] at hls
  refine of_succ (by simp only [least, List.length_cons]; omega) fun e n hn he => ?_
  simp only [cost, List.length_cons] at hn
  have hitems := hs.takes (e := e) (n := n) (by simp only [cost]; omega) (by omega)
  exact Parser.Takes.items_next (by simp) .identifier hitems (by omega) (by simp)

/-! ### Blocks -/

/-- A line break opens a block of statements. -/
theorem block {branching : Bool} (hs : (Goal.statements branching).Accepted s xs r) :
    (Goal.body branching).Accepted (.punctuation Lexeme.newline :: s) (.mk xs false) r := by
  have hls := hs.length_le
  simp only [least] at hls
  refine of_succ (by simp only [least, List.length_cons]; omega) fun e n hn he => ?_
  simp only [cost, List.length_cons] at hn
  show Parser.Takes (Parser.body (n + 1) branching) (.punctuation Lexeme.newline :: s) _ r
  rw [Parser.body]
  refine .isNext_bind ?_ (by simp only [List.length_cons]; omega)
  rw [if_pos (by simp [Lexeme.separator])]
  refine .next_bind fun _ => ?_
  exact (hs.takes (e := e) (by simp only [cost]; omega) (by omega)).bind (.pure _) (Nat.le_refl _)

/-- An expression on the same line is the whole body, with the `end` that may follow it. -/
theorem inline {branching : Bool} (hs : s.head? ≠ some .separator)
    (hx : Goal.expression.Accepted s x s₁)
    (hend : Parser.Takes (Parser.optionalKeyword (text "end")) s₁ () r)
    (hle : r.length ≤ s₁.length) : (Goal.body branching).Accepted s (.mk [x] true) r := by
  have hlx := hx.length_le
  simp only [least] at hlx
  refine of_succ (by simp only [least]; omega) fun e n hn he => ?_
  simp only [cost] at hn
  show Parser.Takes (Parser.body (n + 1) branching) s _ r
  rw [Parser.body]
  refine .isNext_bind ?_ (by omega)
  rw [if_neg (by simp [hs])]
  exact (hx.takes (e := e) (by simp only [cost]; omega) (by omega)).bind
    (hend.bind (.pure _) (Nat.le_refl _)) (by omega)

/-- The word `end` closes a block and is taken. -/
theorem blockEnd {branching : Bool} :
    (Goal.statements branching).Accepted (.keyword (text "end") :: s) [] s := by
  refine of_succ (by simp [least]) fun e n _ _ => ?_
  show Parser.Takes (Parser.statements (n + 1) branching) (.keyword (text "end") :: s) [] s
  rw [Parser.statements]
  refine .peek_bind fun p => ?_
  dsimp only
  rw [if_pos (by simp [Parser.closes])]
  exact Parser.Takes.optionalKeyword.bind (.pure []) (Nat.le_refl _)

/-- In a branch `else` and `elif` close the block and stay for the conditional. -/
theorem blockTurn {w : Bytes} (hw : w = text "else" ∨ w = text "elif") :
    (Goal.statements true).Accepted (.keyword w :: s) [] (.keyword w :: s) := by
  refine of_succ (by simp [least]) fun e n _ _ => ?_
  show Parser.Takes (Parser.statements (n + 1) true) (.keyword w :: s) [] (.keyword w :: s)
  rw [Parser.statements]
  refine .peek_bind fun p => ?_
  -- The word closes the block, but only `end` would be taken.
  have hne : w ≠ text "end" := by rcases hw with rfl | rfl <;> decide
  dsimp only
  rw [if_pos (by simp [Parser.closes, hw])]
  exact (Parser.Takes.optionalKeyword_absent (by simpa using hne)).bind (.pure [])
    (Nat.le_refl _)

/-- A statement, its line break and the statements behind it. -/
theorem statement {branching : Bool} {l : Lexeme} {ls : List Lexeme} (hs : s = l :: ls)
    (hl : Parser.closes branching l = false)
    (hx : Goal.expression.Accepted s x (.punctuation Lexeme.newline :: s₁))
    (hxs : (Goal.statements branching).Accepted s₁ xs r) :
    (Goal.statements branching).Accepted s (x :: xs) r := by
  have hlx := hx.length_le
  have hls := hxs.length_le
  simp only [least, List.length_cons] at hlx hls
  refine of_succ (by simp only [least]; omega) fun e n hn he => ?_
  simp only [cost] at hn
  have hexpr := hx.takes (e := e) (n := n) (by simp only [cost]; omega) (by omega)
  have hrest := hxs.takes (e := e) (n := n) (by simp only [cost]; omega) (by omega)
  subst hs
  show Parser.Takes (Parser.statements (n + 1) branching) (l :: ls) (x :: xs) r
  rw [Parser.statements]
  refine .peek_bind fun p => ?_
  dsimp only
  -- What starts an expression closes no block.
  rw [if_neg (by simp [hl])]
  exact hexpr.bind (Parser.Takes.separator.bind (hrest.bind (.pure _) (Nat.le_refl _)) (by omega))
    (by simp only [List.length_cons]; omega)

/-! ### The branches of a conditional -/

theorem elif (hc : Goal.expression.Accepted s c s₁) (hb : (Goal.body true).Accepted s₁ b s₂)
    (ht : Goal.tail.Accepted s₂ t r) :
    Goal.tail.Accepted (.keyword (text "elif") :: s) (.elif c b t) r := by
  have hlc := hc.length_le
  have hlb := hb.length_le
  have hlt := ht.length_le
  simp only [least] at hlc hlb hlt
  refine of_succ (by simp only [least, List.length_cons]; omega) fun e n hn he => ?_
  simp only [cost, List.length_cons] at hn
  show Parser.Takes (Parser.tail (n + 1)) (.keyword (text "elif") :: s) _ r
  rw [Parser.tail]
  refine .isNext_bind ?_ (by simp only [List.length_cons]; omega)
  rw [if_pos (by simp)]
  refine .next_bind fun _ => ?_
  exact (hc.takes (e := e) (by simp only [cost]; omega) (by omega)).bind
    ((hb.takes (e := e) (by simp only [cost]; omega) (by omega)).bind
      ((ht.takes (e := e) (by simp only [cost]; omega) (by omega)).bind (.pure _) (Nat.le_refl _))
      (by omega)) (by omega)

theorem otherwise (hb : (Goal.body false).Accepted s b r) :
    Goal.tail.Accepted (.keyword (text "else") :: s) (.else b) r := by
  have hlb := hb.length_le
  simp only [least] at hlb
  refine of_succ (by simp only [least, List.length_cons]; omega) fun e n hn he => ?_
  simp only [cost, List.length_cons] at hn
  -- The parser asks for `elif` first.
  have hne : text "else" ≠ text "elif" := by decide
  show Parser.Takes (Parser.tail (n + 1)) (.keyword (text "else") :: s) _ r
  rw [Parser.tail]
  refine .isNext_bind ?_ (by simp only [List.length_cons]; omega)
  rw [if_neg (by simp [hne])]
  refine .isNext_bind ?_ (by simp only [List.length_cons]; omega)
  rw [if_pos (by simp)]
  refine .next_bind fun _ => ?_
  exact (hb.takes (e := e) (by simp only [cost]; omega) (by omega)).bind (.pure _) (Nat.le_refl _)

/-- Without `elif` or `else` ahead the conditional is complete. -/
theorem noTail (helif : s.head? ≠ some (.keyword (text "elif")))
    (helse : s.head? ≠ some (.keyword (text "else"))) : Goal.tail.Accepted s .none s := by
  refine of_succ (by simp [least]) fun e n _ _ => ?_
  show Parser.Takes (Parser.tail (n + 1)) s .none s
  rw [Parser.tail]
  refine .isNext_bind ?_ (Nat.le_refl _)
  rw [if_neg (by simp [helif])]
  refine .isNext_bind ?_ (Nat.le_refl _)
  rw [if_neg (by simp [helse])]
  exact .pure _

/-! ### Programs -/

theorem finished : Goal.program.Accepted [] [] [] := by
  refine of_succ (by simp [least]) fun e n _ _ => ?_
  show Parser.Takes (Parser.program (n + 1)) [] [] []
  rw [Parser.program]
  exact .peek_bind_nil (.pure [])

/-- A line of a program, with the separator behind it and the lines that follow. -/
theorem line (hx : Goal.expression.Accepted s x s₁)
    (hsep : Parser.Takes Parser.separator s₁ () s₂) (hle : s₂.length ≤ s₁.length)
    (hxs : Goal.program.Accepted s₂ xs r) : Goal.program.Accepted s (x :: xs) r := by
  have hlx := hx.length_le
  have hls := hxs.length_le
  simp only [least] at hlx hls
  refine of_succ (by simp only [least]; omega) fun e n hn he => ?_
  simp only [cost] at hn
  have hexpr := hx.takes (e := e) (n := n) (by simp only [cost]; omega) (by omega)
  have hrest := hxs.takes (e := e) (n := n) (by simp only [cost]; omega) (by omega)
  -- An expression takes a lexeme, so the program does not end here.
  cases s with
  | nil => simp only [List.length_nil] at hlx; omega
  | cons l ls =>
    show Parser.Takes (Parser.program (n + 1)) (l :: ls) (x :: xs) r
    rw [Parser.program]
    refine .peek_bind fun p => ?_
    rw [if_pos (by simp)]
    exact hexpr.bind (hsep.bind (hrest.bind (.pure _) (Nat.le_refl _)) (by omega)) (by omega)

end Accepted

end Goal

/-! ## Derivations are accepted -/

/-- Nothing that starts an expression closes a block. -/
theorem Lexeme.closes_of_starts {l : Lexeme} (h : l.starts = true) (branching : Bool) :
    Parser.closes branching l = false := by
  cases l with
  | keyword w =>
    simp only [starts, List.contains_iff_mem, List.mem_cons, List.not_mem_nil, or_false] at h
    rcases h with rfl | rfl | rfl | rfl | rfl | rfl <;> cases branching <;> decide
  | _ => rfl

/-- Every derivation is the one its parser takes. -/
theorem Derives.accepted {g : Goal} {s r : List Lexeme} {v : g.Result} (h : Derives g s v r) :
    g.Accepted s v r := by
  induction h with
  | ident | str | int | float => exact .leaf fun n => .peek_bind fun p => .take _
  -- Each rule by its lemma; where the parser asks what is ahead, the answer comes from how the next
  -- part starts.
  | bool hw => exact hw ▸ .bool
  | unary hop _ ihx => exact .unary hop ihx
  | group hm hm' _ ihx => subst hm hm'; exact .group ihx
  | branch hw _ _ _ ihc ihb iht => exact hw ▸ .branch ihc ihb iht
  | loop hw _ _ ihc ihb => exact hw ▸ .loop ihc ihb
  | ret hw _ ihx => exact hw ▸ .ret ihx
  | func hw hm hm' _ hdistinct _ ihps ihb => subst hw hm hm'; exact .func ihps hdistinct ihb
  | atom _ _ iho ihc => exact .atom iho ihc
  | uncalled hne => exact .uncalled hne
  | call hm hm' _ _ ihas ihc => subst hm hm'; exact .call ihas ihc
  | expression _ _ iha ihc => exact .expression iha ihc
  | climbed hstop => exact .climbed hstop
  | climb hp _ _ _ ihy ihx ihz => exact .climb hp ihy ihx ihz
  | noArguments hm => exact hm ▸ .noArguments
  | firstArgument hx _ ihx ihxs => exact .firstArgument (hx.head?_ne (by decide)) ihx ihxs
  | lastComma hm hm' => subst hm hm'; exact .lastComma
  | nextArgument hm hx _ ihx ihxs => exact hm ▸ .nextArgument (hx.head?_ne (by decide)) ihx ihxs
  | noParameters hm => exact hm ▸ .noParameters
  | firstParameter _ ihs => exact .firstParameter ihs
  | lastParameterComma hm hm' => subst hm hm'; exact .lastParameterComma
  | nextParameter hm _ ihs => exact hm ▸ .nextParameter ihs
  | block hm _ ihs => exact hm ▸ .block ihs
  | inline hx hne ihx =>
    exact .inline (hx.head?_ne (by decide)) ihx (.optionalKeyword_absent hne) (Nat.le_refl _)
  | inlineEnd hw hx ihx =>
    subst hw
    exact .inline (hx.head?_ne (by decide)) ihx .optionalKeyword (by simp)
  | blockEnd hw => exact hw ▸ .blockEnd
  | blockTurn hw => exact .blockTurn hw
  | statement hm hx _ ihx ihxs =>
    subst hm
    obtain ⟨l, ls, hs, hl⟩ := hx.expression_starts
    exact .statement hs (Lexeme.closes_of_starts hl _) ihx ihxs
  | elif hw _ _ _ ihc ihb iht => exact hw ▸ .elif ihc ihb iht
  | «else» hw _ ihb => exact hw ▸ .otherwise ihb
  | noTail helif helse => exact .noTail helif helse
  | finished => exact .finished
  | lastStatement _ ihx => exact .line ihx .separator_nil (Nat.le_refl _) .finished
  | line hm _ _ ihx ihxs => subst hm; exact .line ihx .separator (by simp) ihxs

/-- The parser takes one way only, so what a goal reads is determined. -/
theorem Derives.unique {g : Goal} {s r₁ r₂ : List Lexeme} {v₁ v₂ : g.Result}
    (h₁ : Derives g s v₁ r₁) (h₂ : Derives g s v₂ r₂) : v₁ = v₂ ∧ r₁ = r₂ := by
  -- Both derivations are what the parser does on one and the same stream.
  let st : Stream := ⟨s.map fun l => ⟨l, ⟨0, 0⟩⟩, none, ⟨0, 0⟩⟩
  have hst : st.lexemes = s := by simp [st, Function.comp_def]
  obtain ⟨rest₁, e₁, l₁, _⟩ :=
    h₁.accepted.takes (Nat.le_refl _) (Nat.le_refl _) st hst fun _ => rfl
  obtain ⟨rest₂, e₂, l₂, _⟩ :=
    h₂.accepted.takes (Nat.le_refl _) (Nat.le_refl _) st hst fun _ => rfl
  rw [e₁] at e₂
  cases e₂
  exact ⟨rfl, l₁.symm.trans l₂⟩

/-- A text whose lexemes derive a program parses as this program. -/
theorem parse_of_derives {source : Bytes} {ts : List Token} {ss : List Node}
    (hts : tokenize source = .ok ts) (h : Derives .program (ts.map Token.lexeme) ss []) :
    parse source = .ok ⟨ss⟩ := by
  -- The parser starts with fuel in proportion to its tokens.
  have hfuel : 16 * (ts.map Token.lexeme).length + Goal.program.cost ≤
      (⟨ts, none, ⟨0, 0⟩⟩ : Stream).fuel := by
    simp only [List.length_map, Stream.fuel, Goal.cost]
    omega
  obtain ⟨rest, hp, _, _⟩ := h.accepted.takes hfuel (Nat.le_refl _) ⟨ts, none, ⟨0, 0⟩⟩ rfl
    fun _ => rfl
  have hprogram : Parser.program (⟨ts, none, ⟨0, 0⟩⟩ : Stream).fuel ⟨ts, none, ⟨0, 0⟩⟩ =
      .ok ss rest := hp
  rw [parse_of_tokenize hts, Stream.parse, hprogram]

/-- Parsing and derivations agree on whole texts. -/
theorem parse_eq_ok_iff {source : Bytes} {p : Program} :
    parse source = .ok p ↔ ∃ ts, tokenize source = .ok ts ∧
      Derives .program (ts.map Token.lexeme) p.statements [] :=
  ⟨parse_derives, fun ⟨_, hts, h⟩ => parse_of_derives hts h⟩

end Scriptlet

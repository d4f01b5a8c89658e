/-
  Scriptlet.Proofs.Render.Proper

  The trees that a text can stand for. Lexemes of a text are valid (a name is no
  reserved word, numbers have no sign, strings hold their quotes behind
  backslashes), and a tree put together from valid lexemes is proper:
  `proper_of_parse`.
-/
import Scriptlet.Proofs.Lexing
import Scriptlet.Proofs.Number.Decimal

namespace Scriptlet

/-! ## Valid lexemes -/

/-- What holds of the value of every lexeme of a text. -/
def Lexeme.isValid : Lexeme → Bool
  | .identifier name => isVariableName name
  | .keyword w => isKeyword w
  | .string contents => isQuotable false contents
  | .integer _ n => 0 ≤ n
  | .float _ d => !d.isNegative && !d.isNaN
  | .punctuation _ | .operator _ => true

/-- A word is a keyword of the language or a name that is none. -/
theorem isValid_word {w : Bytes} (hw : isIdentifier w = true) : (Lexeme.word w).isValid = true := by
  unfold Lexeme.word
  split
  · rename_i hk
    exact hk
  · rename_i hk
    show (isIdentifier w && !isKeyword w) = true
    rw [hw, Bool.true_and, Bool.not_eq_true']
    simpa using hk

/-- A float that was read from digits has no sign and is a number. -/
theorem isValid_float_ofDecimal (literal : Bytes) (m : Nat) (e : Int) :
    (Lexeme.float literal (Double.ofDecimal false m e)).isValid = true := by
  rw [Lexeme.isValid, Double.isNegative_ofDecimal, Double.isNaN_ofDecimal]
  rfl

theorem Word.ofNat_nonneg {n : Nat} (h : Word.holds n = true) : 0 ≤ Int64.ofNat n := by
  have hn : (n : Int) ≤ 0x7FFFFFFFFFFFFFFF := by
    rw [Word.holds, Bool.and_eq_true] at h
    exact of_decide_eq_true h.2
  rw [Int64.le_iff_toInt_le, Int64.toInt_ofNat_of_lt (by omega)]
  simp

/-- A number that starts with a digit is read without a sign. -/
theorem readDouble_of_digit {b : UInt8} {n : Bytes} {d : Double} (hb : Bytes.isDigit b = true)
    (h : Numeral.readDouble (b :: n) = some d) :
    ∃ m e, d = Double.ofDecimal false m e := by
  unfold Numeral.readDouble at h
  rw [Numeral.sign_of_digit hb, Option.map_eq_some_iff] at h
  obtain ⟨⟨m, e⟩, _, rfl⟩ := h
  exact ⟨m, e, rfl⟩

/-- So a number that starts with a digit is a valid literal. -/
theorem isValid_of_number {b : UInt8} {n : Bytes} {l : Lexeme} (hb : Bytes.isDigit b = true)
    (h : Cursor.number (b :: n) = .ok l) : l.isValid = true := by
  unfold Cursor.number at h
  split at h
  · simp only at h
    split at h
    -- Digits alone are an integer if it fits the word, and a float otherwise.
    · rename_i hholds
      cases h
      exact decide_eq_true (Word.ofNat_nonneg hholds)
    · cases h
      exact isValid_float_ofDecimal _ _ _
  · split at h
    · -- A point at one of the ends is refused.
      cases h
    split at h
    · rename_i d hd
      split at h
      · cases h
      · cases h
        obtain ⟨m, e, rfl⟩ := readDouble_of_digit hb hd
        exact isValid_float_ofDecimal _ _ _
    · cases h
  · cases h

/-- Every lexeme of a reading is valid. -/
theorem Lexes.isValid {s r : Bytes} {fresh f : Bool} {ls : List Lexeme} (h : Lexes s fresh ls r f) :
    ∀ l ∈ ls, l.isValid = true := by
  induction h with
  | stop => simp
  | blank _ _ ih | emptyLine _ ih | emptyComment _ _ _ ih => exact ih
  | newline _ ih | comment _ _ _ ih | punctuation _ _ ih | operator _ _ _ _ ih =>
    exact List.forall_mem_cons.mpr ⟨rfl, ih⟩
  | string hc _ ih => exact List.forall_mem_cons.mpr ⟨hc, ih⟩
  | word hw _ _ ih => exact List.forall_mem_cons.mpr ⟨isValid_word hw, ih⟩
  | number hb _ hl _ _ ih => exact List.forall_mem_cons.mpr ⟨isValid_of_number hb hl, ih⟩

/-- So is every lexeme of a text that is split. -/
theorem isValid_of_tokenize {source : Bytes} {ts : List Token} (h : tokenize source = .ok ts) :
    ∀ l ∈ ts.map Token.lexeme, l.isValid = true := by
  obtain ⟨f, hlex⟩ := exists_tokenize_iff.mp ⟨ts, h, rfl⟩
  exact hlex.isValid

/-! ## Proper trees -/

/-- The parts a tree is made of, so that one induction goes through all of
    them. -/
inductive Part where
  | node (x : Node)
  | block (b : Block)
  | tail (t : Tail)
  | each (xs : List Node)

/-- The name and the parameters of a function: variable names, no parameter
    twice. -/
structure ProperHead (name : Name) (parameters : List Name) : Prop where
  isName : isVariableName name = true
  areNames : ∀ p ∈ parameters, isVariableName p = true
  distinct : Parser.repeated? [] parameters = none

/-- The trees that a text can stand for: literals without sign, variable names,
    operators of the language, inline bodies of one expression, which a function
    returns. -/
inductive Proper : Part → Prop where
  | int {n} (hn : 0 ≤ n) : Proper (.node (.int n))
  | float {d} (hneg : d.isNegative = false) (hnan : d.isNaN = false) : Proper (.node (.float d))
  | str {s} (hs : isQuotable false s = true) : Proper (.node (.str s))
  | bool {b} : Proper (.node (.bool b))
  | ident {name} (hname : isVariableName name = true) : Proper (.node (.ident name))
  | unary {op x} (hop : op = .not ∨ op = .negate) (hx : Proper (.node x)) :
      Proper (.node (.unary op x))
  | binary {op l r} (hop : op ∈ BinaryOp.all) (hl : Proper (.node l)) (hr : Proper (.node r)) :
      Proper (.node (.binary op l r))
  | assign {l r} (hl : Proper (.node l)) (hr : Proper (.node r)) : Proper (.node (.assign l r))
  | call {c as} (hc : Proper (.node c)) (has : Proper (.each as)) : Proper (.node (.call c as))
  | inlineFunc {name ps v} (hhead : ProperHead name ps) (hv : Proper (.node v)) :
      Proper (.node (.func name ps (.mk [.ret v] true)))
  | blockFunc {name ps ss} (hhead : ProperHead name ps) (hss : Proper (.each ss)) :
      Proper (.node (.func name ps (.mk ss false)))
  | branch {c b t} (hc : Proper (.node c)) (hb : Proper (.block b)) (ht : Proper (.tail t)) :
      Proper (.node (.branch c b t))
  | loop {c b} (hc : Proper (.node c)) (hb : Proper (.block b)) : Proper (.node (.loop c b))
  | ret {v} (hv : Proper (.node v)) : Proper (.node (.ret v))
  | inline {x} (hx : Proper (.node x)) : Proper (.block (.mk [x] true))
  | block {ss} (hss : Proper (.each ss)) : Proper (.block (.mk ss false))
  | none : Proper (.tail .none)
  | elif {c b t} (hc : Proper (.node c)) (hb : Proper (.block b)) (ht : Proper (.tail t)) :
      Proper (.tail (.elif c b t))
  | else {b} (hb : Proper (.block b)) : Proper (.tail (.else b))
  | nil : Proper (.each [])
  | cons {x xs} (hx : Proper (.node x)) (hxs : Proper (.each xs)) : Proper (.each (x :: xs))

/-! ## Parsed trees are proper -/

/-- An operator with a precedence is one of the language, if it is no assignment. -/
theorem ofSymbol_mem_all {op : Bytes} (hp : 0 < precedence op) (hne : op ≠ text "=") :
    BinaryOp.ofSymbol op ∈ BinaryOp.all := by
  -- The operators with a precedence, the assignment apart, one by one.
  have hmem : op ∈ [text "||", text "&&", text "<", text ">", text "<=", text ">=", text "==",
      text "!=", text "+", text "-", text "*", text "/", text "%"] := by
    unfold precedence at hp
    simp only [beq_iff_eq, hne, if_false, List.contains_iff_mem] at hp
    by_contra hno
    simp only [List.mem_cons, List.not_mem_nil, or_false, not_or] at hno
    obtain ⟨h₁, h₂, h₃, h₄, h₅, h₆, h₇, h₈, h₉, h₁₀, h₁₁, h₁₂, h₁₃⟩ := hno
    simp [h₁, h₂, h₃, h₄, h₅, h₆, h₇, h₈, h₉, h₁₀, h₁₁, h₁₂, h₁₃] at hp
  have htest : ([text "||", text "&&", text "<", text ">", text "<=", text ">=", text "==",
      text "!=", text "+", text "-", text "*", text "/", text "%"].all fun op =>
      BinaryOp.all.contains (BinaryOp.ofSymbol op)) = true := by decide +kernel
  exact List.contains_iff_mem.mp (List.all_eq_true.mp htest op hmem)

theorem Proper.combine {op : Bytes} {l r : Node} (hp : 0 < precedence op)
    (hl : Proper (.node l)) (hr : Proper (.node r)) :
    Proper (.node (Parser.combine op l r)) := by
  unfold Parser.combine
  split
  · exact .assign hl hr
  · rename_i hne
    exact .binary (ofSymbol_mem_all hp (by simpa using hne)) hl hr

/-- A function with a proper body is proper, inline bodies being returned. -/
theorem Proper.returning {name : Name} {ps : List Name} {b : Block} (hhead : ProperHead name ps)
    (hb : Proper (.block b)) : Proper (.node (.func name ps b.returning)) := by
  cases hb with
  | inline hx => exact .inlineFunc hhead hx
  | @block ss hss =>
    rw [Block.returning_block]
    exact .blockFunc hhead hss

namespace Goal

/-- A proper result. -/
def Proper : (g : Goal) → g.Result → Prop
  | .operand, x => Scriptlet.Proper (.node x)
  | .atom, x => Scriptlet.Proper (.node x)
  | .calls _, x => Scriptlet.Proper (.node x)
  | .expression, x => Scriptlet.Proper (.node x)
  | .climb _ _, x => Scriptlet.Proper (.node x)
  | .arguments _, xs => Scriptlet.Proper (.each xs)
  | .parameters _, ps => ∀ p ∈ ps, isVariableName p = true
  | .body _, b => Scriptlet.Proper (.block b)
  | .statements _, ss => Scriptlet.Proper (.each ss)
  | .tail, t => Scriptlet.Proper (.tail t)
  | .program, ss => Scriptlet.Proper (.each ss)

/-- The node that a goal goes on from is proper. -/
def ProperPending : Goal → Prop
  | .calls callee => Scriptlet.Proper (.node callee)
  | .climb left _ => Scriptlet.Proper (.node left)
  | _ => True

end Goal

open List in
/-- A goal that starts from a proper node and reads valid lexemes gives a proper
    result. -/
theorem Derives.proper {g : Goal} {s r : List Lexeme} {v : g.Result} (h : Derives g s v r)
    (hs : ∀ l ∈ s, l.isValid = true) (hp : g.ProperPending) : g.Proper v := by
  -- Each part reads a suffix of the lexemes, so what is known of all of them
  -- holds where the part starts.
  induction h with
  | ident => exact .ident (hs _ mem_cons_self)
  | str => exact .str (hs _ mem_cons_self)
  | int => exact .int (of_decide_eq_true (hs _ mem_cons_self))
  | float =>
    have hd := hs _ mem_cons_self
    rw [Lexeme.isValid, Bool.and_eq_true, Bool.not_eq_true', Bool.not_eq_true'] at hd
    exact .float hd.1 hd.2
  | bool => exact .bool
  | unary hop _ ihx =>
    refine .unary ?_ (ihx (forall_mem_cons.mp hs).2 trivial)
    rcases hop with rfl | rfl <;> decide
  | group _ _ _ ihx => exact ihx (forall_mem_cons.mp hs).2 trivial
  | branch _ hc hb _ ihc ihb iht =>
    have hs' := (forall_mem_cons.mp hs).2
    have hs₁ := fun l hl => hs' l (hc.suffix.mem hl)
    have hs₂ := fun l hl => hs₁ l (hb.suffix.mem hl)
    exact .branch (ihc hs' trivial) (ihb hs₁ trivial) (iht hs₂ trivial)
  | elif _ hc hb _ ihc ihb iht =>
    have hs' := (forall_mem_cons.mp hs).2
    have hs₁ := fun l hl => hs' l (hc.suffix.mem hl)
    have hs₂ := fun l hl => hs₁ l (hb.suffix.mem hl)
    exact .elif (ihc hs' trivial) (ihb hs₁ trivial) (iht hs₂ trivial)
  | loop _ hc _ ihc ihb =>
    have hs' := (forall_mem_cons.mp hs).2
    exact .loop (ihc hs' trivial) (ihb (fun l hl => hs' l (hc.suffix.mem hl)) trivial)
  | ret _ _ ihx => exact .ret (ihx (forall_mem_cons.mp hs).2 trivial)
  | func _ _ _ hps hdistinct _ ihps ihb =>
    -- The keyword, the name and the parenthesis stand in front of the parameters.
    obtain ⟨_, hname, _, hs'⟩ := by simpa only [forall_mem_cons] using hs
    have hs₁ := fun l hl => hs' l (hps.suffix.mem (mem_cons_of_mem _ hl))
    exact .returning ⟨hname, ihps hs' trivial, hdistinct⟩ (ihb hs₁ trivial)
  | atom ho _ iho ihc => exact ihc (fun l hl => hs l (ho.suffix.mem hl)) (iho hs trivial)
  | expression ha _ iha ihc => exact ihc (fun l hl => hs l (ha.suffix.mem hl)) (iha hs trivial)
  | uncalled | climbed => exact hp
  | call _ _ has _ ihas ihc =>
    have hs' := (forall_mem_cons.mp hs).2
    have hs₁ := fun l hl => hs' l (has.suffix.mem (mem_cons_of_mem _ hl))
    exact ihc hs₁ (.call hp (ihas hs' trivial))
  | climb hlt hy hx _ ihy ihx ihz =>
    have hs' := (forall_mem_cons.mp hs).2
    have hs₁ := fun l hl => hs' l (hy.suffix.mem hl)
    -- The node read so far is the left operand of what the loop goes on with.
    have hright := ihx hs₁ (ihy hs' trivial)
    exact ihz (fun l hl => hs₁ l (hx.suffix.mem hl))
      (.combine (Nat.lt_of_le_of_lt (Nat.zero_le _) hlt) hp hright)
  | noArguments | lastComma | blockEnd | blockTurn | finished => exact .nil
  | noParameters | lastParameterComma => simp [Goal.Proper]
  | firstArgument hx _ ihx ihxs =>
    exact .cons (ihx hs trivial) (ihxs (fun l hl => hs l (hx.suffix.mem hl)) trivial)
  | nextArgument _ hx _ ihx ihxs =>
    have hs' := (forall_mem_cons.mp hs).2
    exact .cons (ihx hs' trivial) (ihxs (fun l hl => hs' l (hx.suffix.mem hl)) trivial)
  | firstParameter _ ihs =>
    obtain ⟨hname, hs'⟩ := forall_mem_cons.mp hs
    exact forall_mem_cons.mpr ⟨hname, ihs hs' trivial⟩
  | nextParameter _ _ ihs =>
    obtain ⟨_, hname, hs'⟩ := by simpa only [forall_mem_cons] using hs
    exact forall_mem_cons.mpr ⟨hname, ihs hs' trivial⟩
  | block _ _ ihs => exact .block (ihs (forall_mem_cons.mp hs).2 trivial)
  | inline _ _ ihx | inlineEnd _ _ ihx => exact .inline (ihx hs trivial)
  | statement _ hx _ ihx ihxs | line _ hx _ ihx ihxs =>
    have hs₁ := fun l hl => hs l (hx.suffix.mem (mem_cons_of_mem _ hl))
    exact .cons (ihx hs trivial) (ihxs hs₁ trivial)
  | «else» _ _ ihb => exact .else (ihb (forall_mem_cons.mp hs).2 trivial)
  | noTail => exact .none
  | lastStatement _ ihx => exact .cons (ihx hs trivial) .nil

/-- A program that was parsed is proper. -/
theorem proper_of_parse {source : Bytes} {p : Program} (h : parse source = .ok p) :
    Proper (.each p.statements) := by
  obtain ⟨ts, hts, d⟩ := parse_derives h
  exact d.proper (isValid_of_tokenize hts) trivial

end Scriptlet

/-
  Scriptlet.Proofs.Grammar.Descent

  The parser as a plain recursive descent over a lazy reader.

  The parsers of the library count down fuel and read a list of tokens. The descent here
  reads phrases in phrases without any bound, and pulls token after token from the scanner
  that moves an index through the text. A step is undefined where the scanner is, where it
  uses a token that is not there or takes a node for a name that is none, and where it
  goes on for ever. Whenever the fuel of a parser lasts, the descent is defined and
  does the same (`Descent.mirrorsAll`). A few levels of the grammar for each token are
  enough fuel, so the descent is defined on every text (`parse_total`).
-/
import Scriptlet.Proofs.Lexing.Lookahead
import Scriptlet.Proofs.Grammar.Lines

namespace Scriptlet

/-- A scanner, and the position of the last token that was taken from it. -/
structure Reading where
  scanner : Scanner
  last : Position

/-- A step of a descent: it gives a result or a fault, or is undefined. -/
abbrev Descent (α : Type) : Type := ExceptT Fault (StateT Reading Option) α

namespace Descent

/-! ## Single tokens -/

/-- A step of the scanner. -/
def scan {α : Type} (m : Scanning α) : Descent α := fun ρ =>
  (m ρ.scanner).map fun x => (x.1, { ρ with scanner := x.2 })

/-- What there has to be: undefined where there is nothing. -/
def demand {α : Type} (x? : Option α) : Descent α := fun ρ => x?.map fun x => (.ok x, ρ)

def peek : Descent (Option Token) := scan Scanner.peek

def next : Descent (Option Token) := do
  let t? ← scan Scanner.next
  modify fun ρ => { ρ with last := (t?.map Token.position).getD ρ.last }
  return t?

def refuse {α : Type} (t? : Option Token) (problem : ParseProblem) : Descent α := do
  let ρ ← get
  match t? with
  | some t => throw (.parse problem t.position false)
  | none => throw (.parse problem ρ.last true)

def isNext (l : Lexeme) : Descent Bool := do
  let t? ← peek
  return t?.any fun t => t.lexeme == l

def take {α : Type} (a : α) : Descent α := do
  let _ ← next
  return a

def mark (m : Bytes) : Descent Unit := do
  let t? ← peek
  if t?.any fun t => t.lexeme == .punctuation m then take ()
  else refuse t? (.expectedPunctuation m (t?.map Token.lexeme))

def optionalKeyword (word : Bytes) : Descent Unit := do
  if ← isNext (.keyword word) then take () else return ()

def separator : Descent Unit := do
  if ← scan Scanner.hasNext then mark Lexeme.newline else return ()

/-- A name, as a node. -/
def identifier : Descent Node := do
  match ← next with
  | some ⟨.identifier name, _⟩ => return .ident name
  | t? => refuse t? (.expectedIdentifier (t?.map Token.lexeme))

/-- The name that a node is. -/
def nameOf : Node → Descent Name
  | .ident name => return name
  | _ => demand none

/-! ## The grammar -/

/-- What stands between parentheses: the arguments of a call or the parameters of a
    function. -/
inductive Item where
  | argument
  | parameter

/-- The words that end a block. -/
def closingWords (branching : Bool) : List Bytes :=
  if branching then [text "else", text "elif", text "end"] else [text "end"]

/-- Whether a token ends a block. -/
def isClosing (branching : Bool) : Lexeme → Bool
  | .keyword word => (closingWords branching).contains word
  | _ => false

/-- What a descent can be asked for, behind what was read before it. -/
inductive Phrase : Type → Type 1 where
  | expression : Phrase Node
  | climb (left : Node) (level : Nat) : Phrase Node
  | atom : Phrase Node
  | calls (callee : Node) : Phrase Node
  | delimited (kind : Item) : Phrase (List Node)
  | items (kind : Item) (first : Bool) : Phrase (List Node)
  | element (kind : Item) : Phrase (List Node)
  | item (kind : Item) : Phrase Node
  | operand : Phrase Node
  | function : Phrase Node
  | tail : Phrase Tail
  | body (branching : Bool) : Phrase Block
  | statements (branching : Bool) : Phrase (List Node)
  | program : Phrase (List Node)

namespace Phrase

/-- Reads a phrase, and whatever phrases it is made of, with no bound on how deep they
    lie in each other. -/
def read : {α : Type} → Phrase α → Descent α
  | _, .expression => do
    let left ← atom |>.read
    climb left 0 |>.read
  | _, .climb left level => do
    match ← peek with
    | some ⟨.operator symbol, position⟩ =>
      if precedence symbol = 0 then
        refuse (some ⟨.operator symbol, position⟩) (.unknownOperator symbol)
      else if precedence symbol ≤ level then return left
      else do
        let _ ← next
        let x ← atom |>.read
        let right ← climb x (precedence symbol) |>.read
        climb (Parser.combine symbol left right) level |>.read
    | _ => return left
  | _, .atom => do
    let callee ← operand |>.read
    calls callee |>.read
  | _, .calls callee => do
    if ← isNext (.punctuation (text "(")) then do
      let arguments ← delimited .argument |>.read
      calls (.call callee arguments) |>.read
    else return callee
  | _, .delimited kind => do
    mark (text "(")
    let xs ← items kind true |>.read
    mark (text ")")
    return xs
  | _, .items kind first => do
    if ← isNext (.punctuation (text ")")) then return []
    else if first then element kind |>.read
    else do
      mark (text ",")
      if ← isNext (.punctuation (text ")")) then return [] else element kind |>.read
  | _, .element kind => do
    let x ← item kind |>.read
    let xs ← items kind false |>.read
    return x :: xs
  | _, .item .argument => expression |>.read
  | _, .item .parameter => identifier
  | _, .operand => do
    match ← peek with
    | none => refuse none .expectedExpression
    | some ⟨.identifier name, _⟩ => take (.ident name)
    | some ⟨.string contents, _⟩ => take (.str contents)
    | some ⟨.integer _ n, _⟩ => take (.int n)
    | some ⟨.float _ d, _⟩ => take (.float d)
    | some ⟨.operator symbol, position⟩ =>
      if symbol == text "!" || symbol == text "-" then do
        -- The symbol of the node is that of the token that is taken now.
        let t? ← next
        let t ← demand t?
        let x ← atom |>.read
        return .unary (.ofSymbol t.lexeme.literal) x
      else
        refuse (some ⟨.operator symbol, position⟩) (.unexpectedToken (.operator symbol))
    | some ⟨.punctuation m, position⟩ =>
      if m == text "(" then do
        let _ ← next
        let x ← expression |>.read
        mark (text ")")
        return x
      else refuse (some ⟨.punctuation m, position⟩) (.unexpectedToken (.punctuation m))
    | some ⟨.keyword word, position⟩ =>
      if word == text "True" then take (.bool true)
      else if word == text "False" then take (.bool false)
      else if word == text "if" then do
        let _ ← next
        let condition ← expression |>.read
        let block ← body true |>.read
        let rest ← tail |>.read
        return .branch condition block rest
      else if word == text "while" then do
        let _ ← next
        let condition ← expression |>.read
        let block ← body false |>.read
        return .loop condition block
      else if word == text "return" then do
        let _ ← next
        let x ← expression |>.read
        return .ret x
      else if word == text "func" then do
        let _ ← next
        function |>.read
      else refuse (some ⟨.keyword word, position⟩) (.unexpectedToken (.keyword word))
  | _, .function => do
    let node ← identifier
    let opening ← peek
    let nodes ← delimited .parameter |>.read
    -- The nodes read for the names are taken for names only here.
    let name ← nameOf node
    let parameters ← nodes.mapM nameOf
    match Parser.repeated? [] parameters with
    | some parameter => refuse opening (.duplicateParameter parameter name)
    | none => do
      match ← body false |>.read with
      | .mk [x] true => return .func name parameters (.mk [.ret x] true)
      | block => return .func name parameters block
  | _, .tail => do
    if ← isNext (.keyword (text "elif")) then do
      let _ ← next
      let condition ← expression |>.read
      let block ← body true |>.read
      let rest ← tail |>.read
      return .elif condition block rest
    else if ← isNext (.keyword (text "else")) then do
      let _ ← next
      let block ← body false |>.read
      return .else block
    else return .none
  | _, .body branching => do
    if ← isNext .separator then do
      let _ ← next
      let block ← statements branching |>.read
      return .mk block false
    else do
      let x ← expression |>.read
      optionalKeyword (text "end")
      return .mk [x] true
  | _, .statements branching => do
    match ← peek with
    | none => do
      -- A block that is not closed is refused with the last of its closing words.
      let _ ← demand (closingWords branching)[(closingWords branching).length - 1]?
      refuse none .unclosedBlock
    | some t =>
      if isClosing branching t.lexeme then do
        optionalKeyword (text "end")
        return []
      else do
        let x ← expression |>.read
        separator
        let xs ← statements branching |>.read
        return x :: xs
  | _, .program => do
    if ← scan Scanner.hasNext then do
      let x ← expression |>.read
      separator
      let xs ← program |>.read
      return x :: xs
    else return []
partial_fixpoint

end Phrase

end Descent

/-! ## The reader and its tokens -/

namespace Lexer

/-- The tokens still to come, behind a last token at a position. -/
def streamFrom (l : Lexer) (last : Position) : Stream := ⟨l.tokens.1, l.tokens.2, last⟩

/-- Looking ahead shows the first of the tokens and changes none of them. -/
theorem peek_streamFrom (l : Lexer) (last : Position) :
    (∃ t?, l.peek.1 = .ok t? ∧
      Parser.peek (l.streamFrom last) = .ok t? (l.peek.2.streamFrom last)) ∨
    ∃ f, l.peek.1 = .error f ∧ Parser.peek (l.streamFrom last) = .fail f (l.streamFrom last) := by
  rcases l.peek_cases with ⟨t, ts, ending, c, htokens, hpeek, hc⟩ | ⟨c, htokens, hpeek, hc⟩ |
    ⟨problem, p, c, htokens, hpeek, -⟩
  · -- The token is kept, and the cursor stands behind it.
    refine .inl ⟨some t, by rw [hpeek], ?_⟩
    simp only [streamFrom, Parser.peek, htokens, hpeek, tokens_some hc]
  · -- At the end nothing is kept, and there is nothing to show.
    refine .inl ⟨none, by rw [hpeek], ?_⟩
    simp only [streamFrom, Parser.peek, htokens, hpeek, tokens_none hc]
  · -- A fault shows no token, so the reader stays where it is.
    refine .inr ⟨.lex problem p, by rw [hpeek], ?_⟩
    simp only [streamFrom, Parser.peek, htokens]

/-- Taking a token takes the first of the tokens. -/
theorem next_streamFrom (l : Lexer) (last : Position) :
    (∃ t?, l.next.1 = .ok t? ∧ Parser.next (l.streamFrom last) =
      .ok t? (l.next.2.streamFrom ((t?.map Token.position).getD last))) ∨
    ∃ f, l.next.1 = .error f ∧ Parser.next (l.streamFrom last) = .fail f (l.streamFrom last) := by
  rcases l.peek_cases with ⟨t, ts, ending, c, htokens, hpeek, hc⟩ | ⟨c, htokens, hpeek, hc⟩ |
    ⟨problem, p, c, htokens, hpeek, -⟩
  · rw [next_of_peek hpeek]
    refine .inl ⟨some t, rfl, ?_⟩
    simp only [streamFrom, Parser.next, htokens, tokens_none hc, Option.map_some, Option.getD_some]
  · rw [next_of_peek hpeek]
    refine .inl ⟨none, rfl, ?_⟩
    simp only [streamFrom, Parser.next, htokens, tokens_none hc, Option.map_none, Option.getD_none]
  · refine .inr ⟨.lex problem p, by rw [next, hpeek], ?_⟩
    simp only [streamFrom, Parser.next, htokens]

end Lexer

namespace Reading

/-- The tokens still to come. -/
def stream (ρ : Reading) : Stream := ρ.scanner.lexer.streamFrom ρ.last

/-- The index is in the text. -/
def InText (ρ : Reading) : Prop := ρ.scanner.offset ≤ ρ.scanner.input.length

end Reading

namespace Descent

variable {α β γ δ : Type} {ρ : Reading}

/-! ## What a step mirrors -/

/-- From a reading in the text the step is defined and does what the parser does with
    the tokens still to come, its result taken by `g`, unless the fuel of the parser
    runs out. -/
def MirrorsAt (ρ : Reading) (g : α → β) (m : Descent β) (p : Parser α) : Prop :=
  match p ρ.stream with
  | .ok a s => ∃ ρ', m ρ = some (.ok (g a), ρ') ∧ ρ'.InText ∧ ρ'.stream = s
  | .fail fault _ => ∃ ρ', m ρ = some (.error fault, ρ')
  | .starved => True

/-- The same from every reading in the text. -/
def Mirrors (g : α → β) (m : Descent β) (p : Parser α) : Prop :=
  ∀ ρ : Reading, ρ.InText → MirrorsAt ρ g m p

/-- What a sequence of steps does from a reading, faults and undefined steps first. -/
theorem bind_apply (m : Descent α) (f : α → Descent β) (ρ : Reading) :
    (m >>= f) ρ = (m ρ).bind fun x =>
      match x with
      | (.ok a, ρ') => f a ρ'
      | (.error fault, ρ') => some (.error fault, ρ') := by
  show ((m ρ).bind fun x => ExceptT.bindCont f x.1 x.2) = _
  refine congrArg _ (funext fun x => ?_)
  obtain ⟨a | fault, ρ'⟩ := x <;> rfl

/-- Steps in sequence mirror parsers in sequence. The second has to mirror only where the first
can lead. -/
theorem MirrorsAt.bind {g : α → β} {h : γ → δ} {m : Descent β} {p : Parser α} {f : β → Descent δ}
    {k : α → Parser γ} (hm : MirrorsAt ρ g m p)
    (hf : ∀ a ρ', p ρ.stream = .ok a ρ'.stream → ρ'.InText → MirrorsAt ρ' h (f (g a)) (k a)) :
    MirrorsAt ρ h (m >>= f) (p >>= k) := by
  unfold MirrorsAt at hm ⊢
  rw [show (p >>= k) ρ.stream = match p ρ.stream with
    | .ok a s => k a s
    | .fail fault s => .fail fault s
    | .starved => .starved from rfl]
  cases hp : p ρ.stream with
  | ok a s =>
    rw [hp] at hm
    obtain ⟨ρ', hm, htext, rfl⟩ := hm
    rw [bind_apply, hm]
    exact hf a ρ' hp htext
  -- A fault of the first step is that of the whole.
  | fail fault s =>
    rw [hp] at hm
    obtain ⟨ρ', hm⟩ := hm
    rw [bind_apply, hm]
    exact ⟨ρ', rfl⟩
  | starved => trivial

namespace Mirrors

variable {g : α → β} {h : γ → δ}

/-- The same where the second step mirrors from everywhere. -/
theorem bind {m : Descent β} {p : Parser α} {f : β → Descent δ} {k : α → Parser γ}
    (hm : Mirrors g m p) (hf : ∀ a, Mirrors h (f (g a)) (k a)) :
    Mirrors h (m >>= f) (p >>= k) :=
  fun ρ htext => (hm ρ htext).bind fun a ρ' _ htext' => hf a ρ' htext'

theorem starve {m : Descent β} : Mirrors g m Parser.starve := fun _ _ => trivial

theorem pure (a : α) : Mirrors g (Pure.pure (g a)) (Pure.pure a) :=
  fun ρ htext => ⟨ρ, rfl, htext, rfl⟩

theorem ite {c : Prop} [Decidable c] {m m' : Descent β} {p p' : Parser α}
    (hm : Mirrors g m p) (hm' : Mirrors g m' p') :
    Mirrors g (if c then m else m') (if c then p else p') := by
  split
  · exact hm
  · exact hm'

/-! ### Single tokens -/

/-- Looking ahead mirrors the same of the parser, on the scanner as on its reader. -/
theorem peek : Mirrors id Descent.peek Parser.peek := by
  intro ρ htext
  -- The scanner that moves an index follows the reader.
  obtain ⟨σ, hpeek, hkeeps⟩ := Scanner.peek_follows htext
  unfold MirrorsAt
  rcases ρ.scanner.lexer.peek_streamFrom ρ.last with ⟨t?, hanswer, hreply⟩ | ⟨f, hanswer, hreply⟩
  · rw [Reading.stream, hreply]
    refine ⟨{ ρ with scanner := σ }, ?_, hkeeps.inRange, ?_⟩
    · rw [Descent.peek, scan, hpeek, hanswer]
      rfl
    · rw [Reading.stream, hkeeps.lexer]
  · rw [Reading.stream, hreply]
    refine ⟨{ ρ with scanner := σ }, ?_⟩
    rw [Descent.peek, scan, hpeek, hanswer]
    rfl

/-- Taking a token mirrors the same, and both keep the position of the token. -/
theorem next : Mirrors id Descent.next Parser.next := by
  intro ρ htext
  obtain ⟨σ, hnext, hkeeps⟩ := Scanner.next_follows htext
  unfold MirrorsAt
  rcases ρ.scanner.lexer.next_streamFrom ρ.last with ⟨t?, hanswer, hreply⟩ | ⟨f, hanswer, hreply⟩
  · rw [Reading.stream, hreply]
    refine ⟨⟨σ, (t?.map Token.position).getD ρ.last⟩, ?_, hkeeps.inRange, ?_⟩
    · rw [Descent.next, bind_apply, scan, hnext, hanswer]
      rfl
    · rw [Reading.stream, hkeeps.lexer]
  · rw [Reading.stream, hreply]
    refine ⟨{ ρ with scanner := σ }, ?_⟩
    rw [Descent.next, bind_apply, scan, hnext, hanswer]
    rfl

/-- Both refuse with the problem at the token, or behind the last one taken. -/
theorem refuse (t? : Option Token) (problem : ParseProblem) :
    Mirrors g (Descent.refuse t? problem) (Parser.refuse t? problem) := by
  intro ρ htext
  cases t? <;> exact ⟨ρ, rfl⟩

theorem take (a : α) : Mirrors id (Descent.take a) (Parser.take a) :=
  .bind .next fun _ => .pure a

theorem isNext (l : Lexeme) : Mirrors id (Descent.isNext l) (Parser.isNext l) :=
  .bind .peek fun _ => .pure _

theorem mark (m : Bytes) : Mirrors id (Descent.mark m) (Parser.mark m) :=
  .bind .peek fun t? => .ite (.take ()) (.refuse t? _)

theorem optionalKeyword (w : Bytes) :
    Mirrors id (Descent.optionalKeyword w) (Parser.optionalKeyword w) :=
  .bind (.isNext _) fun _ => .ite (.take ()) (.pure ())

theorem map {m : Descent β} {p : Parser α} (hm : Mirrors g m p) (f : β → γ) :
    Mirrors (f ∘ g) (m >>= fun b => Pure.pure (f b)) p := by
  intro ρ htext
  have hmirror := hm ρ htext
  unfold MirrorsAt at hmirror ⊢
  cases hp : p ρ.stream with
  | ok a s =>
    rw [hp] at hmirror
    obtain ⟨ρ', hm, hρ'⟩ := hmirror
    exact ⟨ρ', by rw [bind_apply, hm]; rfl, hρ'⟩
  | fail fault s =>
    rw [hp] at hmirror
    obtain ⟨ρ', hm⟩ := hmirror
    exact ⟨ρ', by rw [bind_apply, hm]; rfl⟩
  | starved => trivial

/-- Asking whether there is a token is looking at it. -/
theorem hasNext : Mirrors Option.isSome (scan Scanner.hasNext) Parser.peek := by
  have hscan : scan Scanner.hasNext = (do let t? ← Descent.peek; return t?.isSome) := by
    funext ρ
    rw [bind_apply, scan, Scanner.hasNext, Scanner.bind_apply, Descent.peek, scan]
    rcases Scanner.peek ρ.scanner with _ | ⟨_ | t?, σ⟩ <;> rfl
  rw [hscan]
  exact peek.map Option.isSome

/-- The descent asks whether there is a token where the parser looks at it. -/
theorem separator : Mirrors id Descent.separator Parser.separator :=
  .bind .hasNext fun _ => .ite (.mark _) (.pure ())

/-- A name is read as a node, and the parser reads the name itself. -/
theorem identifier : Mirrors Node.ident Descent.identifier Parser.identifier := by
  refine .bind .next fun t? => ?_
  rcases t? with _ | ⟨lexeme, position⟩
  · exact .refuse none _
  cases lexeme with
  | identifier name => exact .pure (g := Node.ident) name
  | _ => exact .refuse (some ⟨_, position⟩) _

/-! ### Lists in parentheses -/

/-- The loop over a list mirrors that of the parser, if the items do. -/
theorem items {kind : Item} {g : α → Node} {p : Parser α}
    (hp : Mirrors g (Phrase.item kind).read p) (n : Nat) (first : Bool) :
    Mirrors (List.map g) (Phrase.items kind first).read (Parser.items p n first) := by
  -- On the fuel of the list, which is apart from that of its elements.
  induction n generalizing first with
  | zero => exact .starve
  | succ n ih =>
    have helement : Mirrors (List.map g) (Phrase.element kind).read
        (do let x ← p; let xs ← Parser.items p n false; return x :: xs) := by
      rw [Phrase.read]
      exact .bind hp fun x => .bind (ih false) fun xs => .pure (g := List.map g) (x :: xs)
    rw [Phrase.read, Parser.items]
    refine .bind (.isNext _) fun _ => .ite (.pure (g := List.map g) []) (.ite helement ?_)
    exact .bind (.mark _) fun _ => .bind (.isNext _) fun _ =>
      .ite (.pure (g := List.map g) []) helement

/-- So does the list with its parentheses. -/
theorem delimited {kind : Item} {g : α → Node} {p : Parser α}
    (hp : Mirrors g (Phrase.item kind).read p) (n : Nat) :
    Mirrors (List.map g) (Phrase.delimited kind).read (Parser.delimited p n) := by
  rw [Phrase.read]
  exact .bind (.mark _) fun _ => .bind (.items hp n true) fun xs => .bind (.mark _) fun _ =>
    .pure (g := List.map g) xs

end Mirrors

/-! ## The grammar -/

/-- A name that was read as a node is taken for itself. -/
theorem nameOf_ident (name : Name) : nameOf (.ident name) = pure name := rfl

/-- Nodes that were read as names are names. -/
theorem mapM_nameOf (names : List Name) : (names.map Node.ident).mapM nameOf = pure names := by
  induction names with
  | nil => rfl
  | cons name names ih => simp [nameOf_ident, ih]

/-- The closing words of the descent are those of the parser. -/
theorem isClosing_eq (branching : Bool) (l : Lexeme) :
    isClosing branching l = Parser.closes branching l := by
  cases l with
  | keyword word =>
    rw [Bool.eq_iff_iff]
    cases branching with
    | false => simp [isClosing, closingWords, Parser.closes]
    | true =>
      simp only [isClosing, closingWords, Parser.closes, if_true, List.contains_iff_mem,
        List.mem_cons, List.not_mem_nil, or_false, Bool.or_eq_true, Bool.true_and, beq_iff_eq]
      tauto
  | _ => rfl

/-- The descent does what the parsers do with this much fuel. -/
structure MirrorsAll (fuel : Nat) : Prop where
  expression : Mirrors id Phrase.expression.read (Parser.expression fuel)
  climb : ∀ left level, Mirrors id (Phrase.climb left level).read (Parser.climb fuel left level)
  atom : Mirrors id Phrase.atom.read (Parser.atom fuel)
  calls : ∀ callee, Mirrors id (Phrase.calls callee).read (Parser.calls fuel callee)
  operand : Mirrors id Phrase.operand.read (Parser.operand fuel)
  function : Mirrors id Phrase.function.read (Parser.function fuel)
  tail : Mirrors id Phrase.tail.read (Parser.tail fuel)
  body : ∀ branching, Mirrors id (Phrase.body branching).read (Parser.body fuel branching)
  statements : ∀ branching,
    Mirrors id (Phrase.statements branching).read (Parser.statements fuel branching)

namespace MirrorsAll

variable {fuel : Nat}

theorem expression_succ (ih : MirrorsAll fuel) :
    Mirrors id Phrase.expression.read (Parser.expression (fuel + 1)) := by
  rw [Phrase.read, Parser.expression]
  exact .bind ih.atom fun left => ih.climb left 0

theorem atom_succ (ih : MirrorsAll fuel) :
    Mirrors id Phrase.atom.read (Parser.atom (fuel + 1)) := by
  rw [Phrase.read, Parser.atom]
  exact .bind ih.operand fun callee => ih.calls callee

theorem climb_succ (ih : MirrorsAll fuel) (left : Node) (level : Nat) :
    Mirrors id (Phrase.climb left level).read (Parser.climb (fuel + 1) left level) := by
  rw [Phrase.read, Parser.climb]
  refine .bind .peek fun t? => ?_
  rcases t? with _ | ⟨lexeme, position⟩
  · exact .pure left
  cases lexeme with
  | operator symbol =>
    refine .ite (.refuse (some ⟨_, position⟩) _) (.ite (.pure left) ?_)
    exact .bind .next fun _ => .bind ih.atom fun x => .bind (ih.climb x _) fun y => ih.climb _ level
  | _ => exact .pure left

/-- One argument list, which has items of its own. -/
theorem calls_succ (ih : MirrorsAll fuel) (callee : Node) :
    Mirrors id (Phrase.calls callee).read (Parser.calls (fuel + 1) callee) := by
  rw [Phrase.read, Parser.calls]
  have hitem : Mirrors id (Phrase.item .argument).read (Parser.expression fuel) := by
    rw [Phrase.read]
    exact ih.expression
  refine .bind (.isNext _) fun b => .ite (.bind (.delimited hitem fuel) fun xs => ?_)
    (.pure callee)
  -- Arguments are nodes in both, so nothing is changed.
  rw [List.map_id]
  exact ih.calls _

/-- A function, whose names the descent reads as nodes and turns into names afterwards. -/
theorem function_succ (ih : MirrorsAll fuel) :
    Mirrors id Phrase.function.read (Parser.function (fuel + 1)) := by
  rw [Phrase.read, Parser.function]
  have hitem : Mirrors Node.ident (Phrase.item .parameter).read Parser.identifier := by
    rw [Phrase.read]
    exact .identifier
  refine .bind .identifier fun name => .bind .peek fun opening =>
    .bind (.delimited hitem fuel) fun parameters => ?_
  -- Every node that was read is a name, so none of these steps is undefined.
  rw [nameOf_ident, pure_bind, mapM_nameOf, pure_bind]
  cases Parser.repeated? [] parameters with
  | some parameter => exact .refuse opening _
  | none =>
    refine .bind (ih.body false) fun block => ?_
    -- Both return the body only if it is inline.
    obtain ⟨_ | ⟨x, _ | ⟨y, ys⟩⟩, _ | _⟩ := block <;> exact .pure _

theorem tail_succ (ih : MirrorsAll fuel) :
    Mirrors id Phrase.tail.read (Parser.tail (fuel + 1)) := by
  rw [Phrase.read, Parser.tail]
  refine .bind (.isNext _) fun b => .ite ?_ (.bind (.isNext _) fun b => .ite ?_ (.pure _))
  · exact .bind .next fun _ => .bind ih.expression fun c => .bind (ih.body true) fun b =>
      .bind ih.tail fun t => .pure _
  · exact .bind .next fun _ => .bind (ih.body false) fun b => .pure _

theorem body_succ (ih : MirrorsAll fuel) (branching : Bool) :
    Mirrors id (Phrase.body branching).read (Parser.body (fuel + 1) branching) := by
  rw [Phrase.read, Parser.body]
  refine .bind (.isNext _) fun b => .ite ?_ ?_
  · exact .bind .next fun _ => .bind (ih.statements branching) fun xs => .pure _
  · exact .bind ih.expression fun x => .bind (.optionalKeyword _) fun _ => .pure _

/-- The statements of a block, with the closing words as a list. -/
theorem statements_succ (ih : MirrorsAll fuel) (branching : Bool) :
    Mirrors id (Phrase.statements branching).read (Parser.statements (fuel + 1) branching) := by
  rw [Phrase.read, Parser.statements]
  refine .bind .peek fun t? => ?_
  cases t? with
  | none =>
    -- There is a closing word to name, whatever the block is.
    cases branching <;> exact .refuse none _
  | some t =>
    dsimp only [id]
    rw [isClosing_eq]
    refine .ite (.bind (.optionalKeyword _) fun _ => .pure _) ?_
    exact .bind ih.expression fun x => .bind .separator fun _ =>
      .bind (ih.statements branching) fun xs => .pure _

/-- An operand. The descent names the operator by the token it takes, and the parser by the one
it saw. -/
theorem operand_succ (ih : MirrorsAll fuel) :
    Mirrors id Phrase.operand.read (Parser.operand (fuel + 1)) := by
  rw [Phrase.read, Parser.operand]
  intro ρ htext
  refine (Mirrors.peek ρ htext).bind fun t? ρ₁ hpeek htext₁ => ?_
  -- What was seen is the first of the tokens, and none was taken.
  obtain ⟨hstream, hhead, -⟩ := Parser.peek_ok hpeek
  rcases t? with _ | ⟨lexeme, position⟩
  · exact Mirrors.refuse none _ ρ₁ htext₁
  cases lexeme with
  | identifier name => exact Mirrors.take _ ρ₁ htext₁
  | string contents => exact Mirrors.take _ ρ₁ htext₁
  | integer literal n => exact Mirrors.take _ ρ₁ htext₁
  | float literal d => exact Mirrors.take _ ρ₁ htext₁
  | operator symbol =>
    dsimp only [id]
    split
    · -- The token that is taken is the one that was seen.
      refine (Mirrors.next ρ₁ htext₁).bind fun t? ρ₂ hnext htext₂ => ?_
      have htoken : t? = some ⟨.operator symbol, position⟩ := by
        rw [(Parser.next_head hnext).1, hstream, ← hhead]
      rw [htoken]
      exact (ih.atom ρ₂ htext₂).bind fun x ρ₃ _ htext₃ => Mirrors.pure _ ρ₃ htext₃
    · exact Mirrors.refuse (some ⟨_, position⟩) _ ρ₁ htext₁
  | punctuation mark =>
    refine Mirrors.ite ?_ (.refuse (some ⟨_, position⟩) _) ρ₁ htext₁
    exact .bind .next fun _ => .bind ih.expression fun x => .bind (.mark _) fun _ => .pure _
  | keyword word =>
    refine Mirrors.ite (.take _) (.ite (.take _) (.ite ?_ (.ite ?_ (.ite ?_ (.ite ?_
      (.refuse (some ⟨_, position⟩) _)))))) ρ₁ htext₁
    · exact .bind .next fun _ => .bind ih.expression fun c => .bind (ih.body true) fun b =>
        .bind ih.tail fun t => .pure _
    · exact .bind .next fun _ => .bind ih.expression fun c => .bind (ih.body false) fun b =>
        .pure _
    · exact .bind .next fun _ => .bind ih.expression fun x => .pure _
    · exact .bind .next fun _ => ih.function

end MirrorsAll

/-- With any fuel the descent mirrors the parsers. -/
theorem mirrorsAll (fuel : Nat) : MirrorsAll fuel := by
  -- The parsers call each other with less fuel, the descent has only to be unfolded.
  induction fuel with
  | zero => constructor <;> intros <;> exact .starve
  | succ fuel ih =>
    exact ⟨ih.expression_succ, ih.climb_succ, ih.atom_succ, ih.calls_succ, ih.operand_succ,
      ih.function_succ, ih.tail_succ, ih.body_succ, ih.statements_succ⟩

/-- The lines of a program, each with what is left of the fuel. -/
theorem program_mirrors (fuel : Nat) : Mirrors id Phrase.program.read (Parser.program fuel) := by
  induction fuel with
  | zero => exact .starve
  | succ fuel ih =>
    rw [Phrase.read, Parser.program]
    exact .bind .hasNext fun _ => .ite (.bind (mirrorsAll fuel).expression fun x =>
      .bind .separator fun _ => .bind ih fun xs => .pure _) (.pure [])

end Descent

/-! ## Every text -/

/-- The calls behind an operand leave no more tokens than there were. -/
theorem Parser.length_calls {fuel : Nat} {s r : Stream} {callee x : Node}
    (h : calls fuel callee s = .ok x r) : r.tokens.length ≤ s.tokens.length :=
  ((sound fuel).calls h).length_add_least_le

namespace Lexer

/-- A fault behind the tokens of a reader is lexical. -/
theorem ending_lexing {l : Lexer} {f : Fault} (h : l.stream.ending = some f) :
    f.code? = some .lexing := by
  have hending : l.cursor.tokens.2 = some f := by
    obtain ⟨c, _ | t⟩ := l <;> exact h
  obtain ⟨problem, hlex⟩ := (Cursor.fault_position hending).1
  rw [hlex]
  rfl

/-- With a few levels of the grammar for each token the fuel lasts, and a fault is lexical
    or one of the grammar. -/
theorem program_reply (l : Lexer) {fuel : Nat} (hfuel : l.stream.fuel ≤ fuel) :
    (∃ xs r, Parser.program fuel l.stream = .ok xs r) ∨
      ∃ f r, Parser.program fuel l.stream = .fail f r ∧
        (f.code? = some .lexing ∨ f.code? = some .parsing) := by
  have hfair : (Parser.program fuel l.stream).Fair l.stream :=
    Parser.fair_program (by rw [Stream.fuel] at hfuel; omega)
  cases hreply : Parser.program fuel l.stream with
  | ok xs r => exact .inl ⟨xs, r, rfl⟩
  | fail f r =>
    rw [hreply] at hfair
    refine .inr ⟨f, r, rfl, ?_⟩
    -- A fair reply is a fault of the stream or one of the grammar.
    cases hfair with
    | ending h => exact .inl (ending_lexing h)
    | token => exact .inr rfl
    | final => exact .inr rfl
  | starved =>
    rw [hreply] at hfair
    exact hfair.elim

/-- Parsing from a reader gives what parsing its tokens gives. -/
theorem parse_fst (l : Lexer) : l.parse.1 = l.stream.parse.1 := by
  dsimp only [Lexer.parse]
  split <;> rfl

/-- The descent from a scanner gives what its reader parses to. -/
theorem program_of_scanner {σ : Scanner} (h : σ.offset ≤ σ.input.length) :
    ∃ ρ, Descent.Phrase.program.read ⟨σ, ⟨0, 0⟩⟩ =
      some (σ.lexer.parse.1.map Program.statements, ρ) := by
  have hmirrors := Descent.program_mirrors σ.lexer.stream.fuel ⟨σ, ⟨0, 0⟩⟩ h
  rw [parse_fst, Stream.parse]
  rw [Descent.MirrorsAt, show Reading.stream ⟨σ, ⟨0, 0⟩⟩ = σ.lexer.stream from rfl] at hmirrors
  rcases σ.lexer.program_reply le_rfl with ⟨xs, r, hreply⟩ | ⟨f, r, hreply, -⟩
  · rw [hreply] at hmirrors ⊢
    obtain ⟨ρ, hprogram, -⟩ := hmirrors
    exact ⟨ρ, hprogram⟩
  · rw [hreply] at hmirrors ⊢
    exact hmirrors

/-- A fault of parsing is lexical or one of the grammar. -/
theorem code?_of_parse {l : Lexer} {f : Fault} (h : l.parse.1 = .error f) :
    f.code? = some .lexing ∨ f.code? = some .parsing := by
  rw [parse_fst, Stream.parse] at h
  rcases l.program_reply le_rfl with ⟨xs, r, hreply⟩ | ⟨g, r, hreply, hcode⟩
  · rw [hreply] at h
    cases h
  · rw [hreply] at h
    cases h
    exact hcode

end Lexer

/-- Reading and parsing end, and use nothing that is not there, on every text and from
    every place of it that looking ahead and taking tokens leads to. The scanner that
    moves an index through the text is defined all along, and one more token takes a byte
    at least. The descent that pulls the tokens from it, with no bound on its recursion,
    is defined as well and gives a program or a fault of the text, the one that parsing
    gives; a recursion as deep as a few levels for each token is enough for that. Operands,
    expressions and bodies take a token at least, and no loop gives one back. -/
theorem parse_total (source : Bytes) (calls : List Lexer.Call) :
    (∃ σ, calls.foldlM Scanner.after? (.ofText source) = some σ ∧
      σ.lexer = calls.foldl Lexer.after (.ofText source) ∧
      (∃ answer σ', σ.readNext = some (answer, σ') ∧ σ'.input = σ.input ∧
        σ'.offset ≤ σ'.input.length ∧ ∀ t, answer = .ok (some t) → σ.offset < σ'.offset) ∧
      (∃ ρ, Descent.Phrase.program.read ⟨σ, ⟨0, 0⟩⟩ =
        some (σ.lexer.parse.1.map Program.statements, ρ)) ∧
      (∀ f, σ.lexer.parse.1 = .error f → f.code? = some .lexing ∨ f.code? = some .parsing) ∧
      ∀ fuel, 16 * (σ.lexer.tokens.1.length + 1) ≤ fuel →
        Parser.program fuel σ.lexer.stream ≠ .starved) ∧
    ∀ fuel s r,
      (∀ x, Parser.atom fuel s = .ok x r → r.tokens.length < s.tokens.length) ∧
      (∀ x, Parser.expression fuel s = .ok x r → r.tokens.length < s.tokens.length) ∧
      (∀ branching b, Parser.body fuel branching s = .ok b r →
        r.tokens.length < s.tokens.length) ∧
      (∀ left level x, Parser.climb fuel left level s = .ok x r →
        r.tokens.length ≤ s.tokens.length) ∧
      ∀ callee x, Parser.calls fuel callee s = .ok x r →
        r.tokens.length ≤ s.tokens.length := by
  refine ⟨?_, fun fuel s r => ⟨fun x => Parser.length_atom, fun x => Parser.length_expression,
    fun branching b => Parser.length_body, fun left level x => Parser.length_climb,
    fun callee x => Parser.length_calls⟩⟩
  have hstart : (Scanner.ofText source).offset ≤ (Scanner.ofText source).input.length :=
    Nat.zero_le _
  -- Any calls leave the scanner in the text, with the reader that they lead to.
  obtain ⟨σ, hcalls, hkeeps⟩ := Scanner.foldlM_after? hstart calls
  refine ⟨σ, hcalls, hkeeps.lexer, Scanner.readNext_defined hkeeps.inRange,
    Lexer.program_of_scanner hkeeps.inRange, fun f hf => Lexer.code?_of_parse hf,
    fun fuel hfuel hstarved => ?_⟩
  rcases σ.lexer.program_reply hfuel with ⟨xs, r, hreply⟩ | ⟨f, r, hreply, -⟩ <;>
  · rw [hstarved] at hreply
    cases hreply

end Scriptlet

/-
  Scriptlet.Proofs.Grammar.Lines

  Programs whose text is cut at a line end.

  A parser looks at lexemes and never at positions, so on moved tokens it does what it
  does on the tokens themselves, with more fuel or the same (`Parser.agrees`, kept by
  sequencing and proved parser by parser). The statements of whole lines are read one
  by one, and then the rest is parsed from where it starts (`Parser.program_front`).
  Both together, with what `Lexing.Lines` says of the tokens, make splitting and
  parsing compositional.
-/
import Scriptlet.Proofs.Lexing.Lines
import Scriptlet.Proofs.Grammar.Faults

namespace Scriptlet

/-! ## Moved streams -/

/-- The stream with its positions changed. -/
def Stream.moved (f : Position → Position) (s : Stream) : Stream :=
  ⟨s.tokens.map (Token.moved f), s.ending.map (Fault.moved f), f s.last⟩

/-- The reply with its positions changed, and its result by `g`. -/
def Reply.moved {α β : Type} (f : Position → Position) (g : α → β) : Reply α → Reply β
  | .ok a r => .ok (g a) (r.moved f)
  | .fail fault r => .fail (fault.moved f) (r.moved f)
  | .starved => .starved

namespace Parser

/-- On the moved stream `q` does what `p` does on the stream, if the fuel of `p` is
    enough. -/
def Imitates {α β : Type} (f : Position → Position) (g : α → β) (q : Parser β)
    (p : Parser α) : Prop :=
  ∀ s, p s = .starved ∨ q (s.moved f) = (p s).moved f g

variable {α β γ δ : Type} {f : Position → Position} {g : α → β} {h : γ → δ}

namespace Imitates

theorem starve {q : Parser β} : Imitates f g q Parser.starve := fun _ => .inl rfl

theorem pure (a : α) : Imitates f g (Pure.pure (g a)) (Pure.pure a) := fun _ => .inr rfl

/-- Parsers in sequence imitate parsers in sequence, fault for fault. -/
theorem bind {p : Parser α} {q : Parser β} {k : α → Parser γ} {k' : β → Parser δ}
    (hp : Imitates f g q p) (hk : ∀ a, Imitates f h (k' (g a)) (k a)) :
    Imitates f h (q >>= k') (p >>= k) := by
  intro s
  simp only [Bind.bind]
  rcases hp s with hstarved | hreply
  · -- If the first runs out of fuel, so does the sequence.
    exact .inl (by rw [hstarved])
  · rw [hreply]
    cases p s with
    | ok a r => exact hk a r
    | fail fault r => exact .inr rfl
    | starved => exact .inl rfl

/-- A choice that does not depend on positions is the same choice. -/
theorem ite {c : Prop} [Decidable c] {p p' : Parser α} {q q' : Parser β}
    (hp : Imitates f g q p) (hp' : Imitates f g q' p') :
    Imitates f g (if c then q else q') (if c then p else p') := by
  split
  · exact hp
  · exact hp'

/-! ### Single tokens -/

theorem peek : Imitates f (Option.map (Token.moved f)) Parser.peek Parser.peek := by
  rintro ⟨_ | ⟨t, ts⟩, _ | fault, last⟩ <;> exact .inr rfl

theorem next : Imitates f (Option.map (Token.moved f)) Parser.next Parser.next := by
  rintro ⟨_ | ⟨t, ts⟩, _ | fault, last⟩ <;> exact .inr rfl

/-- A refusal moves with its token, or with the last one taken. -/
theorem refuse (t? : Option Token) (problem : ParseProblem) :
    Imitates f g (Parser.refuse (t?.map (Token.moved f)) problem) (Parser.refuse t? problem) := by
  intro s
  cases t? <;> exact .inr rfl

theorem take (a : α) : Imitates f id (Parser.take a) (Parser.take a) :=
  .bind .next fun _ => .pure a

/-- Asking for a lexeme does not ask where it stands. -/
theorem isNext (l : Lexeme) : Imitates f id (Parser.isNext l) (Parser.isNext l) := by
  refine .bind .peek fun t? => ?_
  cases t? <;> exact .pure _

theorem mark (m : Bytes) : Imitates f id (Parser.mark m) (Parser.mark m) := by
  refine .bind .peek fun t? => ?_
  cases t? with
  | none => exact .refuse none _
  | some t => exact .ite (.take ()) (.refuse (some t) _)

theorem optionalKeyword (w : Bytes) :
    Imitates f id (Parser.optionalKeyword w) (Parser.optionalKeyword w) :=
  .bind (.isNext _) fun _ => .ite (.take ()) (.pure ())

theorem separator : Imitates f id Parser.separator Parser.separator := by
  refine .bind .peek fun t? => ?_
  cases t? with
  | none => exact .pure ()
  | some t => exact .mark _

/-- A name is taken, or refused at the token that stands in its place. -/
theorem identifier : Imitates f id Parser.identifier Parser.identifier := by
  refine .bind .next fun t? => ?_
  rcases t? with _ | ⟨lexeme, position⟩
  · exact .refuse none _
  cases lexeme with
  | identifier name => exact .pure name
  | _ => exact .refuse (some ⟨_, position⟩) _

/-! ### Lists in parentheses -/

/-- With more fuel for the list, the items are the same, if each of them is. -/
theorem items {p q : Parser α} (hp : Imitates f id q p) {n m : Nat} (hle : n ≤ m) (first : Bool) :
    Imitates f id (Parser.items q m first) (Parser.items p n first) := by
  induction n generalizing m first with
  | zero => exact .starve
  | succ n ih =>
    -- There is fuel on the left, so there is at least as much on the right.
    obtain ⟨m, rfl⟩ : ∃ k, m = k + 1 := ⟨m - 1, by omega⟩
    have helement : Imitates f id (do let x ← q; let xs ← Parser.items q m false; return x :: xs)
        (do let x ← p; let xs ← Parser.items p n false; return x :: xs) :=
      .bind hp fun x => .bind (ih (by omega) false) fun xs => .pure (x :: xs)
    rw [Parser.items, Parser.items]
    refine .bind (.isNext _) fun b => .ite (.pure []) (.ite helement ?_)
    exact .bind (.mark _) fun _ => .bind (.isNext _) fun b => .ite (.pure []) helement

/-- So is the list with its parentheses. -/
theorem delimited {p q : Parser α} (hp : Imitates f id q p) {n m : Nat} (hle : n ≤ m) :
    Imitates f id (Parser.delimited q m) (Parser.delimited p n) :=
  .bind (.mark _) fun _ => .bind (.items hp hle true) fun xs => .bind (.mark _) fun _ => .pure xs

end Imitates

/-! ## The grammar -/

/-- With the fuel `m` the parsers do on moved tokens what they do with the fuel `n`. -/
structure Agrees (f : Position → Position) (n m : Nat) : Prop where
  expression : Imitates f id (expression m) (expression n)
  climb : ∀ left level, Imitates f id (climb m left level) (climb n left level)
  atom : Imitates f id (atom m) (atom n)
  calls : ∀ callee, Imitates f id (calls m callee) (calls n callee)
  operand : Imitates f id (operand m) (operand n)
  function : Imitates f id (function m) (function n)
  tail : Imitates f id (tail m) (tail n)
  body : ∀ branching, Imitates f id (body m branching) (body n branching)
  statements : ∀ branching, Imitates f id (statements m branching) (statements n branching)

namespace Agrees

variable {n m : Nat}

theorem expression_succ (ih : Agrees f n m) :
    Imitates f id (Parser.expression (m + 1)) (Parser.expression (n + 1)) := by
  rw [Parser.expression, Parser.expression]
  exact .bind ih.atom fun left => ih.climb left 0

theorem atom_succ (ih : Agrees f n m) :
    Imitates f id (Parser.atom (m + 1)) (Parser.atom (n + 1)) := by
  rw [Parser.atom, Parser.atom]
  exact .bind ih.operand fun callee => ih.calls callee

/-- One turn of the climb: the precedence of an operator does not depend on its place. -/
theorem climb_succ (ih : Agrees f n m) (left : Node) (level : Nat) :
    Imitates f id (Parser.climb (m + 1) left level) (Parser.climb (n + 1) left level) := by
  rw [Parser.climb, Parser.climb]
  refine .bind .peek fun t? => ?_
  rcases t? with _ | ⟨lexeme, position⟩
  · exact .pure left
  cases lexeme with
  | operator symbol =>
    refine .ite (.refuse (some ⟨_, position⟩) _) (.ite (.pure left) ?_)
    exact .bind .next fun _ => .bind ih.atom fun x => .bind (ih.climb x _) fun y => ih.climb _ level
  | _ => exact .pure left

/-- One argument list, with at least as much fuel for its items. -/
theorem calls_succ (ih : Agrees f n m) (hle : n ≤ m) (callee : Node) :
    Imitates f id (Parser.calls (m + 1) callee) (Parser.calls (n + 1) callee) := by
  rw [Parser.calls, Parser.calls]
  refine .bind (.isNext _) fun b => .ite ?_ (.pure callee)
  exact .bind (.delimited ih.expression hle) fun xs => ih.calls _

/-- A function; a repeated parameter is refused at the opening parenthesis, which moves along.
-/
theorem function_succ (ih : Agrees f n m) (hle : n ≤ m) :
    Imitates f id (Parser.function (m + 1)) (Parser.function (n + 1)) := by
  rw [Parser.function, Parser.function]
  refine .bind .identifier fun name => .bind .peek fun opening =>
    .bind (.delimited .identifier hle) fun parameters => ?_
  simp only [id]
  cases repeated? [] parameters with
  | some parameter => exact .refuse opening _
  | none =>
    refine .bind (ih.body false) fun block => ?_
    obtain ⟨_ | ⟨x, _ | ⟨y, ys⟩⟩, _ | _⟩ := block <;> exact .pure _

theorem tail_succ (ih : Agrees f n m) :
    Imitates f id (Parser.tail (m + 1)) (Parser.tail (n + 1)) := by
  rw [Parser.tail, Parser.tail]
  refine .bind (.isNext _) fun b => .ite ?_ (.bind (.isNext _) fun b => .ite ?_ (.pure _))
  · exact .bind .next fun _ => .bind ih.expression fun c => .bind (ih.body true) fun b =>
      .bind ih.tail fun t => .pure _
  · exact .bind .next fun _ => .bind (ih.body false) fun b => .pure _

theorem body_succ (ih : Agrees f n m) (branching : Bool) :
    Imitates f id (Parser.body (m + 1) branching) (Parser.body (n + 1) branching) := by
  rw [Parser.body, Parser.body]
  refine .bind (.isNext _) fun b => .ite ?_ ?_
  · exact .bind .next fun _ => .bind (ih.statements branching) fun xs => .pure _
  · exact .bind ih.expression fun x => .bind (.optionalKeyword _) fun _ => .pure _

theorem statements_succ (ih : Agrees f n m) (branching : Bool) :
    Imitates f id (Parser.statements (m + 1) branching) (Parser.statements (n + 1) branching) := by
  rw [Parser.statements, Parser.statements]
  refine .bind .peek fun t? => ?_
  cases t? with
  | none => exact .refuse none _
  | some t =>
    refine .ite (.bind (.optionalKeyword _) fun _ => .pure _) ?_
    exact .bind ih.expression fun x => .bind .separator fun _ =>
      .bind (ih.statements branching) fun xs => .pure _

theorem operand_succ (ih : Agrees f n m) :
    Imitates f id (Parser.operand (m + 1)) (Parser.operand (n + 1)) := by
  rw [Parser.operand, Parser.operand]
  refine .bind .peek fun t? => ?_
  rcases t? with _ | ⟨lexeme, position⟩
  · exact .refuse none _
  cases lexeme with
  | identifier name => exact .take _
  | string contents => exact .take _
  | integer literal n => exact .take _
  | float literal d => exact .take _
  | operator symbol =>
    refine .ite ?_ (.refuse (some ⟨_, position⟩) _)
    exact .bind .next fun _ => .bind ih.atom fun x => .pure _
  | punctuation mark =>
    refine .ite ?_ (.refuse (some ⟨_, position⟩) _)
    exact .bind .next fun _ => .bind ih.expression fun x => .bind (.mark _) fun _ => .pure _
  | keyword word =>
    refine .ite (.take _) (.ite (.take _) (.ite ?_ (.ite ?_ (.ite ?_ (.ite ?_
      (.refuse (some ⟨_, position⟩) _))))))
    · exact .bind .next fun _ => .bind ih.expression fun c => .bind (ih.body true) fun b =>
        .bind ih.tail fun t => .pure _
    · exact .bind .next fun _ => .bind ih.expression fun c => .bind (ih.body false) fun b =>
        .pure _
    · exact .bind .next fun _ => .bind ih.expression fun x => .pure _
    · exact .bind .next fun _ => ih.function

end Agrees

/-- The parsers do not look at positions, and more fuel changes nothing. -/
theorem agrees (f : Position → Position) {n m : Nat} (hle : n ≤ m) : Agrees f n m := by
  induction n generalizing m with
  | zero => constructor <;> intros <;> exact .starve
  | succ n ih =>
    obtain ⟨m, rfl⟩ : ∃ k, m = k + 1 := ⟨m - 1, by omega⟩
    have hle : n ≤ m := by omega
    have ih := ih hle
    exact ⟨ih.expression_succ, ih.climb_succ, ih.atom_succ, ih.calls_succ hle, ih.operand_succ,
      ih.function_succ hle, ih.tail_succ, ih.body_succ, ih.statements_succ⟩

/-- The lines of a program, each parsed by parsers that do not look at positions. -/
theorem imitates_program (f : Position → Position) {n m : Nat} (hle : n ≤ m) :
    Imitates f id (program m) (program n) := by
  induction n generalizing m with
  | zero => exact .starve
  | succ n ih =>
    obtain ⟨m, rfl⟩ : ∃ k, m = k + 1 := ⟨m - 1, by omega⟩
    have hle : n ≤ m := by omega
    rw [program, program]
    refine .bind .peek fun t? => ?_
    cases t? with
    | none => exact .pure []
    | some t =>
      exact .bind (agrees f hle).expression fun x => .bind .separator fun _ =>
        .bind (ih hle) fun xs => .pure _

/-! ## Statement by statement -/

/-- Tokens that are left of two lists and show the lexemes of the second one at their end
    are left of the first list, with the second one behind them. -/
theorem exists_left {ts us left : List Token} {ls : List Lexeme} (hsuffix : left <:+ ts ++ us)
    (hlexemes : left.map Token.lexeme = ls ++ us.map Token.lexeme) :
    ∃ ts', left = ts' ++ us ∧ ts'.map Token.lexeme = ls := by
  have hlength := congrArg List.length hlexemes
  simp only [List.length_map, List.length_append] at hlength
  obtain ⟨w, hw⟩ := hsuffix
  -- Both are the end of `ts ++ us`, and what is left is no shorter than `us`.
  have hus : us <:+ left := List.suffix_of_suffix_length_le (List.suffix_append ts us)
    ⟨w, hw⟩ (by omega)
  obtain ⟨ts', rfl⟩ := hus
  rw [List.map_append] at hlexemes
  -- Without the second list on both sides the lexemes are those of the rest.
  exact ⟨ts', rfl, List.append_cancel_right hlexemes⟩

/-- A statement in front is taken with its separator, and the program goes on behind
    them. -/
theorem statement_front {ts : List Token} {x : Node} {ls : List Lexeme} {n : Nat}
    (hx : Derives .expression (ts.map Token.lexeme) x (.separator :: ls)) (us : List Token)
    (e : Option Fault) (last : Position) (hfuel : 16 * (ts ++ us).length + 3 ≤ n) :
    ∃ ts' last', ts'.map Token.lexeme = ls ∧ program (n + 1) ⟨ts ++ us, e, last⟩ =
      (do let xs ← program n; return x :: xs : Parser (List Node)) ⟨ts' ++ us, e, last'⟩ := by
  -- A derivation that stops at a separator does not see what is added at the end.
  have hlonger : Derives .expression (ts.map Token.lexeme ++ us.map Token.lexeme) x _ :=
    hx.append (List.cons_ne_nil _ _)
  rw [← List.map_append] at hlonger
  obtain ⟨rest, hok, hlexemes, hending⟩ := hlonger.accepted.takes
    (by simpa [Goal.cost] using hfuel) (Nat.le_refl n) ⟨ts ++ us, e, last⟩ rfl (by simp)
  have hexpression : expression n ⟨ts ++ us, e, last⟩ = .ok x rest := hok
  -- Soundness of the reply says which tokens are left, not only which lexemes.
  have hleads : (⟨ts ++ us, e, last⟩ : Stream).Leads rest := by
    have hfair := (fairAt n).expression (s := ⟨ts ++ us, e, last⟩) hfuel
    rwa [hexpression] at hfair
  -- What is left starts with the separator.
  obtain ⟨left, hleft, hmap⟩ := exists_left hleads.tokens hlexemes
  obtain ⟨⟨l, p⟩, ts', rfl, rfl, hls⟩ := List.map_eq_cons_iff.mp hmap
  obtain ⟨tokens, ending, before⟩ := rest
  obtain rfl : tokens = _ := hleft
  obtain rfl : ending = e := hending
  have hseparator : separator ⟨⟨.separator, p⟩ :: ts' ++ us, ending, before⟩ =
      .ok () ⟨ts' ++ us, ending, p⟩ := rfl
  obtain ⟨t, v, hs⟩ := List.exists_cons_of_ne_nil (hleads.tokens.ne_nil (List.cons_ne_nil _ _))
  have hpeek : peek ⟨ts ++ us, ending, last⟩ = .ok (some t) ⟨ts ++ us, ending, last⟩ := by
    rw [peek, show (⟨ts ++ us, ending, last⟩ : Stream).tokens = t :: v from hs]
  refine ⟨ts', p, hls, ?_⟩
  rw [program, bind_of_ok hpeek, if_pos (by rfl), bind_of_ok hexpression]
  exact bind_of_ok hseparator

/-- Making something of a result that was made of another one. -/
theorem map_of_eq {p : Parser α} {q : Parser β} {g : β → α} {h : α → γ} {s s' : Stream}
    (hp : p s = (do let b ← q; return g b : Parser α) s') :
    (do let a ← p; return h a : Parser γ) s = (do let b ← q; return h (g b) : Parser γ) s' := by
  simp only [Bind.bind] at hp ⊢
  rw [hp]
  cases q s' <;> rfl

/-- The statements of whole lines are taken, and then the rest is parsed from where it
    starts, with the fuel that it needs. -/
theorem program_front {ts : List Token} {xs : List Node}
    (h : Derives .program (ts.map Token.lexeme) xs [])
    (hs : (ts.map Token.lexeme).getLast? = some .separator ∨ ts = []) (us : List Token)
    (e : Option Fault) (last : Position) {n k : Nat} (hk : 4 ≤ k)
    (hfuel : 16 * (ts ++ us).length + k ≤ n) :
    ∃ m last', 16 * us.length + k ≤ m ∧
      program n ⟨ts ++ us, e, last⟩ =
        (do let ys ← program m; return xs ++ ys : Parser (List Node)) ⟨us, e, last'⟩ := by
  induction hn : ts.length using Nat.strong_induction_on generalizing ts xs n last with
  | _ length ih =>
    generalize hls : ts.map Token.lexeme = ls at h hs
    cases h with
    | finished =>
      obtain rfl := List.map_eq_nil_iff.mp hls
      refine ⟨n, last, by simpa using hfuel, ?_⟩
      simp only [Bind.bind, List.nil_append]
      cases program n ⟨us, e, last⟩ <;> rfl
    | lastStatement hx =>
      -- A last statement would have taken the separator behind it.
      rcases hs with hs | rfl
      · exact absurd hs (hx.unseparated nofun rfl)
      · rw [← hls] at hx
        exact absurd hx not_derives_expression_nil
    | @line m _ x ls' xs _ hm hx hxs =>
      subst hm hls
      have hlength := hx.length_add_least_le
      simp only [List.length_cons, List.length_map] at hlength
      obtain ⟨n, rfl⟩ : ∃ j, n = j + 1 := ⟨n - 1, by omega⟩
      obtain ⟨ts', last', rfl, hstatement⟩ := statement_front (n := n) hx us e last (by omega)
      simp only [List.length_append, List.length_map] at hfuel hlength
      -- The tokens behind the line end with a separator again, or there are none.
      have hlast : (ts'.map Token.lexeme).getLast? = some .separator ∨ ts' = [] := by
        by_cases hnil : ts' = []
        · exact .inr hnil
        · obtain ⟨w, hw⟩ := (List.suffix_cons _ _).trans hx.suffix
          have hne : ts'.map Token.lexeme ≠ [] := by simpa using hnil
          rw [← hw, List.getLast?_append_of_ne_nil _ hne] at hs
          refine .inl (hs.resolve_right ?_)
          rintro rfl
          exact hne (List.append_eq_nil_iff.mp hw).2
      -- Fewer tokens are left, and fuel enough for them.
      obtain ⟨m, last'', hm, hprogram⟩ := ih ts'.length (by omega) hxs hlast last'
        (n := n) (by simp only [List.length_append]; omega) rfl
      refine ⟨m, last'', hm, ?_⟩
      rw [hstatement]
      exact map_of_eq hprogram

end Parser

/-! ## Whole texts -/

/-- The place `n` lines further down; what has no line is at the end of these lines. -/
def Position.under (n : Nat) (last : Position) (p : Position) : Position :=
  if p.line = 0 then last else p.down n

/-- What stands on a line only moves down. -/
theorem Position.under_of_line {p : Position} (hp : 1 ≤ p.line) (n : Nat) (last : Position) :
    under n last p = p.down n :=
  if_neg (by omega)

/-- So does a fault that stands on a line. -/
theorem Fault.moved_under {f : Fault} (hf : 1 ≤ f.position.line) (n : Nat) (last : Position) :
    f.moved (Position.under n last) = f.moved (Position.down n) := by
  cases f with
  | lex problem p => exact congrArg (Fault.lex problem) (Position.under_of_line hf n last)
  | parse problem p atEnd =>
    exact congrArg (Fault.parse problem · atEnd) (Position.under_of_line hf n last)
  | _ => rfl

/-- What stops the reading of a text stands on a line of it. -/
theorem line_of_ending {source : Bytes} {f : Fault}
    (h : (Lexer.ofText source).stream.ending = some f) : 1 ≤ f.position.line := by
  have hle := (Cursor.fault_position (c := .ofText source) h).2.1
  rw [Position.le_iff] at hle
  simp only [Cursor.position, Cursor.ofText] at hle
  omega

/-- So does what stops the parsing. -/
theorem line_of_parse {source : Bytes} {f : Fault} (h : parse source = .error f) :
    1 ≤ f.position.line := by
  obtain ⟨hblames, hnone⟩ := blames_of_parse h
  cases hblames with
  | ending hend => exact line_of_ending hend
  | token ht => exact (place_of_token ht).1
  | final hend =>
    -- A fault at the end is at the last token, and there is one.
    have hsome : (Lexer.ofText source).stream.tokens ≠ [] := by
      intro hnil
      rw [hnone hnil] at hend
      cases hend
    obtain ⟨t, hlast, hplace⟩ := Stream.final_of_ne_nil hsome
    show 1 ≤ (Lexer.ofText source).stream.final.line
    rw [← hplace]
    exact (place_of_token (List.mem_of_getLast? hlast)).1

/-- The stream of a text some lines further down, behind the position `last`. -/
theorem Stream.moved_under (source : Bytes) (n : Nat) (last : Position) :
    (Lexer.ofText source).stream.moved (Position.under n last) =
      ⟨(Lexer.ofText source).stream.tokens.map (Token.moved (Position.down n)),
        (Lexer.ofText source).stream.ending.map (Fault.moved (Position.down n)), last⟩ := by
  have htokens : (Lexer.ofText source).stream.tokens.map (Token.moved (Position.under n last)) =
      (Lexer.ofText source).stream.tokens.map (Token.moved (Position.down n)) := by
    refine List.map_congr_left fun t ht => ?_
    rw [Token.moved, Position.under_of_line (place_of_token ht).1]
    rfl
  have hending : (Lexer.ofText source).stream.ending.map (Fault.moved (Position.under n last)) =
      (Lexer.ofText source).stream.ending.map (Fault.moved (Position.down n)) :=
    Option.map_congr fun f hf => Fault.moved_under (line_of_ending hf) n last
  rw [Stream.moved, htokens, hending]
  rfl

/-- The reply to the whole stream of a text decides what its parsing gives. -/
theorem parse_reply (source : Bytes) :
    (∃ xs r, Parser.program (Lexer.ofText source).stream.fuel (Lexer.ofText source).stream =
      .ok xs r ∧ parse source = .ok ⟨xs⟩) ∨
    ∃ f r, Parser.program (Lexer.ofText source).stream.fuel (Lexer.ofText source).stream =
      .fail f r ∧ parse source = .error f := by
  have hfair : (Parser.program (Lexer.ofText source).stream.fuel
      (Lexer.ofText source).stream).Fair (Lexer.ofText source).stream :=
    Parser.fair_program (by rw [Stream.fuel]; omega)
  unfold parse Stream.parse
  cases hreply : Parser.program (Lexer.ofText source).stream.fuel (Lexer.ofText source).stream with
  | ok xs r => exact .inl ⟨xs, r, rfl, rfl⟩
  | fail f r => exact .inr ⟨f, r, rfl, rfl⟩
  | starved =>
    rw [hreply] at hfair
    exact hfair.elim

/-- Whole lines end with a separator, if they have tokens. -/
theorem separated_of_line {a : Bytes} {ts : List Token} (hline : a.getLast? = some 10)
    (ha : tokenize a = .ok ts) :
    (ts.map Token.lexeme).getLast? = some .separator ∨ ts = [] := by
  obtain ⟨_, hlexes⟩ := exists_tokenize_iff.mp ⟨ts, ha, rfl⟩
  rw [completed_of_line hline] at hlexes
  have hclosed := (hlexes.append_line (t := []) (.inl hline)).getLast?_of_fresh rfl
  exact hclosed.imp_right fun h => List.map_eq_nil_iff.mp h.1

/-- A text behind whole lines that parse has their statements in front of its own, and its
    faults as many lines further down. -/
theorem parse_append_line {a : Bytes} {p : Program} (hline : a.getLast? = some 10)
    (ha : parse a = .ok p) (b : Bytes) :
    (∀ q, parse b = .ok q → parse (a ++ b) = .ok ⟨p.statements ++ q.statements⟩) ∧
    ∀ f, parse b = .error f →
      parse (a ++ b) = .error (f.moved (Position.down (a.count 10))) := by
  obtain ⟨ts, hts, hp⟩ := parse_derives ha
  -- The stream of the whole: the tokens of `a`, and those of `b` further down.
  have hstream : (Lexer.ofText (a ++ b)).stream =
      ⟨ts ++ (Lexer.ofText b).stream.tokens.map (Token.moved (Position.down (a.count 10))),
        (Lexer.ofText b).stream.ending.map (Fault.moved (Position.down (a.count 10))), ⟨0, 0⟩⟩ := by
    have htokens := tokens_append_line (b := b) hline hts
    simp only [Lexer.stream, Lexer.tokens, Lexer.ofText, htokens]
  obtain ⟨m, last, hm, hprogram⟩ := Parser.program_front hp (separated_of_line hline hts)
    ((Lexer.ofText b).stream.tokens.map (Token.moved (Position.down (a.count 10))))
    ((Lexer.ofText b).stream.ending.map (Fault.moved (Position.down (a.count 10)))) ⟨0, 0⟩
    (n := (Lexer.ofText (a ++ b)).stream.fuel) (k := 16) (by omega)
    (by rw [hstream, Stream.fuel]; simp; omega)
  rw [← hstream, ← Stream.moved_under] at hprogram
  rw [List.length_map] at hm
  -- Behind the lines of `a`, the parser does on the moved tokens what it does on those of `b`.
  have himitates := Parser.imitates_program (Position.under (a.count 10) last)
    (n := (Lexer.ofText b).stream.fuel) (m := m) (by rw [Stream.fuel]; omega)
    (Lexer.ofText b).stream
  rcases parse_reply b with ⟨ys, r, hreply, hb⟩ | ⟨f, r, hreply, hb⟩
  · rw [hreply] at himitates
    have hok := himitates.resolve_left (by simp)
    refine ⟨fun q hq => ?_, fun f hf => ?_⟩
    · cases hb.symm.trans hq
      rw [parse, Stream.parse, hprogram, Parser.bind_of_ok hok]
      rfl
    · cases hb.symm.trans hf
  · rw [hreply] at himitates
    have hfail := himitates.resolve_left (by simp)
    have hline := line_of_parse hb
    refine ⟨fun q hq => ?_, fun f hf => ?_⟩
    · cases hb.symm.trans hq
    · cases hb.symm.trans hf
      rw [parse, Stream.parse, hprogram]
      simp only [Bind.bind, hfail, Reply.moved, Fault.moved_under hline]

/-- A fault that is moved keeps its code and its wording. -/
theorem wording_moved {source : Bytes} {f : Fault}
    (h : tokenize source = .error f ∨ parse source = .error f) (g : Position → Position) :
    ∃ code body, f.code? = some code ∧ f.message = Fault.headline code body f.position ∧
      (f.moved g).code? = some code ∧
      (f.moved g).message = Fault.headline code body (g f.position) := by
  -- A lexical fault has one code and words its problem.
  have hlex : ∀ {e}, (Cursor.ofText source).tokens.2 = some e →
      ∃ problem p, e = .lex problem p := by
    intro e he
    obtain ⟨problem, hproblem⟩ := (Cursor.fault_position he).1
    exact ⟨problem, _, hproblem⟩
  rcases h with h | h
  · obtain ⟨problem, p, rfl⟩ := hlex (tokenize_eq_error_iff.mp h)
    exact ⟨.lexing, problem.message, rfl, rfl, rfl, rfl⟩
  · cases (blames_of_parse h).1 with
    | ending hend =>
      obtain ⟨problem, p, rfl⟩ := hlex hend
      exact ⟨.lexing, problem.message, rfl, rfl, rfl, rfl⟩
    | token => exact ⟨.parsing, _, rfl, rfl, rfl, rfl⟩
    | final => exact ⟨.parsing, _, rfl, rfl, rfl, rfl⟩

/-- Splitting and parsing are compositional at line ends. Behind whole lines that can be
    split, a text has its tokens, or its fault, as many lines further down; behind lines
    that parse, it has its statements behind theirs, or its fault. A fault there has the
    code and the wording that it has alone. -/
theorem lines_compose {a : Bytes} (hline : a.getLast? = some 10) (b : Bytes) :
    (∀ ts, tokenize a = .ok ts →
      (∀ us, tokenize b = .ok us →
        tokenize (a ++ b) = .ok (ts ++ us.map (Token.moved (Position.down (a.count 10))))) ∧
      ∀ f, tokenize b = .error f →
        tokenize (a ++ b) = .error (f.moved (Position.down (a.count 10)))) ∧
    (∀ p, parse a = .ok p →
      (∀ q, parse b = .ok q → parse (a ++ b) = .ok ⟨p.statements ++ q.statements⟩) ∧
      ∀ f, parse b = .error f →
        parse (a ++ b) = .error (f.moved (Position.down (a.count 10)))) ∧
    ∀ f, tokenize b = .error f ∨ parse b = .error f →
      ∃ code body, f.code? = some code ∧ f.message = Fault.headline code body f.position ∧
        (f.moved (Position.down (a.count 10))).code? = some code ∧
        (f.moved (Position.down (a.count 10))).message =
          Fault.headline code body ⟨f.position.line + a.count 10, f.position.column⟩ := by
  refine ⟨fun ts hts => ?_, fun p hp => parse_append_line hline hp b,
    fun f hf => wording_moved hf _⟩
  have htokens := tokens_append_line (b := b) hline hts
  constructor
  · intro us hus
    rw [tokenize_eq_ok_iff] at hus ⊢
    rw [htokens, hus]
    rfl
  · intro f hf
    rw [tokenize_eq_error_iff] at hf ⊢
    rw [htokens, hf]
    rfl

theorem lines_compose_operator :
    (text "f\n").getLast? = some 10 ∧ parse (text "f\n") = .ok ⟨[.ident (text "f")]⟩ ∧
    parse (text "+ 1") =
      .error (.parse (.unexpectedToken (.operator (text "+"))) ⟨1, 1⟩ false) ∧
    parse (text "f\n" ++ text "+ 1") =
      .error (.parse (.unexpectedToken (.operator (text "+"))) ⟨2, 1⟩ false) := by
  have hline : (text "f\n").getLast? = some 10 := by decide
  have ha : parse (text "f\n") = .ok ⟨[.ident (text "f")]⟩ := by with_unfolding_all rfl
  have hb : parse (text "+ 1") =
      .error (.parse (.unexpectedToken (.operator (text "+"))) ⟨1, 1⟩ false) := by
    with_unfolding_all rfl
  exact ⟨hline, ha, hb, ((lines_compose hline (text "+ 1")).2.1 _ ha).2 _ hb⟩

end Scriptlet

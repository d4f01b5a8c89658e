/-
  Scriptlet.Proofs.Grammar.Faults

  What a parser complains about.

  Whatever the parser refuses it refuses at a token that it has seen, or at the end of
  the input behind the last one; a lexical fault it only passes on. `Reply.Fair`
  says this of one reply, and that the fuel was enough. It is kept by sequencing,
  so it goes through the grammar parser by parser (`Parser.fair`). Together with the
  places of tokens it ties the faults of `parse` to those of `tokenize`
  (`parse_faults`).
-/
import Scriptlet.Proofs.Lexing.Positions

namespace Scriptlet

namespace Stream

/-! ## Streams that lead to others -/

/-- The position of the last token there is, taken or not. -/
def final (s : Stream) : Position := (s.tokens.getLast?.map Token.position).getD s.last

/-- Tokens were taken from the first stream, and the second is left. -/
structure Leads (s r : Stream) : Prop where
  tokens : r.tokens <:+ s.tokens
  ending : r.ending = s.ending
  final : r.final = s.final

variable {s r t : Stream}

theorem Leads.refl (s : Stream) : s.Leads s := ⟨List.suffix_rfl, rfl, rfl⟩

theorem Leads.trans (h : s.Leads r) (h' : r.Leads t) : s.Leads t :=
  ⟨h'.tokens.trans h.tokens, h'.ending.trans h.ending, h'.final.trans h.final⟩

theorem Leads.mem (h : s.Leads r) {t : Token} (ht : t ∈ r.tokens) : t ∈ s.tokens :=
  h.tokens.mem ht

/-- Taking a token leads on, and the last token there is stays the same. -/
theorem leads_take {t : Token} {ts : List Token} (h : s.tokens = t :: ts) :
    s.Leads { s with tokens := ts, last := t.position } where
  tokens := h ▸ List.suffix_cons t ts
  ending := rfl
  final := by
    rw [final, final, h, List.getLast?_cons]
    cases ts.getLast? <;> rfl

/-- A goal that was read took its least number of tokens. -/
theorem Reads.length_add_least_le {g : Goal} {v : g.Result} (h : s.Reads g v r) :
    r.tokens.length + g.least ≤ s.tokens.length := by
  simpa [lexemes] using h.derives.length_add_least_le

/-! ## What can be blamed -/

/-- A problem that names a function names one of the stream. -/
def Names (s : Stream) : ParseProblem → Prop
  | .duplicateParameter _ function => .identifier function ∈ s.lexemes
  | _ => True

/-- A fault that reading the stream may end with: the one behind its tokens, a
    problem at one of its tokens, or a problem at its end. -/
inductive Blames (s : Stream) : Fault → Prop where
  | ending {f} (h : s.ending = some f) : s.Blames f
  | token {t problem} (ht : t ∈ s.tokens) (hproblem : s.Names problem) :
      s.Blames (.parse problem t.position false)
  | final {problem} (h : s.ending = none) : s.Blames (.parse problem s.final true)

/-- A function named ahead is named in the stream it was reached from. -/
theorem Leads.names (h : s.Leads r) {problem : ParseProblem} (hr : r.Names problem) :
    s.Names problem := by
  cases problem with
  | duplicateParameter p f =>
    obtain ⟨t, ht, hf⟩ := List.mem_map.mp hr
    exact List.mem_map.mpr ⟨t, h.mem ht, hf⟩
  | _ => trivial

/-- What is blamed ahead can be blamed from the start. -/
theorem Leads.blames (h : s.Leads r) {f : Fault} (hr : r.Blames f) : s.Blames f := by
  cases hr with
  | ending hend => exact .ending (h.ending ▸ hend)
  | token ht hproblem => exact .token (h.mem ht) (h.names hproblem)
  | final hend =>
    rw [h.final]
    exact .final (h.ending ▸ hend)

end Stream

/-- A reply to a parser that started from the stream: tokens of it were taken, or it
    blames what can be blamed. -/
def Reply.Fair {α : Type} (s : Stream) : Reply α → Prop
  | .ok _ r => s.Leads r
  | .fail f _ => s.Blames f
  | .starved => False

/-- A reply that is fair where a parser went on is fair where it started. -/
theorem Reply.Fair.mono {α : Type} {s r : Stream} {reply : Reply α} (h : reply.Fair r)
    (hs : s.Leads r) : reply.Fair s := by
  cases reply with
  | ok a t => exact hs.trans h
  | fail f t => exact hs.blames h
  | starved => exact h

namespace Parser

variable {α β : Type} {s s₀ r : Stream}

/-! ## Sequencing and single tokens -/

/-- Parsers in sequence are fair, if the second is wherever the first can lead. -/
theorem fair_bind {p : Parser α} {f : α → Parser β} (hp : (p s).Fair s₀)
    (hf : ∀ a r, p s = .ok a r → s₀.Leads r → (f a r).Fair s₀) : ((p >>= f) s).Fair s₀ := by
  simp only [Bind.bind]
  cases hreply : p s with
  | ok a r =>
    rw [hreply] at hp
    exact hf a r hreply hp
  | fail fault r =>
    rw [hreply] at hp
    exact hp
  | starved =>
    rw [hreply] at hp
    exact hp.elim

theorem fair_pure {a : α} (h : s₀.Leads s) : ((pure a : Parser α) s).Fair s₀ := h

/-- What is made of a result takes nothing more. -/
theorem fair_map {p : Parser α} {f : α → β} (hp : (p s).Fair s₀) :
    ((p >>= fun a => pure (f a)) s).Fair s₀ :=
  fair_bind hp fun _ _ _ hr => fair_pure hr

/-- Looking ahead can only fail with the fault behind the tokens. -/
theorem fair_peek (h : s₀.Leads s) : (peek s).Fair s₀ := by
  obtain ⟨tokens, ending, last⟩ := s
  cases tokens with
  | cons t ts => exact h
  | nil =>
    cases ending with
    | none => exact h
    | some f => exact .ending (h.ending ▸ rfl)

theorem fair_next (h : s₀.Leads s) : (next s).Fair s₀ := by
  obtain ⟨tokens, ending, last⟩ := s
  cases tokens with
  | cons t ts => exact h.trans (Stream.leads_take rfl)
  | nil =>
    cases ending with
    | none => exact h
    | some f => exact .ending (h.ending ▸ rfl)

theorem fair_take {a : α} (h : s₀.Leads s) : (take a s).Fair s₀ :=
  fair_map (fair_next h)

/-- What comes next can be refused, be it a token or the end. -/
theorem fair_refuse (problem : ParseProblem) (h : s₀.Leads s)
    (hend : s.tokens = [] → s.ending = none) (hproblem : s₀.Names problem) :
    ((refuse s.tokens.head? problem : Parser α) s).Fair s₀ := by
  cases hs : s.tokens with
  | nil =>
    -- Every token was taken, so the last one taken is the last there is.
    have hlast : s.last = s₀.final := by
      rw [← h.final, Stream.final, hs]
      rfl
    show s₀.Blames (.parse problem s.last true)
    rw [hlast]
    exact .final (h.ending ▸ hend hs)
  | cons t ts =>
    have ht : t ∈ s.tokens := hs ▸ List.mem_cons_self
    exact .token (h.mem ht) hproblem

theorem length_next {t? : Option Token} (hs : s.tokens ≠ []) (h : next s = .ok t? r) :
    r.tokens.length + 1 = s.tokens.length := by
  obtain ⟨t, ts, hts⟩ := List.exists_cons_of_ne_nil hs
  have hlexemes := congrArg List.length (next_ok_cons hts h).1
  simpa [Stream.lexemes] using hlexemes.symm

/-- What follows a token that is there has one token less. -/
theorem fair_next_bind {f : Option Token → Parser α} (hs : s.tokens ≠ []) (h : s₀.Leads s)
    (hf : ∀ t? r, r.tokens.length + 1 = s.tokens.length → s₀.Leads r → (f t? r).Fair s₀) :
    ((next >>= f) s).Fair s₀ :=
  fair_bind (fair_next h) fun t? r hnext hr => hf t? r (length_next hs hnext) hr

theorem fair_isNext {l : Lexeme} (h : s₀.Leads s) : (isNext l s).Fair s₀ :=
  fair_map (fair_peek h)

/-- A mark that is not there is refused at what is. -/
theorem fair_mark {m : Bytes} (h : s₀.Leads s) : (mark m s).Fair s₀ := by
  refine fair_bind (fair_peek h) fun t? r hpeek hr => ?_
  obtain ⟨rfl, rfl, hend⟩ := peek_ok hpeek
  split
  · exact fair_take hr
  · exact fair_refuse _ hr hend trivial

theorem fair_optionalKeyword {w : Bytes} (h : s₀.Leads s) : (optionalKeyword w s).Fair s₀ := by
  refine fair_bind (fair_isNext h) fun b r _ hr => ?_
  split
  · exact fair_take hr
  · exact fair_pure hr

theorem fair_separator (h : s₀.Leads s) : (separator s).Fair s₀ := by
  refine fair_bind (fair_peek h) fun t? r _ hr => ?_
  split
  · exact fair_mark hr
  · exact fair_pure hr

/-- What is taken is the first of the tokens, and nothing is taken at the end. -/
theorem next_head {t? : Option Token} (h : next s = .ok t? r) :
    t? = s.tokens.head? ∧ (s.tokens = [] → s.ending = none ∧ r = s) := by
  obtain ⟨tokens, ending, last⟩ := s
  cases tokens <;> cases ending <;> simp_all [next]

/-- A name that is not there is refused at the token that was taken for it. -/
theorem fair_identifier (h : s₀.Leads s) : (identifier s).Fair s₀ := by
  refine fair_bind (fair_next h) fun t? r hnext hr => ?_
  obtain ⟨rfl, hend⟩ := next_head hnext
  cases hs : s.tokens with
  | nil =>
    obtain ⟨hnone, rfl⟩ := hend hs
    have hrefuse := fair_refuse (α := Name) (.expectedIdentifier none) h (fun _ => hnone) trivial
    rwa [hs] at hrefuse
  | cons t ts =>
    -- The token is gone from the stream, but it is one of those it started with.
    have ht : t ∈ s₀.tokens := h.mem (hs ▸ List.mem_cons_self)
    obtain ⟨lexeme, position⟩ := t
    cases lexeme with
    | identifier name => exact fair_pure hr
    | _ => exact .token ht trivial

/-! ## Lists in parentheses -/

/-- Items that take a token each, as long as they are read from `most` tokens or
    less. -/
theorem fair_items {item : Parser α} {fuel most : Nat} {first : Bool}
    (hitem : ∀ r, s₀.Leads r → r.tokens.length ≤ most → (item r).Fair s₀)
    (hless : ∀ {s x r}, item s = .ok x r → r.tokens.length < s.tokens.length) (h : s₀.Leads s)
    (hmost : s.tokens.length ≤ most) (hfuel : s.tokens.length < fuel) :
    (items item fuel first s).Fair s₀ := by
  induction fuel generalizing first s with
  | zero => omega
  | succ fuel ih =>
    -- An item and what follows it; an item takes a token, so the fuel lasts.
    have helement : ∀ r, s₀.Leads r → r.tokens.length ≤ s.tokens.length →
        ((do let x ← item; let xs ← items item fuel false; return x :: xs :
          Parser (List α)) r).Fair s₀ := by
      intro r hr hle
      refine fair_bind (hitem r hr (by omega)) fun x t hx ht => ?_
      have hshorter := hless hx
      exact fair_map (ih ht (by omega) (by omega))
    rw [items]
    refine fair_bind (fair_isNext h) fun b r hnext hr => ?_
    obtain ⟨rfl, -⟩ := isNext_ok hnext
    split
    · exact fair_pure hr
    split
    · -- The first item needs no comma.
      exact helement r hr (Nat.le_refl _)
    refine fair_bind (fair_mark hr) fun _ t hmark ht => ?_
    -- The comma is a token less for the items behind it.
    have hcomma := congrArg List.length (mark_ok hmark).1
    simp only [Stream.lexemes, List.length_map, List.length_cons] at hcomma
    refine fair_bind (fair_isNext ht) fun b u hnext hu => ?_
    obtain ⟨rfl, -⟩ := isNext_ok hnext
    split
    · exact fair_pure hu
    · exact helement u hu (by omega)

/-- A list in parentheses; the opening one is a token less for the items. -/
theorem fair_delimited {item : Parser α} {fuel : Nat} (most : Nat)
    (hitem : ∀ r, s₀.Leads r → r.tokens.length ≤ most → (item r).Fair s₀)
    (hless : ∀ {s x r}, item s = .ok x r → r.tokens.length < s.tokens.length) (h : s₀.Leads s)
    (hmost : s.tokens.length ≤ most + 1) (hfuel : s.tokens.length ≤ fuel) :
    (delimited item fuel s).Fair s₀ := by
  refine fair_bind (fair_mark h) fun _ r hmark hr => ?_
  have hopen := congrArg List.length (mark_ok hmark).1
  simp only [Stream.lexemes, List.length_map, List.length_cons] at hopen
  refine fair_bind (fair_items hitem hless hr (by omega) (by omega)) fun xs t _ ht => ?_
  exact fair_map (fair_mark ht)

/-! ## The grammar -/

/-- The parsers are fair with this much fuel, if it is enough for the stream. Between
    two tokens they go through a few levels of the grammar at most. -/
structure FairAt (fuel : Nat) : Prop where
  expression : ∀ {s}, 16 * s.tokens.length + 3 ≤ fuel → (expression fuel s).Fair s
  climb : ∀ {s left level}, 16 * s.tokens.length + 1 ≤ fuel → (climb fuel left level s).Fair s
  atom : ∀ {s}, 16 * s.tokens.length + 2 ≤ fuel → (atom fuel s).Fair s
  calls : ∀ {s callee}, 16 * s.tokens.length + 1 ≤ fuel → (calls fuel callee s).Fair s
  operand : ∀ {s}, 16 * s.tokens.length + 1 ≤ fuel → (operand fuel s).Fair s
  function : ∀ {s}, 16 * s.tokens.length + 1 ≤ fuel → (function fuel s).Fair s
  tail : ∀ {s}, 16 * s.tokens.length + 1 ≤ fuel → (tail fuel s).Fair s
  body : ∀ {s branching}, 16 * s.tokens.length + 4 ≤ fuel → (body fuel branching s).Fair s
  statements : ∀ {s branching}, 16 * s.tokens.length + 4 ≤ fuel →
    (statements fuel branching s).Fair s

variable {fuel : Nat}

/-! A construct takes a token before its parts are read, and a part takes one before
what follows it, so that the fuel is enough for all of them. -/

theorem length_expression {x : Node} (h : expression fuel s = .ok x r) :
    r.tokens.length + 1 ≤ s.tokens.length :=
  ((sound fuel).expression h).length_add_least_le

/-- Going on with the operators gives no token back. -/
theorem length_climb {left x : Node} {level : Nat} (h : climb fuel left level s = .ok x r) :
    r.tokens.length ≤ s.tokens.length :=
  ((sound fuel).climb h).length_add_least_le

theorem length_atom {x : Node} (h : atom fuel s = .ok x r) :
    r.tokens.length + 1 ≤ s.tokens.length :=
  ((sound fuel).atom h).length_add_least_le

theorem length_operand {x : Node} (h : operand fuel s = .ok x r) :
    r.tokens.length + 1 ≤ s.tokens.length :=
  ((sound fuel).operand h).length_add_least_le

theorem length_body {branching : Bool} {b : Block} (h : body fuel branching s = .ok b r) :
    r.tokens.length + 1 ≤ s.tokens.length :=
  ((sound fuel).body h).length_add_least_le

theorem length_identifier {name : Name} (h : identifier s = .ok name r) :
    r.tokens.length + 1 ≤ s.tokens.length := by
  have hlength := congrArg List.length (identifier_ok h).1
  simp only [Stream.lexemes, List.length_map, List.length_cons] at hlength
  omega

/-- An argument list takes its opening parenthesis at least. -/
theorem length_arguments {xs : List Node} (h : delimited (expression fuel) fuel s = .ok xs r) :
    r.tokens.length + 1 ≤ s.tokens.length := by
  obtain ⟨inside, hs, hxs, -⟩ := delimited_ok argumentRules
    (fun hx => ⟨((sound fuel).expression hx).derives, ((sound fuel).expression hx).ending⟩) h
  have hinside := hxs.suffix.length_le
  have hlength := congrArg List.length hs
  simp only [Stream.lexemes, List.length_map, List.length_cons] at hinside hlength
  omega

/-- A parameter list is opened by a token that is there. -/
theorem length_parameters {ps : List Name} (h : delimited identifier fuel s = .ok ps r) :
    s.tokens ≠ [] ∧ r.tokens.length ≤ s.tokens.length := by
  obtain ⟨inside, hs, hps, -⟩ := delimited_ok parameterRules (fun hx => identifier_ok hx) h
  have hinside := hps.suffix.length_le
  have hlength := congrArg List.length hs
  simp only [Stream.lexemes, List.length_map, List.length_cons] at hinside hlength
  refine ⟨?_, by omega⟩
  intro hnil
  rw [hnil] at hlength
  cases hlength

/-- A separator is a token or the end, so none is given back. -/
theorem length_separator {u : Unit} (h : separator s = .ok u r) :
    r.tokens.length ≤ s.tokens.length := by
  have hlength : r.lexemes.length ≤ s.lexemes.length := by
    rcases (separator_ok h).1 with hs | ⟨-, hr⟩
    · rw [hs, List.length_cons]
      omega
    · rw [hr]
      exact Nat.zero_le _
  simpa [Stream.lexemes] using hlength

/-- A lexeme that is ahead is that of a token. -/
theorem ne_nil_of_isNext {l : Lexeme} {b : Bool} (h : b = true ↔ s.lexemes.head? = some l)
    (hb : b = true) : s.tokens ≠ [] := by
  intro hnil
  have hhead := h.mp hb
  rw [Stream.lexemes, hnil] at hhead
  cases hhead

namespace FairAt

/-- Behind the atom the stream is shorter, so the fuel lasts for the climb. -/
theorem expression_succ (ih : FairAt fuel) (hfuel : 16 * s.tokens.length + 3 ≤ fuel + 1) :
    (Parser.expression (fuel + 1) s).Fair s := by
  rw [Parser.expression]
  refine fair_bind (ih.atom (by omega)) fun left r hleft hr => ?_
  have hless := length_atom hleft
  exact (ih.climb (by omega)).mono hr

theorem atom_succ (ih : FairAt fuel) (hfuel : 16 * s.tokens.length + 2 ≤ fuel + 1) :
    (Parser.atom (fuel + 1) s).Fair s := by
  rw [Parser.atom]
  refine fair_bind (ih.operand (by omega)) fun callee r hcallee hr => ?_
  have hless := length_operand hcallee
  exact (ih.calls (by omega)).mono hr

/-- Each turn of the climb takes the operator and an atom. -/
theorem climb_succ (ih : FairAt fuel) {left : Node} {level : Nat}
    (hfuel : 16 * s.tokens.length + 1 ≤ fuel + 1) :
    (Parser.climb (fuel + 1) left level s).Fair s := by
  rw [Parser.climb]
  refine fair_bind (fair_peek (.refl s)) fun t? r hpeek hr => ?_
  obtain ⟨rfl, rfl, -⟩ := peek_ok hpeek
  rcases hs : r.tokens with _ | ⟨⟨lexeme, position⟩, ts⟩
  · exact fair_pure hr
  cases lexeme with
  | operator symbol =>
    simp only [List.head?_cons]
    split
    · -- An operator without precedence is blamed where it stands.
      exact .token (hs ▸ List.mem_cons_self) trivial
    split
    · exact fair_pure hr
    refine fair_next_bind (by simp [hs]) hr fun _ r₁ htaken hr₁ => ?_
    refine fair_bind ((ih.atom (by omega)).mono hr₁) fun operand r₂ hoperand hr₂ => ?_
    have hless := length_atom hoperand
    refine fair_bind ((ih.climb (by omega)).mono hr₂) fun right r₃ hright hr₃ => ?_
    have hrest := length_climb hright
    exact (ih.climb (by omega)).mono hr₃
  | _ => exact fair_pure hr

/-- Each argument list takes a token, before the next is looked for. -/
theorem calls_succ (ih : FairAt fuel) {callee : Node}
    (hfuel : 16 * s.tokens.length + 1 ≤ fuel + 1) : (Parser.calls (fuel + 1) callee s).Fair s := by
  rw [Parser.calls]
  refine fair_bind (fair_isNext (.refl s)) fun b r hnext hr => ?_
  obtain ⟨rfl, hb⟩ := isNext_ok hnext
  split
  · rename_i hyes
    have hsome := List.length_pos_of_ne_nil (ne_nil_of_isNext hb hyes)
    -- Behind the parenthesis every item starts from a shorter stream.
    have hitem : ∀ t, r.Leads t → t.tokens.length ≤ r.tokens.length - 1 →
        (Parser.expression fuel t).Fair r := by
      intro t ht hle
      exact (ih.expression (by omega)).mono ht
    refine fair_bind (fair_delimited _ hitem length_expression hr (by omega) (by omega))
      fun arguments t harguments ht => ?_
    have hless := length_arguments harguments
    exact (ih.calls (by omega)).mono ht
  · exact fair_pure hr

/-- A function names itself, so that its name can be blamed with a repeated parameter. -/
theorem function_succ (ih : FairAt fuel) (hfuel : 16 * s.tokens.length + 1 ≤ fuel + 1) :
    (Parser.function (fuel + 1) s).Fair s := by
  rw [Parser.function]
  refine fair_bind (fair_identifier (.refl s)) fun name r₁ hname hr₁ => ?_
  have hhead := (identifier_ok hname).1
  have hless := length_identifier hname
  refine fair_bind (fair_peek hr₁) fun opening r₂ hpeek hr₂ => ?_
  obtain ⟨rfl, rfl, -⟩ := peek_ok hpeek
  refine fair_bind (fair_delimited r₂.tokens.length (fun _ h _ => fair_identifier h)
    length_identifier hr₂ (by omega) (by omega)) fun parameters r₃ hparameters hr₃ => ?_
  obtain ⟨hopening, hrest⟩ := length_parameters hparameters
  cases repeated? [] parameters with
  | some parameter =>
    -- The parenthesis is blamed that was seen before the parameters.
    obtain ⟨t, ts, ht⟩ := List.exists_cons_of_ne_nil hopening
    rw [ht]
    refine .token (hr₂.mem (ht ▸ List.mem_cons_self)) ?_
    show Lexeme.identifier name ∈ s.lexemes
    rw [hhead]
    exact List.mem_cons_self
  | none =>
    refine fair_bind ((ih.body (by omega)).mono hr₃) fun block r₄ _ hr₄ => ?_
    obtain ⟨_ | ⟨x, _ | ⟨y, ys⟩⟩, _ | _⟩ := block <;> exact fair_pure hr₄

/-- The word of a branch is taken before its parts. -/
theorem tail_succ (ih : FairAt fuel) (hfuel : 16 * s.tokens.length + 1 ≤ fuel + 1) :
    (Parser.tail (fuel + 1) s).Fair s := by
  rw [Parser.tail]
  refine fair_bind (fair_isNext (.refl s)) fun b r hnext hr => ?_
  obtain ⟨rfl, hb⟩ := isNext_ok hnext
  split
  · rename_i hyes
    refine fair_next_bind (ne_nil_of_isNext hb hyes) hr fun _ r₁ htaken hr₁ => ?_
    refine fair_bind ((ih.expression (by omega)).mono hr₁) fun condition r₂ hcondition hr₂ => ?_
    have hless := length_expression hcondition
    refine fair_bind ((ih.body (by omega)).mono hr₂) fun block r₃ hblock hr₃ => ?_
    have hless' := length_body hblock
    exact fair_map ((ih.tail (by omega)).mono hr₃)
  refine fair_bind (fair_isNext hr) fun b r' hnext hr' => ?_
  obtain ⟨rfl, hb'⟩ := isNext_ok hnext
  split
  · rename_i hyes
    refine fair_next_bind (ne_nil_of_isNext hb' hyes) hr' fun _ r₁ htaken hr₁ => ?_
    exact fair_map ((ih.body (by omega)).mono hr₁)
  · exact fair_pure hr'

/-- A block takes its line break before the statements; an inline body takes an expression. -/
theorem body_succ (ih : FairAt fuel) {branching : Bool}
    (hfuel : 16 * s.tokens.length + 4 ≤ fuel + 1) :
    (Parser.body (fuel + 1) branching s).Fair s := by
  rw [Parser.body]
  refine fair_bind (fair_isNext (.refl s)) fun b r hnext hr => ?_
  obtain ⟨rfl, hb⟩ := isNext_ok hnext
  split
  · rename_i hyes
    refine fair_next_bind (ne_nil_of_isNext hb hyes) hr fun _ r₁ htaken hr₁ => ?_
    exact fair_map ((ih.statements (by omega)).mono hr₁)
  · refine fair_bind (ih.expression (by omega)) fun x r₁ _ hr₁ => ?_
    exact fair_map (fair_optionalKeyword hr₁)

/-- A statement takes a token before the next, and the end of the input is refused. -/
theorem statements_succ (ih : FairAt fuel) {branching : Bool}
    (hfuel : 16 * s.tokens.length + 4 ≤ fuel + 1) :
    (Parser.statements (fuel + 1) branching s).Fair s := by
  rw [Parser.statements]
  refine fair_bind (fair_peek (.refl s)) fun t? r hpeek hr => ?_
  obtain ⟨rfl, rfl, hend⟩ := peek_ok hpeek
  have hrefuse := fair_refuse (α := List Node) .unclosedBlock hr hend trivial
  cases hs : r.tokens with
  | nil => rwa [hs] at hrefuse
  | cons t ts =>
    simp only [List.head?_cons]
    split
    · exact fair_map (fair_optionalKeyword hr)
    refine fair_bind (ih.expression (by omega)) fun x r₁ hx hr₁ => ?_
    have hless := length_expression hx
    refine fair_bind (fair_separator hr₁) fun _ r₂ hseparator hr₂ => ?_
    have hrest := length_separator hseparator
    exact fair_map ((ih.statements (by omega)).mono hr₂)

/-- Every construct takes its keyword, mark or operator before its parts. -/
theorem operand_succ (ih : FairAt fuel) (hfuel : 16 * s.tokens.length + 1 ≤ fuel + 1) :
    (Parser.operand (fuel + 1) s).Fair s := by
  rw [Parser.operand]
  refine fair_bind (fair_peek (.refl s)) fun t? r hpeek hr => ?_
  obtain ⟨rfl, rfl, hend⟩ := peek_ok hpeek
  have hrefuse := fun problem => fair_refuse (α := Node) problem hr hend
  rcases hs : r.tokens with _ | ⟨⟨lexeme, position⟩, ts⟩
  · rw [hs] at hrefuse
    exact hrefuse .expectedExpression trivial
  rw [hs] at hrefuse
  -- A construct takes its first token, so there is fuel for its parts.
  have hsome : r.tokens ≠ [] := by simp [hs]
  cases lexeme with
  | identifier name => exact fair_take hr
  | string contents => exact fair_take hr
  | integer literal n => exact fair_take hr
  | float literal d => exact fair_take hr
  | operator symbol =>
    simp only [List.head?_cons]
    split
    · refine fair_next_bind hsome hr fun _ r₁ hless hr₁ => ?_
      exact fair_map ((ih.atom (by omega)).mono hr₁)
    · exact hrefuse _ trivial
  | punctuation m =>
    simp only [List.head?_cons]
    split
    · refine fair_next_bind hsome hr fun _ r₁ hless hr₁ => ?_
      refine fair_bind ((ih.expression (by omega)).mono hr₁) fun _ _ _ hr₂ => ?_
      exact fair_map (fair_mark hr₂)
    · exact hrefuse _ trivial
  | keyword word =>
    simp only [List.head?_cons]
    -- The words in the order of the parser; only `if`, `while`, `return` and `func` have parts.
    split
    · exact fair_take hr
    split
    · exact fair_take hr
    split
    · refine fair_next_bind hsome hr fun _ r₁ hless hr₁ => ?_
      refine fair_bind ((ih.expression (by omega)).mono hr₁) fun _ r₂ hcondition hr₂ => ?_
      have hless₂ := length_expression hcondition
      refine fair_bind ((ih.body (by omega)).mono hr₂) fun _ r₃ hblock hr₃ => ?_
      have hless₃ := length_body hblock
      exact fair_map ((ih.tail (by omega)).mono hr₃)
    split
    · refine fair_next_bind hsome hr fun _ r₁ hless hr₁ => ?_
      refine fair_bind ((ih.expression (by omega)).mono hr₁) fun _ r₂ hcondition hr₂ => ?_
      have hless₂ := length_expression hcondition
      exact fair_map ((ih.body (by omega)).mono hr₂)
    split
    · refine fair_next_bind hsome hr fun _ r₁ hless hr₁ => ?_
      exact fair_map ((ih.expression (by omega)).mono hr₁)
    split
    · refine fair_next_bind hsome hr fun _ r₁ hless hr₁ => ?_
      exact (ih.function (by omega)).mono hr₁
    · exact hrefuse _ trivial

end FairAt

/-- The parsers are fair, and enough fuel is enough. -/
theorem fairAt (fuel : Nat) : FairAt fuel := by
  induction fuel with
  | zero =>
    -- No stream is short enough for no fuel at all.
    constructor <;> intros <;> omega
  | succ fuel ih =>
    exact ⟨ih.expression_succ, ih.climb_succ, ih.atom_succ, ih.calls_succ, ih.operand_succ,
      ih.function_succ, ih.tail_succ, ih.body_succ, ih.statements_succ⟩

/-- A program is read with fuel for its tokens, and every line takes one. -/
theorem fair_program (hfuel : 16 * s.tokens.length + 4 ≤ fuel) : (program fuel s).Fair s := by
  induction fuel generalizing s with
  | zero => omega
  | succ fuel ih =>
    rw [program]
    refine fair_bind (fair_peek (.refl s)) fun t? r hpeek hr => ?_
    obtain ⟨rfl, rfl, -⟩ := peek_ok hpeek
    split
    · refine fair_bind ((fairAt fuel).expression (by omega)) fun x r₁ hx hr₁ => ?_
      have hless := length_expression hx
      refine fair_bind (fair_separator hr₁) fun _ r₂ hseparator hr₂ => ?_
      have hrest := length_separator hseparator
      exact fair_map ((ih (by omega)).mono hr₂)
    · exact fair_pure hr

end Parser

/-! ## Wording -/

/-- What a message ends with when it is about the end of the input. -/
def ParseProblem.ending : Bytes := text " (unexpected end of input)"

/-- A message about the end of the input ends with a parenthesis. -/
theorem getLast?_of_suffix {bs : Bytes} (h : ParseProblem.ending <:+ bs) :
    bs.getLast? = some 41 := by
  obtain ⟨front, rfl⟩ := h
  have hlast : ParseProblem.ending.getLast? = some 41 := by decide +kernel
  rw [List.getLast?_append, hlast]
  rfl

/-- What is quoted ends with a quotation mark. -/
theorem getLast?_quote (bs : Bytes) : (Quoted.quote bs).getLast? = some 34 := by
  rw [Quoted.quote]
  exact List.getLast?_concat

/-- What was found is named without a parenthesis at its end. -/
theorem Lexeme.getLast?_found (got : Option Lexeme) :
    ∃ b, (Lexeme.found got).getLast? = some b ∧ b ≠ 41 := by
  unfold Lexeme.found
  split
  · exact ⟨116, by decide +kernel, by decide⟩
  · exact ⟨101, by decide +kernel, by decide⟩
  · rename_i l _
    refine ⟨34, ?_, by decide⟩
    rw [List.getLast?_append, getLast?_quote]
    rfl

/-- No message ends like one about the end of the input; names of functions are
    identifiers. -/
theorem ParseProblem.not_suffix {problem : ParseProblem}
    (h : ∀ p f, problem = .duplicateParameter p f → isIdentifier f = true) :
    ¬ ParseProblem.ending <:+ problem.message := by
  intro hsuffix
  have hlast := getLast?_of_suffix hsuffix
  cases problem with
  | expectedPunctuation m got =>
    obtain ⟨b, hb, hne⟩ := Lexeme.getLast?_found got
    rw [message, List.getLast?_append, hb] at hlast
    exact hne (Option.some.inj hlast)
  | unclosedBlock => exact absurd hlast (by decide +kernel)
  | expectedExpression => exact absurd hlast (by decide +kernel)
  | unexpectedToken got =>
    obtain ⟨b, hb, hne⟩ := Lexeme.getLast?_found (some got)
    rw [message, List.getLast?_append, hb] at hlast
    exact hne (Option.some.inj hlast)
  -- The operator is quoted last.
  | unknownOperator symbol =>
    rw [message, List.getLast?_append, getLast?_quote] at hlast
    exact absurd hlast (by decide)
  | expectedIdentifier got =>
    obtain ⟨b, hb, hne⟩ := Lexeme.getLast?_found got
    rw [message, List.getLast?_append, hb] at hlast
    exact hne (Option.some.inj hlast)
  | duplicateParameter p f =>
    have hname := h p f rfl
    have hne : f ≠ [] := by
      rintro rfl
      cases hname
    rw [message, List.getLast?_append, List.getLast?_eq_getLast_of_ne_nil hne] at hlast
    -- The name of the function comes last, and no part of a name is a parenthesis.
    have hmem := List.getLast_mem hne
    rw [Option.some.inj hlast] at hmem
    exact absurd (isIdentifierPart_of_mem hname 41 hmem) (by decide)

/-- At one place and with one code, the headline tells the messages apart. -/
theorem Fault.headline_inj {code : ErrorCode} {m m' : Bytes} {p : Position}
    (h : headline code m p = headline code m' p) : m = m' := by
  unfold headline at h
  split at h
  · exact List.append_cancel_left h
  · simpa using h

/-! ## Whole texts -/

/-- A fault of a text is one that its tokens can be blamed for; without tokens it is
    the one behind them. -/
theorem blames_of_parse {source : Bytes} {f : Fault} (h : parse source = .error f) :
    (Lexer.ofText source).stream.Blames f ∧
      ((Lexer.ofText source).stream.tokens = [] →
        (Lexer.ofText source).stream.ending = some f) := by
  unfold parse Stream.parse at h
  generalize (Lexer.ofText source).stream = s at h ⊢
  have hfair : (Parser.program s.fuel s).Fair s :=
    Parser.fair_program (by rw [Stream.fuel]; omega)
  cases hreply : Parser.program s.fuel s with
  | ok ss r =>
    rw [hreply] at h
    cases h
  | starved =>
    rw [hreply] at hfair
    exact hfair.elim
  | fail g r =>
    rw [hreply] at h hfair
    cases h
    refine ⟨hfair, fun hnil => ?_⟩
    -- Without tokens the program is empty or the fault is the one of the stream.
    obtain ⟨tokens, ending, last⟩ := s
    obtain rfl : tokens = [] := hnil
    cases ending with
    | none => cases hreply
    | some fault =>
      cases hreply
      rfl

/-- The end of a stream is at its last token. -/
theorem Stream.final_of_ne_nil {s : Stream} (h : s.tokens ≠ []) :
    ∃ t, s.tokens.getLast? = some t ∧ t.position = s.final := by
  refine ⟨s.tokens.getLast h, List.getLast?_eq_getLast_of_ne_nil h, ?_⟩
  rw [Stream.final, List.getLast?_eq_getLast_of_ne_nil h]
  rfl

/-- Lines and columns of tokens count from one, and a lexical fault stands behind
    every token. -/
theorem place_of_token {source : Bytes} {t : Token} (h : t ∈ (Cursor.ofText source).tokens.1) :
    1 ≤ t.position.line ∧ 1 ≤ t.position.column ∧
      ∀ g, tokenize source = .error g → t.position < g.position := by
  obtain ⟨hle, hcolumn⟩ := Cursor.token_position h
  have hline : 1 ≤ t.position.line := by
    rw [Position.le_iff] at hle
    simp only [Cursor.position, Cursor.ofText] at hle
    omega
  refine ⟨hline, hcolumn, fun g hg => ?_⟩
  exact (Cursor.fault_position (tokenize_eq_error_iff.mp hg)).2.2 t h

/-- Parsing and splitting agree on what is wrong with a text. What parses can be split.
    A fault of the parser is lexical or one of the grammar. A lexical one is the fault of
    the splitting. One of the grammar stands at a token in front of any lexical fault,
    lines and columns counting from one, so that such a fault stands behind it; and if
    its message ends as those about the end of the input do, the token is the last of the
    text. -/
theorem parse_faults (source : Bytes) :
    (∀ p, parse source = .ok p → ∃ ts, tokenize source = .ok ts) ∧
    ∀ f, parse source = .error f →
      (f.code? = some .lexing ∨ f.code? = some .parsing) ∧
      (f.code? = some .lexing → tokenize source = .error f) ∧
      (f.code? = some .parsing →
        1 ≤ f.position.line ∧ 1 ≤ f.position.column ∧
        (∃ t ∈ (Cursor.ofText source).tokens.1, t.position = f.position) ∧
        (∀ g, tokenize source = .error g → f.position < g.position) ∧
        ∀ body, f.message = Fault.headline .parsing body f.position →
          text " (unexpected end of input)" <:+ body →
          ∃ ts t, tokenize source = .ok ts ∧ ts.getLast? = some t ∧ t.position = f.position) := by
  refine ⟨fun p hp => ?_, fun f hf => ?_⟩
  · obtain ⟨ts, hts, -⟩ := parse_derives hp
    exact ⟨ts, hts⟩
  obtain ⟨hblames, hnone⟩ := blames_of_parse hf
  cases hblames with
  | ending hend =>
    -- The fault behind the tokens is the one the splitting ends with.
    have hlexing : f.code? = some .lexing := by
      obtain ⟨problem, hlex⟩ := (Cursor.fault_position hend).1
      rw [hlex]
      rfl
    refine ⟨.inl hlexing, fun _ => tokenize_eq_error_iff.mpr hend, fun hparsing => ?_⟩
    rw [hlexing] at hparsing
    cases hparsing
  | @token t problem ht hproblem =>
    refine ⟨.inr rfl, (by rintro ⟨⟩), fun _ => ?_⟩
    obtain ⟨hline, hcolumn, hlater⟩ := place_of_token ht
    refine ⟨hline, hcolumn, ⟨t, ht, rfl⟩, hlater, fun body hbody hsuffix => ?_⟩
    -- A problem at a token is not worded as one at the end.
    have hmessage : problem.message ++ [] = body := Fault.headline_inj hbody
    rw [List.append_nil] at hmessage
    refine absurd (hmessage ▸ hsuffix) (ParseProblem.not_suffix fun p function heq => ?_)
    rw [heq] at hproblem
    obtain ⟨u, hu, hname⟩ := List.mem_map.mp hproblem
    have hvalid := Cursor.isValid_of_mem_tokens hu
    rw [hname, Lexeme.isValid, isVariableName, Bool.and_eq_true] at hvalid
    exact hvalid.1
  | @final problem hend =>
    refine ⟨.inr rfl, (by rintro ⟨⟩), fun _ => ?_⟩
    -- A text without tokens parses or has the fault behind them, so here there is a last one.
    have hsome : (Lexer.ofText source).stream.tokens ≠ [] := by
      intro hnil
      rw [hnone hnil] at hend
      cases hend
    obtain ⟨t, hlast, hplace⟩ := Stream.final_of_ne_nil hsome
    have ht := List.mem_of_getLast? hlast
    obtain ⟨hline, hcolumn, hlater⟩ := place_of_token ht
    rw [hplace] at hline hcolumn hlater
    refine ⟨hline, hcolumn, ⟨t, ht, hplace⟩, hlater, fun _ _ _ => ⟨_, t, ?_, hlast, hplace⟩⟩
    rw [tokenize_eq_ok_iff, ← hend]
    rfl

end Scriptlet

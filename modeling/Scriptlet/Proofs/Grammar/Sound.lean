/-
  Scriptlet.Proofs.Grammar.Sound

  Whatever the parser accepts has a derivation: `Parser.sound`, by induction on
  the fuel with one lemma for each parser, and `parse_derives` for whole texts.
-/
import Scriptlet.Proofs.Grammar

namespace Scriptlet

namespace Stream

/-- The lexemes ahead. -/
def lexemes (s : Stream) : List Lexeme := s.tokens.map Token.lexeme

/-- A successful reading: the lexemes are derived and what stands behind them
    is kept. -/
structure Reads (s : Stream) (g : Goal) (v : g.Result) (r : Stream) : Prop where
  derives : Derives g s.lexemes v r.lexemes
  ending : r.ending = s.ending

@[simp] theorem lexemes_mk (ts : List Token) (e : Option Fault) (p : Position) :
    (Stream.mk ts e p).lexemes = ts.map Token.lexeme := by
  rw [lexemes]

end Stream

namespace Parser

variable {α β : Type} {s r : Stream}

/-! ## Sequencing and single tokens

What a success of each of the small parsers says, in terms of the lexemes
ahead. -/

/-- A sequence succeeds exactly when both of its parts do. -/
theorem bind_ok {p : Parser α} {f : α → Parser β} {b : β} :
    (p >>= f) s = .ok b r ↔ ∃ a s₁, p s = .ok a s₁ ∧ f a s₁ = .ok b r := by
  simp only [Bind.bind]
  cases p s <;> simp

theorem pure_ok {a b : α} : (pure a : Parser α) s = .ok b r ↔ a = b ∧ s = r := by
  show Reply.ok a s = .ok b r ↔ _
  simp

/-- A refusal never succeeds, whatever token it points at. -/
theorem refuse_ok {t? : Option Token} {problem : ParseProblem} {a : α} :
    ¬ (refuse t? problem : Parser α) s = .ok a r := by
  cases t? <;> simp [refuse]

/-- Looking ahead moves nothing, and finds no token only where no fault stands either. -/
theorem peek_ok {t? : Option Token} (h : peek s = .ok t? r) :
    r = s ∧ t? = s.tokens.head? ∧ (s.tokens = [] → s.ending = none) := by
  rcases s with ⟨tokens, ending, last⟩
  cases tokens <;> cases ending <;> simp_all [peek]

/-- Taking a token consumes its lexeme; at the end of the input nothing moves. -/
theorem next_ok {t? : Option Token} (h : next s = .ok t? r) :
    (∃ t, t? = some t ∧ s.lexemes = t.lexeme :: r.lexemes ∧ r.ending = s.ending) ∨
      (t? = none ∧ s.tokens = [] ∧ r = s) := by
  rcases s with ⟨tokens, ending, last⟩
  rcases tokens with _ | ⟨t, ts⟩
  · cases ending <;> simp_all [next]
  · left
    simp only [next, Reply.ok.injEq] at h
    obtain ⟨rfl, rfl⟩ := h
    exact ⟨t, rfl, rfl, rfl⟩

theorem next_ok_cons {t : Token} {ts : List Token} {t? : Option Token} (hs : s.tokens = t :: ts)
    (h : next s = .ok t? r) : s.lexemes = t.lexeme :: r.lexemes ∧ r.ending = s.ending := by
  rcases next_ok h with ⟨u, hu, hl, he⟩ | ⟨_, hnil, _⟩
  · have : t.lexeme = u.lexeme := by
      rw [Stream.lexemes, hs] at hl
      exact (List.cons.inj hl).1
    exact ⟨this ▸ hl, he⟩
  · -- The tokens are not empty, so `next` cannot have found the end.
    rw [hs] at hnil
    exact absurd hnil (by simp)

theorem next_ok_head {l : Lexeme} {ls : List Lexeme} {t? : Option Token} (hl : s.lexemes = l :: ls)
    (h : next s = .ok t? r) : s.lexemes = l :: r.lexemes ∧ r.ending = s.ending := by
  obtain ⟨t, ts, hs, rfl, _⟩ := List.map_eq_cons_iff.mp hl
  exact next_ok_cons hs h

theorem take_ok {t : Token} {ts : List Token} {a b : α} (hs : s.tokens = t :: ts)
    (h : take a s = .ok b r) :
    a = b ∧ s.lexemes = t.lexeme :: r.lexemes ∧ r.ending = s.ending := by
  rw [take, bind_ok] at h
  obtain ⟨_, s₁, hn, h⟩ := h
  obtain ⟨rfl, rfl⟩ := pure_ok.mp h
  exact ⟨rfl, next_ok_cons hs hn⟩

theorem isNext_ok {l : Lexeme} {b : Bool} (h : isNext l s = .ok b r) :
    r = s ∧ (b = true ↔ s.lexemes.head? = some l) := by
  rw [isNext, bind_ok] at h
  obtain ⟨t?, s₁, hp, h⟩ := h
  obtain ⟨rfl, rfl, _⟩ := peek_ok hp
  obtain ⟨rfl, rfl⟩ := pure_ok.mp h
  refine ⟨rfl, ?_⟩
  rcases s₁ with ⟨_ | ⟨t, ts⟩, ending, last⟩ <;> simp

/-- A punctuation mark that is asked for is the lexeme ahead. -/
theorem mark_ok {m : Bytes} {u : Unit} (h : mark m s = .ok u r) :
    s.lexemes = .punctuation m :: r.lexemes ∧ r.ending = s.ending := by
  rw [mark, bind_ok] at h
  obtain ⟨t?, s₁, hp, h⟩ := h
  obtain ⟨rfl, rfl, _⟩ := peek_ok hp
  split at h
  · rename_i hany
    rcases hs : s₁.tokens with _ | ⟨t, ts⟩
    · simp [hs] at hany
    · have ht : t.lexeme = .punctuation m := by simpa [hs] using hany
      exact ht ▸ (take_ok hs h).2
  · -- Anything else ahead is refused.
    exact absurd h refuse_ok

/-- An optional keyword is consumed where it stands, and its absence consumes nothing. -/
theorem optionalKeyword_ok {w : Bytes} {u : Unit} (h : optionalKeyword w s = .ok u r) :
    (s.lexemes = .keyword w :: r.lexemes ∨
      s.lexemes.head? ≠ some (.keyword w) ∧ r.lexemes = s.lexemes) ∧ r.ending = s.ending := by
  rw [optionalKeyword, bind_ok] at h
  obtain ⟨b, s₁, hn, h⟩ := h
  obtain ⟨rfl, hb⟩ := isNext_ok hn
  split at h
  · rename_i hyes
    rcases hs : s₁.tokens with _ | ⟨t, ts⟩
    · simp [hyes, Stream.lexemes, hs] at hb
    · have ht : t.lexeme = .keyword w := by simpa [hyes, Stream.lexemes, hs] using hb
      exact ⟨.inl (ht ▸ (take_ok hs h).2.1), (take_ok hs h).2.2⟩
  · rename_i hno
    obtain ⟨_, rfl⟩ := pure_ok.mp h
    exact ⟨.inr ⟨fun hl => hno (hb.mpr hl), rfl⟩, rfl⟩

/-- Behind a statement stands a line break or the end of the input. -/
theorem separator_ok {u : Unit} (h : separator s = .ok u r) :
    (s.lexemes = .punctuation Lexeme.newline :: r.lexemes ∨
      s.lexemes = [] ∧ r.lexemes = []) ∧ r.ending = s.ending := by
  rw [separator, bind_ok] at h
  obtain ⟨t?, s₁, hp, h⟩ := h
  obtain ⟨rfl, rfl, _⟩ := peek_ok hp
  split at h
  · -- A token ahead has to be the line break.
    exact ⟨.inl (mark_ok h).1, (mark_ok h).2⟩
  · rename_i hnone
    obtain ⟨_, rfl⟩ := pure_ok.mp h
    have hnil : s₁.lexemes = [] := by
      rcases s₁ with ⟨_ | ⟨t, ts⟩, ending, last⟩ <;> simp_all
    exact ⟨.inr ⟨hnil, hnil⟩, rfl⟩

/-- A name that is asked for is the lexeme ahead. -/
theorem identifier_ok {name : Name} (h : identifier s = .ok name r) :
    s.lexemes = .identifier name :: r.lexemes ∧ r.ending = s.ending := by
  rw [identifier, bind_ok] at h
  obtain ⟨t?, s₁, hn, h⟩ := h
  split at h
  · obtain ⟨rfl, rfl⟩ := pure_ok.mp h
    rcases next_ok hn with ⟨t, ht, hl, he⟩ | ⟨ht, _⟩
    · cases ht
      exact ⟨hl, he⟩
    · cases ht
  · exact absurd h refuse_ok

/-! ## Lists in parentheses -/

/-- The rules of a goal that reads items up to a closing parenthesis, `g` being
    told whether the first item is still to come. -/
structure ListRules (item : List Lexeme → α → List Lexeme → Prop)
    (list : Bool → List Lexeme → List α → List Lexeme → Prop) : Prop where
  none : ∀ first s, list first (.punctuation (text ")") :: s) [] (.punctuation (text ")") :: s)
  first : ∀ {s x s₁ xs r}, item s x s₁ → list false s₁ xs r → list true s (x :: xs) r
  lastComma : ∀ s, list false (.punctuation (text ",") :: .punctuation (text ")") :: s) []
    (.punctuation (text ")") :: s)
  next : ∀ {s x s₁ xs r}, item s x s₁ → list false s₁ xs r →
    list false (.punctuation (text ",") :: s) (x :: xs) r

/-- What the loop over the items of a list accepts is a list of its rules. The induction is on
the fuel, and `first` records whether a comma has to come before the next item. -/
theorem items_ok {item : Parser α} {reads : List Lexeme → α → List Lexeme → Prop}
    {list : Bool → List Lexeme → List α → List Lexeme → Prop} (rules : ListRules reads list)
    (hitem : ∀ {s x r}, item s = .ok x r → reads s.lexemes x r.lexemes ∧ r.ending = s.ending)
    {fuel : Nat} {first : Bool} {xs : List α} (h : items item fuel first s = .ok xs r) :
    list first s.lexemes xs r.lexemes ∧ r.ending = s.ending := by
  induction fuel generalizing first s xs with
  | zero => simp [items, starve] at h
  | succ fuel ih =>
    rw [items, bind_ok] at h
    obtain ⟨b, s₁, hn, h⟩ := h
    obtain ⟨rfl, hb⟩ := isNext_ok hn
    split at h
    -- A closing parenthesis ahead ends the list and stays.
    · rename_i hyes
      obtain ⟨rfl, rfl⟩ := pure_ok.mp h
      obtain ⟨tail, hl⟩ := List.head?_eq_some_iff.mp (hb.mp hyes)
      rw [hl]
      exact ⟨rules.none first tail, rfl⟩
    split at h
    · -- The first item follows the opening parenthesis without a comma.
      rename_i hfirst
      rw [bind_ok] at h
      obtain ⟨x, s₂, hx, h⟩ := h
      rw [bind_ok] at h
      obtain ⟨xs', s₃, hxs, h⟩ := h
      obtain ⟨rfl, rfl⟩ := pure_ok.mp h
      obtain ⟨dx, ex⟩ := hitem hx
      obtain ⟨dxs, exs⟩ := ih hxs
      subst hfirst
      exact ⟨rules.first dx dxs, exs.trans ex⟩
    · rename_i hlater
      -- Behind an item a comma comes first, and the list may end after it.
      obtain rfl : first = false := by simpa using hlater
      rw [bind_ok] at h
      obtain ⟨_, s₂, hm, h⟩ := h
      obtain ⟨hl, he⟩ := mark_ok hm
      rw [bind_ok] at h
      -- A closing parenthesis behind the comma ends the list as well.
      obtain ⟨b', s₃, hn', h⟩ := h
      obtain ⟨rfl, hb'⟩ := isNext_ok hn'
      split at h
      · rename_i hyes
        obtain ⟨rfl, rfl⟩ := pure_ok.mp h
        obtain ⟨tail, hl'⟩ := List.head?_eq_some_iff.mp (hb'.mp hyes)
        rw [hl, hl']
        exact ⟨rules.lastComma tail, he⟩
      · rw [bind_ok] at h
        obtain ⟨x, s₄, hx, h⟩ := h
        rw [bind_ok] at h
        obtain ⟨xs', s₅, hxs, h⟩ := h
        obtain ⟨rfl, rfl⟩ := pure_ok.mp h
        obtain ⟨dx, ex⟩ := hitem hx
        obtain ⟨dxs, exs⟩ := ih hxs
        rw [hl]
        exact ⟨rules.next dx dxs, (exs.trans ex).trans he⟩

/-- A list in parentheses: both marks are consumed, and between them stands a list of the rules.
-/
theorem delimited_ok {item : Parser α} {reads : List Lexeme → α → List Lexeme → Prop}
    {list : Bool → List Lexeme → List α → List Lexeme → Prop} (rules : ListRules reads list)
    (hitem : ∀ {s x r}, item s = .ok x r → reads s.lexemes x r.lexemes ∧ r.ending = s.ending)
    {fuel : Nat} {xs : List α} (h : delimited item fuel s = .ok xs r) :
    ∃ inside, s.lexemes = .punctuation (text "(") :: inside ∧
      list true inside xs (.punctuation (text ")") :: r.lexemes) ∧ r.ending = s.ending := by
  rw [delimited, bind_ok] at h
  obtain ⟨_, s₁, hopen, h⟩ := h
  rw [bind_ok] at h
  obtain ⟨xs', s₂, hitems, h⟩ := h
  rw [bind_ok] at h
  obtain ⟨_, s₃, hclose, h⟩ := h
  obtain ⟨rfl, rfl⟩ := pure_ok.mp h
  obtain ⟨lopen, eopen⟩ := mark_ok hopen
  -- The items are read up to the parenthesis that closes them.
  obtain ⟨ditems, eitems⟩ := items_ok rules hitem hitems
  obtain ⟨lclose, eclose⟩ := mark_ok hclose
  exact ⟨s₁.lexemes, lopen, lclose ▸ ditems, (eclose.trans eitems).trans eopen⟩

/-- The arguments of a call are such a list of expressions. -/
theorem argumentRules :
    ListRules (Derives .expression) fun first => Derives (.arguments first) where
  none _ _ := .noArguments rfl
  first := .firstArgument
  lastComma _ := .lastComma rfl rfl
  next := .nextArgument rfl

/-- The parameters of a function are such a list of names. -/
theorem parameterRules :
    ListRules (fun s name r => s = .identifier name :: r)
      fun first => Derives (.parameters first) where
  none _ _ := .noParameters rfl
  first hx hxs := hx ▸ .firstParameter hxs
  lastComma _ := .lastParameterComma rfl rfl
  next hx hxs := hx ▸ .nextParameter rfl hxs

/-! ## The grammar -/

/-- Every success of the parsers with this much fuel is a derivation. -/
structure Sound (fuel : Nat) : Prop where
  expression : ∀ {s x r}, expression fuel s = .ok x r → s.Reads .expression x r
  climb : ∀ {s l level x r}, climb fuel l level s = .ok x r → s.Reads (.climb l level) x r
  atom : ∀ {s x r}, atom fuel s = .ok x r → s.Reads .atom x r
  calls : ∀ {s f x r}, calls fuel f s = .ok x r → s.Reads (.calls f) x r
  operand : ∀ {s x r}, operand fuel s = .ok x r → s.Reads .operand x r
  function : ∀ {s x r}, function fuel s = .ok x r →
    ∀ w, w = text "func" →
      Derives .operand (.keyword w :: s.lexemes) x r.lexemes ∧ r.ending = s.ending
  tail : ∀ {s t r}, tail fuel s = .ok t r → s.Reads .tail t r
  body : ∀ {s branching b r}, body fuel branching s = .ok b r → s.Reads (.body branching) b r
  statements : ∀ {s branching ss r}, statements fuel branching s = .ok ss r →
    s.Reads (.statements branching) ss r

variable {fuel : Nat} {x : Node}

/-- An expression is an atom, and the climb that takes the atom as its left operand. -/
theorem Sound.expression_succ (ih : Sound fuel) (h : Parser.expression (fuel + 1) s = .ok x r) :
    s.Reads .expression x r := by
  rw [Parser.expression, bind_ok] at h
  obtain ⟨l, s₁, ha, hc⟩ := h
  obtain ⟨da, ea⟩ := ih.atom ha
  obtain ⟨dc, ec⟩ := ih.climb hc
  exact ⟨.expression da dc, ec.trans ea⟩

theorem Sound.atom_succ (ih : Sound fuel) (h : Parser.atom (fuel + 1) s = .ok x r) :
    s.Reads .atom x r := by
  rw [Parser.atom, bind_ok] at h
  obtain ⟨f, s₁, ho, hc⟩ := h
  obtain ⟨d, e⟩ := ih.operand ho
  obtain ⟨dc, ec⟩ := ih.calls hc
  exact ⟨.atom d dc, ec.trans e⟩

/-- One turn of the climb: it ends at a lexeme that is no operator or at one that binds no
tighter than `level`, and otherwise takes the operator with its right operand. -/
theorem Sound.climb_succ (ih : Sound fuel) {l : Node} {level : Nat}
    (h : Parser.climb (fuel + 1) l level s = .ok x r) : s.Reads (.climb l level) x r := by
  rw [Parser.climb, bind_ok] at h
  obtain ⟨t?, s₁, hp, h⟩ := h
  obtain ⟨rfl, rfl, _⟩ := peek_ok hp
  rcases hs : s₁.tokens with _ | ⟨⟨lexeme, p⟩, ts⟩
  · -- At the end of the input the operand is the whole expression.
    simp only [hs, List.head?_nil] at h
    obtain ⟨rfl, rfl⟩ := pure_ok.mp h
    exact ⟨.climbed (by rw [Stream.lexemes, hs]; exact trivial), rfl⟩
  · cases lexeme with
    | operator op =>
      simp only [hs, List.head?_cons] at h
      -- An operator without precedence is refused; one that binds no tighter ends.
      split at h
      · exact absurd h refuse_ok
      split at h
      · rename_i hpos hle
        obtain ⟨rfl, rfl⟩ := pure_ok.mp h
        refine ⟨.climbed ?_, rfl⟩
        rw [Stream.lexemes, hs]
        exact ⟨Nat.pos_of_ne_zero hpos, hle⟩
      · rename_i hlt
        rw [bind_ok] at h
        obtain ⟨_, s₂, hn, h⟩ := h
        rw [bind_ok] at h
        obtain ⟨y, s₃, hy, h⟩ := h
        rw [bind_ok] at h
        obtain ⟨z, s₄, hz, h⟩ := h
        obtain ⟨ln, en⟩ := next_ok_cons hs hn
        -- The right operand climbs at the level of the operator, and the loop goes
        -- on at the level it had.
        obtain ⟨dy, ey⟩ := ih.atom hy
        obtain ⟨dz, ez⟩ := ih.climb hz
        obtain ⟨dx, ex⟩ := ih.climb h
        refine ⟨?_, ((ex.trans ez).trans ey).trans en⟩
        rw [ln]
        exact .climb (Nat.lt_of_not_le hlt) dy dz dx
    -- Any other lexeme leaves the operand as it is.
    | _ =>
      simp only [hs, List.head?_cons] at h
      obtain ⟨rfl, rfl⟩ := pure_ok.mp h
      exact ⟨.climbed (by rw [Stream.lexemes, hs]; exact trivial), rfl⟩

/-- Argument lists are taken as long as an opening parenthesis is ahead. -/
theorem Sound.calls_succ (ih : Sound fuel) {f : Node}
    (h : Parser.calls (fuel + 1) f s = .ok x r) : s.Reads (.calls f) x r := by
  rw [Parser.calls, bind_ok] at h
  obtain ⟨b, s₁, hn, h⟩ := h
  obtain ⟨rfl, hb⟩ := isNext_ok hn
  split at h
  · -- The call is the function of the calls behind it.
    rw [bind_ok] at h
    obtain ⟨as, s₂, has, h⟩ := h
    obtain ⟨inside, ls, das, eas⟩ := delimited_ok argumentRules
      (fun hx => ⟨(ih.expression hx).derives, (ih.expression hx).ending⟩) has
    obtain ⟨dc, ec⟩ := ih.calls h
    refine ⟨?_, ec.trans eas⟩
    rw [ls]
    exact .call rfl rfl das dc
  · rename_i hno
    obtain ⟨rfl, rfl⟩ := pure_ok.mp h
    exact ⟨.uncalled fun hl => hno (hb.mpr hl), rfl⟩

/-- A function literal, its `func` already taken. -/
theorem Sound.function_succ (ih : Sound fuel) (h : Parser.function (fuel + 1) s = .ok x r)
    (w : Bytes) (hw : w = text "func") :
    Derives .operand (.keyword w :: s.lexemes) x r.lexemes ∧ r.ending = s.ending := by
  rw [Parser.function, bind_ok] at h
  obtain ⟨name, s₁, hname, h⟩ := h
  rw [bind_ok] at h
  obtain ⟨opening, s₂, hp, h⟩ := h
  obtain ⟨rfl, rfl, _⟩ := peek_ok hp
  rw [bind_ok] at h
  obtain ⟨ps, s₃, hps, h⟩ := h
  obtain ⟨lname, ename⟩ := identifier_ok hname
  obtain ⟨inside, ls, dps, eps⟩ := delimited_ok parameterRules
    (fun hx => identifier_ok hx) hps
  -- Two parameters of one name are refused before the body is read.
  cases hdistinct : repeated? [] ps with
  | some name' =>
    simp only [hdistinct] at h
    exact absurd h refuse_ok
  | none =>
    simp only [hdistinct] at h
    rw [bind_ok] at h
    obtain ⟨b, s₄, hb, h⟩ := h
    obtain ⟨db, eb⟩ := ih.body hb
    -- An inline body is the value of the function, other bodies are kept.
    have hx : x = .func name ps b.returning ∧ r = s₄ := by
      split at h
      · obtain ⟨rfl, rfl⟩ := pure_ok.mp h
        exact ⟨rfl, rfl⟩
      · rename_i hblock
        obtain ⟨rfl, rfl⟩ := pure_ok.mp h
        refine ⟨?_, rfl⟩
        rw [Block.returning]
        exact hblock
    obtain ⟨rfl, rfl⟩ := hx
    refine ⟨?_, (eb.trans eps).trans ename⟩
    rw [lname, ls]
    exact .func hw rfl rfl dps hdistinct db

/-- The condition, the body and the branches behind it that stand behind `if` and behind `elif`. -/
theorem Sound.branches_ok (ih : Sound fuel) {make : Node → Block → Tail → α} {a : α}
    (h : (do
      let c ← Parser.expression fuel
      let b ← Parser.body fuel true
      let t ← Parser.tail fuel
      return make c b t : Parser α) s = .ok a r) :
    ∃ c b t ls ms, a = make c b t ∧ Derives .expression s.lexemes c ls ∧
      Derives (.body true) ls b ms ∧ Derives .tail ms t r.lexemes ∧ r.ending = s.ending := by
  rw [bind_ok] at h
  obtain ⟨c, s₁, hc, h⟩ := h
  rw [bind_ok] at h
  obtain ⟨b, s₂, hb, h⟩ := h
  rw [bind_ok] at h
  obtain ⟨t, s₃, ht, h⟩ := h
  obtain ⟨rfl, rfl⟩ := pure_ok.mp h
  obtain ⟨dc, ec⟩ := ih.expression hc
  obtain ⟨db, eb⟩ := ih.body hb
  obtain ⟨dt, et⟩ := ih.tail ht
  exact ⟨c, b, t, _, _, rfl, dc, db, dt, (et.trans eb).trans ec⟩

/-- The constructs that start with a keyword. -/
theorem Sound.keyword_succ (ih : Sound fuel) {w : Bytes} {p : Position} {ts : List Token}
    (hs : s.tokens = ⟨.keyword w, p⟩ :: ts) (h : Parser.operand (fuel + 1) s = .ok x r) :
    s.Reads .operand x r := by
  have hl : s.lexemes = .keyword w :: ts.map Token.lexeme := by rw [Stream.lexemes, hs]; rfl
  rw [Parser.operand, bind_ok] at h
  obtain ⟨t?, s₁, hp, h⟩ := h
  obtain ⟨rfl, rfl, _⟩ := peek_ok hp
  -- One test for each word, in the order of the parser.
  simp only [hs, List.head?_cons, beq_iff_eq] at h
  split at h
  · -- `True`
    rename_i hw
    obtain ⟨rfl, ln, en⟩ := take_ok hs h
    exact ⟨ln ▸ .bool (b := true) hw, en⟩
  split at h
  · -- `False`
    rename_i hw
    obtain ⟨rfl, ln, en⟩ := take_ok hs h
    exact ⟨ln ▸ .bool (b := false) hw, en⟩
  split at h
  · -- `if`
    rename_i hw
    rw [bind_ok] at h
    obtain ⟨_, s₂, hn, h⟩ := h
    obtain ⟨ln, en⟩ := next_ok_cons hs hn
    obtain ⟨c, b, t, _, _, rfl, dc, db, dt, e⟩ := ih.branches_ok h
    exact ⟨ln ▸ .branch hw dc db dt, e.trans en⟩
  split at h
  · -- `while`
    rename_i hw
    rw [bind_ok] at h
    obtain ⟨_, s₂, hn, h⟩ := h
    obtain ⟨ln, en⟩ := next_ok_cons hs hn
    rw [bind_ok] at h
    obtain ⟨c, s₃, hc, h⟩ := h
    rw [bind_ok] at h
    obtain ⟨b, s₄, hb, h⟩ := h
    obtain ⟨rfl, rfl⟩ := pure_ok.mp h
    obtain ⟨dc, ec⟩ := ih.expression hc
    obtain ⟨db, eb⟩ := ih.body hb
    exact ⟨ln ▸ .loop hw dc db, (eb.trans ec).trans en⟩
  split at h
  · -- `return`
    rename_i hw
    rw [bind_ok] at h
    obtain ⟨_, s₂, hn, h⟩ := h
    obtain ⟨ln, en⟩ := next_ok_cons hs hn
    rw [bind_ok] at h
    obtain ⟨v, s₃, hv, h⟩ := h
    obtain ⟨rfl, rfl⟩ := pure_ok.mp h
    obtain ⟨dv, ev⟩ := ih.expression hv
    exact ⟨ln ▸ .ret hw dv, ev.trans en⟩
  split at h
  · -- `func`, whose name, parameters and body are read by a parser of their own.
    rename_i hw
    rw [bind_ok] at h
    obtain ⟨_, s₂, hn, h⟩ := h
    obtain ⟨ln, en⟩ := next_ok_cons hs hn
    obtain ⟨df, ef⟩ := ih.function h w hw
    exact ⟨ln ▸ df, ef.trans en⟩
  · -- No other keyword starts an operand.
    exact absurd h refuse_ok

/-- An operand is a literal, a name, a prefix operator with its atom, an expression in
parentheses or a construct of a keyword. -/
theorem Sound.operand_succ (ih : Sound fuel) (h : Parser.operand (fuel + 1) s = .ok x r) :
    s.Reads .operand x r := by
  -- The keywords have a lemma of their own, which wants the success as it was.
  have h₀ := h
  rw [Parser.operand, bind_ok] at h
  obtain ⟨t?, s₁, hp, h⟩ := h
  obtain ⟨rfl, rfl, _⟩ := peek_ok hp
  rcases hs : s₁.tokens with _ | ⟨⟨lexeme, p⟩, ts⟩
  · simp only [hs, List.head?_nil] at h
    exact absurd h refuse_ok
  simp only [hs, List.head?_cons] at h
  cases lexeme with
  | identifier name =>
    obtain ⟨rfl, ln, en⟩ := take_ok hs h
    exact ⟨ln ▸ .ident, en⟩
  | string contents =>
    obtain ⟨rfl, ln, en⟩ := take_ok hs h
    exact ⟨ln ▸ .str, en⟩
  | integer literal n =>
    obtain ⟨rfl, ln, en⟩ := take_ok hs h
    exact ⟨ln ▸ .int, en⟩
  | float literal d =>
    obtain ⟨rfl, ln, en⟩ := take_ok hs h
    exact ⟨ln ▸ .float, en⟩
  | operator op =>
    dsimp only at h
    split at h
    · rename_i hop
      rw [bind_ok] at h
      obtain ⟨_, s₂, hn, h⟩ := h
      obtain ⟨ln, en⟩ := next_ok_cons hs hn
      rw [bind_ok] at h
      obtain ⟨y, s₃, hy, h⟩ := h
      obtain ⟨rfl, rfl⟩ := pure_ok.mp h
      obtain ⟨dy, ey⟩ := ih.atom hy
      exact ⟨ln ▸ .unary (by simpa using hop) dy, ey.trans en⟩
    · -- Only `!` and `-` stand before an operand.
      exact absurd h refuse_ok
  | punctuation m =>
    dsimp only at h
    split at h
    · rename_i hm
      rw [bind_ok] at h
      obtain ⟨_, s₂, hn, h⟩ := h
      obtain ⟨ln, en⟩ := next_ok_cons hs hn
      rw [bind_ok] at h
      obtain ⟨y, s₃, hy, h⟩ := h
      rw [bind_ok] at h
      obtain ⟨_, s₄, hclose, h⟩ := h
      obtain ⟨rfl, rfl⟩ := pure_ok.mp h
      obtain ⟨dy, ey⟩ := ih.expression hy
      obtain ⟨lclose, eclose⟩ := mark_ok hclose
      exact ⟨ln ▸ .group (eq_of_beq hm) rfl (lclose ▸ dy), (eclose.trans ey).trans en⟩
    · -- Only `(` opens an operand.
      exact absurd h refuse_ok
  | keyword w => exact ih.keyword_succ hs h₀

/-- The branches behind an `if` body, one at a time. -/
theorem Sound.tail_succ (ih : Sound fuel) {t : Tail} (h : Parser.tail (fuel + 1) s = .ok t r) :
    s.Reads .tail t r := by
  rw [Parser.tail, bind_ok] at h
  obtain ⟨b, s₁, hn, h⟩ := h
  obtain ⟨rfl, hb⟩ := isNext_ok hn
  split at h
  · rename_i hyes
    -- `elif`
    obtain ⟨ls, hl⟩ := List.head?_eq_some_iff.mp (hb.mp hyes)
    rw [bind_ok] at h
    obtain ⟨_, s₂, hnext, h⟩ := h
    obtain ⟨ln, en⟩ := next_ok_head hl hnext
    obtain ⟨c, b', t', _, _, rfl, dc, db, dt, e⟩ := ih.branches_ok h
    exact ⟨ln ▸ .elif rfl dc db dt, e.trans en⟩
  rename_i helif
  rw [bind_ok] at h
  obtain ⟨b', s₂, hn', h⟩ := h
  obtain ⟨rfl, hb'⟩ := isNext_ok hn'
  split at h
  · rename_i hyes
    -- `else`
    obtain ⟨ls, hl⟩ := List.head?_eq_some_iff.mp (hb'.mp hyes)
    rw [bind_ok] at h
    obtain ⟨_, s₃, hnext, h⟩ := h
    rw [bind_ok] at h
    obtain ⟨b'', s₄, hb'', h⟩ := h
    obtain ⟨rfl, rfl⟩ := pure_ok.mp h
    obtain ⟨db, eb⟩ := ih.body hb''
    obtain ⟨ln, en⟩ := next_ok_head hl hnext
    exact ⟨ln ▸ .else rfl db, eb.trans en⟩
  · rename_i helse
    -- Neither word is ahead, so the conditional ends here.
    obtain ⟨rfl, rfl⟩ := pure_ok.mp h
    exact ⟨.noTail (fun hl => helif (hb.mpr hl)) (fun hl => helse (hb'.mpr hl)), rfl⟩

/-- The statements of a block up to the word that closes it. In a branch `else` and `elif` close
it too, and they are left for the conditional to read. -/
theorem Sound.statements_succ (ih : Sound fuel) {branching : Bool} {ss : List Node}
    (h : Parser.statements (fuel + 1) branching s = .ok ss r) :
    s.Reads (.statements branching) ss r := by
  rw [Parser.statements, bind_ok] at h
  obtain ⟨t?, s₁, hp, h⟩ := h
  obtain ⟨rfl, rfl, _⟩ := peek_ok hp
  rcases hs : s₁.tokens with _ | ⟨t, ts⟩
  · -- A block has to be closed before the input ends.
    simp only [hs, List.head?_nil] at h
    exact absurd h refuse_ok
  have hl : s₁.lexemes = t.lexeme :: ts.map Token.lexeme := by rw [Stream.lexemes, hs]; rfl
  simp only [hs, List.head?_cons] at h
  split at h
  · rename_i hcloses
    rw [bind_ok] at h
    obtain ⟨_, s₂, hend, h⟩ := h
    obtain ⟨rfl, rfl⟩ := pure_ok.mp h
    obtain ⟨hend, eend⟩ := optionalKeyword_ok hend
    rcases hend with lend | ⟨hne, lend⟩
    · exact ⟨lend ▸ .blockEnd rfl, eend⟩
    · -- The word is not `end`, so it starts the next branch.
      obtain ⟨w, hw⟩ : ∃ w, t.lexeme = .keyword w := by
        cases hlex : t.lexeme <;> simp_all [closes]
      rw [hl, hw] at hne
      have hturn : branching = true ∧ (w = text "else" ∨ w = text "elif") := by
        rw [hw] at hcloses
        simp only [List.head?_cons, ne_eq, Option.some.injEq, Lexeme.keyword.injEq] at hne
        simpa [closes, hne] using hcloses
      obtain ⟨rfl, hturn⟩ := hturn
      refine ⟨?_, eend⟩
      rw [lend, hl, hw]
      exact .blockTurn hturn
  · -- Any other lexeme starts a statement.
    rw [bind_ok] at h
    obtain ⟨x, s₂, hx, h⟩ := h
    rw [bind_ok] at h
    obtain ⟨_, s₃, hsep, h⟩ := h
    rw [bind_ok] at h
    obtain ⟨xs, s₄, hxs, h⟩ := h
    obtain ⟨rfl, rfl⟩ := pure_ok.mp h
    obtain ⟨dx, ex⟩ := ih.expression hx
    obtain ⟨dxs, exs⟩ := ih.statements hxs
    obtain ⟨hsep, esep⟩ := separator_ok hsep
    rcases hsep with lsep | ⟨_, lnil⟩
    · exact ⟨.statement rfl (lsep ▸ dx) dxs, (exs.trans esep).trans ex⟩
    · -- No statements and no closing word can follow the end of the input.
      rw [lnil] at dxs
      exact absurd dxs not_derives_statements_nil

/-- A body is a block behind a line break, or a single expression on the same line. -/
theorem Sound.body_succ (ih : Sound fuel) {branching : Bool} {b : Block}
    (h : Parser.body (fuel + 1) branching s = .ok b r) : s.Reads (.body branching) b r := by
  rw [Parser.body, bind_ok] at h
  obtain ⟨yes, s₁, hn, h⟩ := h
  obtain ⟨rfl, hb⟩ := isNext_ok hn
  split at h
  · rename_i hyes
    obtain ⟨ls, hl⟩ := List.head?_eq_some_iff.mp (hb.mp hyes)
    rw [bind_ok] at h
    obtain ⟨_, s₂, hnext, h⟩ := h
    rw [bind_ok] at h
    obtain ⟨ss, s₃, hss, h⟩ := h
    obtain ⟨rfl, rfl⟩ := pure_ok.mp h
    -- A line break ahead starts a block on lines of its own.
    obtain ⟨dss, ess⟩ := ih.statements hss
    obtain ⟨ln, en⟩ := next_ok_head hl hnext
    exact ⟨ln ▸ .block rfl dss, ess.trans en⟩
  · rw [bind_ok] at h
    obtain ⟨x, s₂, hx, h⟩ := h
    rw [bind_ok] at h
    obtain ⟨_, s₃, hend, h⟩ := h
    obtain ⟨rfl, rfl⟩ := pure_ok.mp h
    obtain ⟨dx, ex⟩ := ih.expression hx
    -- An inline body takes an `end` that stands behind it.
    obtain ⟨hend, eend⟩ := optionalKeyword_ok hend
    rcases hend with lend | ⟨hne, lend⟩
    · exact ⟨.inlineEnd rfl (lend ▸ dx), eend.trans ex⟩
    · exact ⟨lend ▸ .inline dx hne, eend.trans ex⟩

/-- Every success of the parsers is a derivation. -/
theorem sound (fuel : Nat) : Sound fuel := by
  induction fuel with
  | zero =>
    -- Without fuel no parser succeeds.
    exact ⟨nofun, nofun, nofun, nofun, nofun, nofun, nofun, nofun, nofun⟩
  | succ fuel ih =>
    exact ⟨ih.expression_succ, ih.climb_succ, ih.atom_succ, ih.calls_succ, ih.operand_succ,
      ih.function_succ, ih.tail_succ, ih.body_succ, ih.statements_succ⟩

/-- A program is read to the end of its tokens, and no fault stands there. -/
theorem program_ok {ss : List Node} (h : program fuel s = .ok ss r) :
    Derives .program s.lexemes ss [] ∧ r.tokens = [] ∧ s.ending = none := by
  induction fuel generalizing s ss with
  | zero => simp [program, starve] at h
  | succ fuel ih =>
    rw [program, bind_ok] at h
    obtain ⟨t?, s₁, hp, h⟩ := h
    obtain ⟨rfl, rfl, hend⟩ := peek_ok hp
    rcases hs : s₁.tokens with _ | ⟨t, ts⟩
    · simp only [hs, List.head?_nil, Option.isSome_none, Bool.false_eq_true, if_false] at h
      obtain ⟨rfl, rfl⟩ := pure_ok.mp h
      rw [Stream.lexemes, hs]
      exact ⟨.finished, rfl, hend hs⟩
    · simp only [hs, List.head?_cons, Option.isSome_some, if_true] at h
      rw [bind_ok] at h
      obtain ⟨x, s₂, hx, h⟩ := h
      rw [bind_ok] at h
      obtain ⟨_, s₃, hsep, h⟩ := h
      rw [bind_ok] at h
      obtain ⟨xs, s₄, hxs, h⟩ := h
      obtain ⟨rfl, rfl⟩ := pure_ok.mp h
      obtain ⟨dx, ex⟩ := (sound fuel).expression hx
      obtain ⟨dxs, hr, hnone⟩ := ih hxs
      obtain ⟨hsep, esep⟩ := separator_ok hsep
      refine ⟨?_, hr, by rw [← ex, ← esep, hnone]⟩
      rcases hsep with lsep | ⟨lnil, lnil'⟩
      · exact .line rfl (lsep ▸ dx) dxs
      -- Without a separator the input is at its end, and nothing more was read.
      · rw [lnil'] at dxs
        obtain rfl := derives_program_nil dxs
        exact .lastStatement (lnil ▸ dx)

end Parser

/-! ## Whole texts -/

/-- A text splits into tokens exactly when the reader comes to its end without a fault. -/
theorem tokenize_eq_ok_iff {source : Bytes} {ts : List Token} :
    tokenize source = .ok ts ↔ (Cursor.ofText source).tokens = (ts, none) := by
  unfold tokenize
  rcases (Cursor.ofText source).tokens with ⟨us, _ | f⟩ <;> simp

/-- The fault of a text is the one its reader ends with. -/
theorem tokenize_eq_error_iff {source : Bytes} {f : Fault} :
    tokenize source = .error f ↔ (Cursor.ofText source).tokens.2 = some f := by
  unfold tokenize
  rcases (Cursor.ofText source).tokens with ⟨ts, _ | g⟩ <;> simp

theorem stream_of_tokenize {source : Bytes} {ts : List Token} (h : tokenize source = .ok ts) :
    (Lexer.ofText source).stream = ⟨ts, none, ⟨0, 0⟩⟩ := by
  rw [tokenize_eq_ok_iff] at h
  show (⟨(Cursor.ofText source).tokens.1, (Cursor.ofText source).tokens.2, ⟨0, 0⟩⟩ : Stream) = _
  rw [h]

/-- The parser sees the tokens of a text only. -/
theorem parse_of_tokenize {source : Bytes} {ts : List Token} (h : tokenize source = .ok ts) :
    parse source = (⟨ts, none, ⟨0, 0⟩⟩ : Stream).parse.1 := by
  rw [parse, stream_of_tokenize h]

/-- A text that parses splits into tokens, and its program is derived from
    their lexemes. -/
theorem parse_derives {source : Bytes} {p : Program} (h : parse source = .ok p) :
    ∃ ts, tokenize source = .ok ts ∧
      Derives .program (ts.map Token.lexeme) p.statements [] := by
  unfold parse Stream.parse at h
  generalize hs : (Lexer.ofText source).stream = s at h
  cases hp : Parser.program s.fuel s with
  | ok ss rest =>
    simp only [hp, Except.ok.injEq] at h
    obtain rfl := h
    obtain ⟨d, _, hend⟩ := Parser.program_ok hp
    subst hs
    refine ⟨(Cursor.ofText source).tokens.1, ?_, d⟩
    -- The parser came to the end of the tokens, so the reader found no fault.
    have hnone : (Cursor.ofText source).tokens.2 = none := hend
    rw [tokenize_eq_ok_iff, ← hnone]
  | fail fault rest => simp [hp] at h
  | starved => simp [hp] at h

end Scriptlet

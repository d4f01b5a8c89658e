/-
  Scriptlet.Proofs.Render.Exact

  The condition of `Proofs.Render.Reread` is exact: a parsed program is read
  back from its text if and only if `Program.rereads` holds of it
  (`parse_render_iff`).

  If a part of the text is misread, the tree read from it goes on where the
  original one ends, or the other way round, and no reading behind it repairs
  that. The trail of a tree records, from left to right, where it goes on
  (`true`) and where a part ends (`false`). Reading only ever appends to the
  trail of what was read before (`Derives.extends`), so it suffices to follow
  the text up to the first place where the trails part.
-/
import Scriptlet.Proofs.Render.Reread

namespace Scriptlet

open Lexeme (opening closing comma ending)

/-! ## Trails -/

mutual

/-- Where a tree goes on and where its parts end, from left to right. -/
def Node.trail : Node → List Bool
  | .unary _ operand => operand.trail ++ [false]
  | .binary _ left right => left.trail ++ true :: (right.trail ++ [false])
  | .assign target value => target.trail ++ true :: (value.trail ++ [false])
  | .call callee arguments => callee.trail ++ true :: trailEach arguments
  | .func _ _ body => body.trail
  | .branch condition body tail => condition.trail ++ false :: (body.trail ++ tail.trail)
  | .loop condition body => condition.trail ++ false :: body.trail
  | .ret value => value.trail ++ [false]
  | _ => []

def Block.trail : Block → List Bool
  | .mk statements _ => trailEach statements

def Tail.trail : Tail → List Bool
  | .none => [false]
  | .elif condition body tail =>
    true :: (condition.trail ++ false :: (body.trail ++ tail.trail))
  | .else body => true :: body.trail

def trailEach : List Node → List Bool
  | [] => []
  | node :: nodes => node.trail ++ false :: trailEach nodes

end

attribute [simp] Node.trail Block.trail Tail.trail trailEach

/-- Neither trail has parted from the other: one continues the other. -/
def Compatible (u v : List Bool) : Prop := u <+: v ∨ v <+: u

namespace Compatible

variable {u u' v v' a : List Bool}

theorem of_prefix_left (hu : u' <+: u) (h : Compatible u v) : Compatible u' v := by
  rcases h with h | h
  · exact .inl (hu.trans h)
  · exact List.prefix_or_prefix_of_prefix hu h

theorem of_prefix_right (hv : v' <+: v) (h : Compatible u v) : Compatible u v' := by
  rcases h with h | h
  · exact List.prefix_or_prefix_of_prefix h hv
  · exact .inr (hv.trans h)

/-- Trails that have not parted had not parted before either. -/
theorem of_prefixes (hu : u' <+: u) (hv : v' <+: v) (h : Compatible u v) : Compatible u' v' :=
  (h.of_prefix_left hu).of_prefix_right hv

/-- What was read alike cancels. -/
theorem of_append_left (h : Compatible (a ++ u) (a ++ v)) : Compatible u v := by
  rcases h with h | h
  · exact .inl ((List.prefix_append_right_inj a).mp h)
  · exact .inr ((List.prefix_append_right_inj a).mp h)

theorem of_cons {b : Bool} (h : Compatible (b :: u) (b :: v)) : Compatible u v :=
  of_append_left (a := [b]) h

/-- Where neither trail is at its end, both do the same next. -/
theorem heads_eq {b c : Bool} (h : Compatible (b :: u) (c :: v)) : b = c := by
  rcases h with h | h
  · exact (List.cons_prefix_cons.mp h).1
  · exact (List.cons_prefix_cons.mp h).1.symm

end Compatible

/-- A tree that goes on where another one ends has parted from it. -/
theorem not_compatible_of_extends {a u e v : List Bool} (h : a ++ [true] <+: e) :
    ¬ Compatible (e ++ u) (a ++ false :: v) := by
  intro hc
  -- Behind `a` one trail goes on with `true` and the other with `false`.
  obtain ⟨t, rfl⟩ := h
  rw [List.append_assoc, List.append_assoc] at hc
  exact absurd hc.of_append_left.heads_eq (by decide)

/-! ## Reading appends to the trail -/

/-- An operator goes on behind its left operand and ends behind its right one. -/
theorem trail_combine (op : Bytes) (l r : Node) :
    (Parser.combine op l r).trail = l.trail ++ true :: (r.trail ++ [false]) := by
  unfold Parser.combine
  split <;> simp

/-- So combining goes on where the left operand ends. -/
theorem prefix_combine (op : Bytes) (l r : Node) :
    l.trail ++ [true] <+: (Parser.combine op l r).trail := by
  rw [trail_combine]
  exact ⟨r.trail ++ [false], by simp⟩

theorem prefix_call (f : Node) (as : List Node) : f.trail ++ [true] <+: (Node.call f as).trail :=
  ⟨trailEach as, by simp⟩

/-- The node that a goal went on from is its result, or the result goes on where
    this node ends. -/
def Goal.Extends : (g : Goal) → List Lexeme → g.Result → List Lexeme → Prop
  | .calls f, s, y, r =>
      y = f ∧ r = s ∧ s.head? ≠ some opening ∨ f.trail ++ [true] <+: Node.trail y
  | .climb l level, s, y, r => y = l ∧ r = s ∧ Climbed level s ∨ l.trail ++ [true] <+: Node.trail y
  | _, _, _, _ => True

/-- What is read behind a node either leaves it as it is or goes on from it. -/
theorem Derives.extends {g : Goal} {s r : List Lexeme} {v : g.Result} (h : Derives g s v r) :
    g.Extends s v r := by
  induction h with
  | uncalled hne => exact .inl ⟨rfl, rfl, hne⟩
  | call _ _ _ _ _ ihc =>
    -- The first call already goes on, and later ones only append.
    refine .inr ?_
    rcases ihc with ⟨rfl, -, -⟩ | hext
    · exact prefix_call _ _
    · exact (prefix_call _ _).trans ((List.prefix_append _ _).trans hext)
  | climbed hstop => exact .inl ⟨rfl, rfl, hstop⟩
  -- As for calls: the first operator goes on, and later ones only append.
  | climb _ _ _ _ _ _ ihz =>
    refine .inr ?_
    rcases ihz with ⟨rfl, -, -⟩ | hext
    · exact prefix_combine _ _ _
    · exact (prefix_combine _ _ _).trans ((List.prefix_append _ _).trans hext)
  | _ => trivial

/-- Calls only append to the trail of what is called. -/
theorem Derives.calls_prefix {f y : Node} {s r : List Lexeme} (h : Derives (.calls f) s y r) :
    f.trail <+: y.trail := by
  rcases h.extends with ⟨rfl, -, -⟩ | hext
  · exact List.prefix_rfl
  · exact (List.prefix_append _ _).trans hext

/-- Operators only append to the trail of their left operand. -/
theorem Derives.climb_prefix {l y : Node} {level : Nat} {s r : List Lexeme}
    (h : Derives (.climb l level) s y r) : l.trail <+: y.trail := by
  rcases h.extends with ⟨rfl, -, -⟩ | hext
  · exact List.prefix_rfl
  · exact (List.prefix_append _ _).trans hext

/-! ## Ways into a derivation

What stands first decides the rule that was used. -/

/-- A parenthesis in front opens a group. -/
theorem Derives.group_inv {s r : List Lexeme} {x : Node}
    (h : Derives .operand (opening :: s) x r) : Derives .expression s x (closing :: r) := by
  cases h with
  | group _ hm' hx =>
    subst hm'
    exact hx

/-- An operator in front is a prefix operator. -/
theorem Derives.unary_inv {s r : List Lexeme} {op : Bytes} {x : Node}
    (h : Derives .operand (.operator op :: s) x r) :
    ∃ y, x = .unary (.ofSymbol op) y ∧ Derives .atom s y r := by
  cases h with
  | unary _ hx => exact ⟨_, rfl, hx⟩

/-- The word `if` starts a conditional, and nothing else does. -/
theorem Derives.branch_inv {s r : List Lexeme} {x : Node}
    (h : Derives .operand (.keyword (text "if") :: s) x r) :
    ∃ c s₁ b s₂ t, x = .branch c b t ∧ Derives .expression s c s₁ ∧
      Derives (.body true) s₁ b s₂ ∧ Derives .tail s₂ t r := by
  cases h with
  | branch _ hc hb ht => exact ⟨_, _, _, _, _, rfl, hc, hb, ht⟩
  | @bool _ b _ hw => cases b <;> exact absurd hw (by decide)
  | loop hw | ret hw => exact absurd hw (by decide)
  | func hw => exact absurd hw (by decide)

theorem Derives.loop_inv {s r : List Lexeme} {x : Node}
    (h : Derives .operand (.keyword (text "while") :: s) x r) :
    ∃ c s₁ b, x = .loop c b ∧ Derives .expression s c s₁ ∧ Derives (.body false) s₁ b r := by
  cases h with
  | loop _ hc hb => exact ⟨_, _, _, rfl, hc, hb⟩
  | @bool _ b _ hw => cases b <;> exact absurd hw (by decide)
  | branch hw | ret hw => exact absurd hw (by decide)
  | func hw => exact absurd hw (by decide)

theorem Derives.ret_inv {s r : List Lexeme} {x : Node}
    (h : Derives .operand (.keyword (text "return") :: s) x r) :
    ∃ y, x = .ret y ∧ Derives .expression s y r := by
  cases h with
  | ret _ hx => exact ⟨_, rfl, hx⟩
  | @bool _ b _ hw => cases b <;> exact absurd hw (by decide)
  | branch hw | loop hw => exact absurd hw (by decide)
  | func hw => exact absurd hw (by decide)

/-- The head of a function is read as it was written, so only its body is left open. -/
theorem Derives.func_inv {name : Name} {ps : List Name} {s r : List Lexeme} {x : Node}
    (h : Derives .operand (headLexemes name ps ++ s) x r) :
    ∃ b, x = .func name ps b.returning ∧ Derives (.body false) s b r := by
  have hsplit : headLexemes name ps ++ s = .keyword (text "func") :: .identifier name ::
      opening :: (nameLexemes ps ++ closing :: s) := by
    simp [headLexemes]
  rw [hsplit] at h
  cases h with
  | func _ _ hm' hps _ hb =>
    subst hm'
    obtain ⟨rfl, hrest⟩ := hps.unique (derives_parameters ps s)
    cases hrest
    exact ⟨_, rfl, hb⟩
  | @bool _ b _ hw => cases b <;> exact absurd hw (by decide)
  | branch hw | loop hw | ret hw => exact absurd hw (by decide)

/-- A text of statements is read as statements. -/
theorem Derives.block_inv {branching : Bool} {s r : List Lexeme} {b : Block}
    (h : Derives (.body branching) (.separator :: s) b r) :
    ∃ ss, b = .mk ss false ∧ Derives (.statements branching) s ss r := by
  cases h with
  | block _ hs => exact ⟨_, rfl, hs⟩
  | inline hx => exact absurd rfl (hx.head?_ne (l := .separator) (by decide))
  | inlineEnd _ hx => exact absurd rfl (hx.head?_ne (l := .separator) (by decide))

/-- The lexemes ahead start an expression. -/
def Starts (s : List Lexeme) : Prop := ∃ l w, s = l :: w ∧ l.starts = true

/-- The text of a proper tree starts an expression. -/
theorem Proper.starts {x : Node} (hx : Proper (.node x)) (s : List Lexeme) :
    Starts (x.lexemes ++ s) := by
  obtain ⟨l, w, hl, hstarts, -⟩ := hx.first
  exact ⟨l, w ++ s, by rw [hl]; rfl, hstarts⟩

/-- A text that starts with an expression is read as an inline body. -/
theorem Derives.inline_inv {branching : Bool} {s r : List Lexeme} {b : Block}
    (h : Derives (.body branching) s b r) (hs : Starts s) :
    ∃ y s₁, b = .mk [y] true ∧ Derives .expression s y s₁ := by
  obtain ⟨l, w, rfl, hl⟩ := hs
  cases h with
  | block hm =>
    subst hm
    exact absurd hl (by decide)
  | inline hx => exact ⟨_, _, rfl, hx⟩
  | inlineEnd _ hx => exact ⟨_, _, rfl, hx⟩

/-- What starts an expression closes no block, so it is a statement. -/
theorem Derives.statement_inv {branching : Bool} {s r : List Lexeme} {ss : List Node}
    (h : Derives (.statements branching) s ss r) (hs : Starts s) :
    ∃ x xs s₁, ss = x :: xs ∧ Derives .expression s x (.separator :: s₁) ∧
      Derives (.statements branching) s₁ xs r := by
  obtain ⟨l, w, rfl, hl⟩ := hs
  cases h with
  | blockEnd hw =>
    subst hw
    exact absurd hl (by decide)
  | blockTurn hw => rcases hw with rfl | rfl <;> exact absurd hl (by decide)
  | statement hm hx hxs =>
    subst hm
    exact ⟨_, _, _, rfl, hx, hxs⟩

/-- In a program it is a line, the last one or one with more behind it. -/
theorem Derives.line_inv {s r : List Lexeme} {ss : List Node} (h : Derives .program s ss r)
    (hs : Starts s) :
    ∃ x xs s₁, ss = x :: xs ∧ Derives .expression s x s₁ ∧
      (s₁ = [] ∨ ∃ s₂, s₁ = .separator :: s₂ ∧ Derives .program s₂ xs r) := by
  obtain ⟨l, w, rfl, hl⟩ := hs
  cases h with
  | lastStatement hx => exact ⟨_, _, _, rfl, hx, .inl rfl⟩
  | line hm hx hxs =>
    subst hm
    exact ⟨_, _, _, rfl, hx, .inr ⟨_, rfl, hxs⟩⟩

/-- Behind the parenthesis of a call it is the first argument. -/
theorem Derives.firstArgument_inv {s r : List Lexeme} {as : List Node}
    (h : Derives (.arguments true) s as r) (hs : Starts s) :
    ∃ x xs s₁, as = x :: xs ∧ Derives .expression s x s₁ ∧ Derives (.arguments false) s₁ xs r := by
  obtain ⟨l, w, rfl, hl⟩ := hs
  cases h with
  | noArguments hm =>
    subst hm
    exact absurd hl (by decide)
  | firstArgument hx hxs => exact ⟨_, _, _, rfl, hx, hxs⟩

/-- Behind a comma it is the next argument. -/
theorem Derives.nextArgument_inv {s r : List Lexeme} {as : List Node}
    (h : Derives (.arguments false) (comma :: s) as r) (hs : Starts s) :
    ∃ x xs s₁, as = x :: xs ∧ Derives .expression s x s₁ ∧ Derives (.arguments false) s₁ xs r := by
  obtain ⟨l, w, rfl, hl⟩ := hs
  cases h with
  | noArguments hm => exact absurd hm (by decide)
  | lastComma _ hm' =>
    subst hm'
    exact absurd hl (by decide)
  | nextArgument _ hx hxs => exact ⟨_, _, _, rfl, hx, hxs⟩

theorem Derives.elif_inv {s r : List Lexeme} {t : Tail}
    (h : Derives .tail (.keyword (text "elif") :: s) t r) :
    ∃ c s₁ b s₂ t', t = .elif c b t' ∧ Derives .expression s c s₁ ∧
      Derives (.body true) s₁ b s₂ ∧ Derives .tail s₂ t' r := by
  cases h with
  | elif _ hc hb ht => exact ⟨_, _, _, _, _, rfl, hc, hb, ht⟩
  | «else» hw => exact absurd hw (by decide)
  | noTail helif => exact absurd rfl helif

theorem Derives.else_inv {s r : List Lexeme} {t : Tail}
    (h : Derives .tail (.keyword (text "else") :: s) t r) :
    ∃ b, t = .else b ∧ Derives (.body false) s b r := by
  cases h with
  | elif hw => exact absurd hw (by decide)
  | «else» _ hb => exact ⟨_, rfl, hb⟩
  | noTail _ helse => exact absurd rfl helse

/-- A conditional that ends has no further branch ahead. -/
theorem Derives.noTail_inv {s r : List Lexeme} {t : Tail} (h : Derives .tail s t r)
    (hc : Compatible t.trail [false]) : ∀ l ∈ s.head?, l.follow ≠ .turn := by
  cases h with
  | elif | «else» => exact absurd hc.heads_eq (by decide)
  | noTail helif helse =>
    intro l hl hturn
    cases l with
    | keyword v =>
      rw [Lexeme.follow] at hturn
      split at hturn
      · rename_i hv
        rcases hv with rfl | rfl
        · exact helse hl
        · exact helif hl
      · cases hturn
    | punctuation m =>
      rw [Lexeme.follow] at hturn
      split at hturn <;> cases hturn
    | _ => cases hturn

/-! ## Parts that were read alike -/

/-- A part of a tree rereads if what is read from its text has not parted from
    it. -/
def Part.Exact : Part → Prop
  | .node x => ∀ {n l w y r}, l ≠ ending → Derives .atom (x.lexemes ++ behind n l w) y r →
      Compatible y.trail x.trail → x.rereads n l.follow = true
  | .block b => ∀ {branching n l w b' r}, l ≠ ending →
      Derives (.body branching) (b.lexemes ++ behind n l w) b' r →
      Compatible (Block.trail b') b.trail → b.rereads n l.follow = true
  | .tail t => ∀ {k n l w t' r}, l ≠ ending → Derives .tail (t.left k n l w) t' r →
      Compatible (Tail.trail t') t.trail → t.rereads k n l.follow = true
  | .each xs =>
      (∀ {branching s ss r}, Derives (.statements branching) (lineLexemes xs ++ s) ss r →
        Compatible (trailEach ss) (trailEach xs) → rereadsEach xs = true) ∧
      (∀ {ss r}, Derives .program (lineLexemes xs) ss r →
        Compatible (trailEach ss) (trailEach xs) → rereadsEach xs = true) ∧
      (∀ {s as r}, Derives (.arguments true) (argumentLexemes xs ++ closing :: s) as r →
        Compatible (trailEach as) (trailEach xs) → rereadsEach xs = true) ∧
      ∀ {s as r}, Derives (.arguments false) (laterLexemes xs ++ closing :: s) as r →
        Compatible (trailEach as) (trailEach xs) → rereadsEach xs = true

/-- Behind an expression that was not extended stands nothing that extends
    it. -/
theorem stopsAt_of_settled {n k : Nat} {l : Lexeme} {w : List Lexeme}
    (hopening : (behind (n - k) l w).head? ≠ some opening)
    (hclimbed : Climbed 0 (behind (n - k) l w)) : l.follow.stopsAt n k = true := by
  rw [Follow.stopsAt, Bool.or_eq_true, bne_iff_ne, decide_eq_true_eq]
  cases hk : n - k with
  | succ m => exact .inr (by omega)
  | zero =>
    -- No `end` is left, so `l` itself neither calls nor is an operator.
    rw [hk, behind_zero] at hopening hclimbed
    refine .inl ?_
    cases l with
    | operator op =>
      obtain ⟨hpos, hle⟩ := hclimbed
      omega
    | punctuation m =>
      have hm : m ≠ text "(" := by simpa using hopening
      rw [Lexeme.follow, if_neg hm]
      decide
    | keyword v =>
      rw [Lexeme.follow]
      split <;> decide
    | _ => exact (by decide : Follow.stop ≠ .extend)

/-- An expression whose tree ends where the original one does was read as the
    original one. -/
theorem exact_expression {x y : Node} (hx : Proper (.node x)) (hexact : Part.Exact (.node x))
    {n : Nat} {l : Lexeme} {w r : List Lexeme} {u v : List Bool} (hl : l ≠ ending)
    (h : Derives .expression (x.lexemes ++ behind n l w) y r)
    (hc : Compatible (y.trail ++ false :: u) (x.trail ++ false :: v)) :
    x.rereads n l.follow = true ∧ l.follow.stopsAt n x.appetite = true ∧ y = x ∧
      r = behind (n - x.appetite) l w := by
  cases h with
  | @expression _ a s₁ _ _ hatom hclimb =>
    -- The atom is read first, and its trail is a prefix of that of the expression.
    have hya := hclimb.climb_prefix
    have hr := hexact hl hatom
      (hc.of_prefixes (hya.trans (List.prefix_append _ _)) (List.prefix_append _ _))
    have hcalls := (hx.rereads hl hr).mp hatom
    -- Neither a call nor an operator may have followed, or the trails part here.
    rcases hcalls.extends with ⟨rfl, rfl, hopening⟩ | hext
    · rcases hclimb.extends with ⟨rfl, rfl, hclimbed⟩ | hext
      · exact ⟨hr, stopsAt_of_settled hopening hclimbed, rfl, rfl⟩
      · exact absurd hc (not_compatible_of_extends hext)
    · exact absurd hc (not_compatible_of_extends (hext.trans hya))

/-- The same in front of a lexeme that stops every expression. -/
theorem exact_stopped {x y : Node} (hx : Proper (.node x)) (hexact : Part.Exact (.node x))
    {l : Lexeme} {w r : List Lexeme} {u v : List Bool} (hl : l ≠ ending)
    (hfollow : l.follow = .stop)
    (h : Derives .expression (x.lexemes ++ l :: w) y r)
    (hc : Compatible (y.trail ++ false :: u) (x.trail ++ false :: v)) :
    x.rereads 0 .stop = true ∧ y = x ∧ r = l :: w := by
  have := exact_expression (n := 0) hx hexact hl h hc
  rw [hfollow, Nat.zero_sub, behind_zero] at this
  exact ⟨this.1, this.2.2⟩

/-- A condition ends where its body starts, so the body starts with no
    parenthesis. -/
theorem exact_condition {c c' : Node} {b : Block} (hc : Proper (.node c)) (hb : Proper (.block b))
    (hexact : Part.Exact (.node c)) {s r : List Lexeme} {u v : List Bool}
    (h : Derives .expression (c.lexemes ++ (b.lexemes ++ s)) c' r)
    (hcomp : Compatible (c'.trail ++ false :: u) (c.trail ++ false :: v)) :
    c.rereads 0 .stop = true ∧ b.opens = false ∧ c' = c ∧ r = b.lexemes ++ s := by
  obtain ⟨l, w, hfirst, hl, hfollow⟩ := hb.first_block
  rw [hfirst, List.cons_append] at h ⊢
  obtain ⟨hr, hstops, rfl, rfl⟩ := exact_expression (n := 0) hc hexact hl h hcomp
  have hopens : b.opens = false := by
    rw [← Bool.not_eq_true]
    intro hopens
    rw [hfollow, if_pos hopens] at hstops
    simp [Follow.stopsAt] at hstops
  rw [hopens] at hfollow
  rw [hfollow] at hr
  exact ⟨hr, hopens, rfl, by rw [Nat.zero_sub]; rfl⟩

/-- Calls only append, so the operand of an atom has not parted either. -/
theorem Derives.exists_operand {s r : List Lexeme} {y : Node} {u : List Bool}
    (h : Derives .atom s y r) (hc : Compatible y.trail u) :
    ∃ f s', Derives .operand s f s' ∧ Compatible f.trail u := by
  cases h with
  | atom hoperand hcalls => exact ⟨_, _, hoperand, hc.of_prefix_left hcalls.calls_prefix⟩

theorem exact_infix {a b y : Node} {o : Bytes} (ha : Proper (.node a))
    (hexa : Part.Exact (.node a)) (hexb : Part.Exact (.node b)) {s r : List Lexeme}
    (h : Derives .atom (opening :: (a.lexemes ++ .operator o :: (b.lexemes ++ closing :: s))) y r)
    (hc : Compatible y.trail (a.trail ++ true :: (b.trail ++ [false]))) :
    a.rereads 0 .extend = true ∧ b.rereads 0 .stop = true := by
  obtain ⟨f, s₁, hoperand, hf⟩ := h.exists_operand hc
  cases hoperand.group_inv with
  | expression hleft hclimb =>
    have hl : a.rereads 0 .extend = true :=
      hexa (n := 0) (l := .operator o) (operator_ne_ending o) hleft
        (hf.of_prefixes hclimb.climb_prefix (List.prefix_append _ _))
    refine ⟨hl, ?_⟩
    -- The left operand rereads, so it is followed by the operator and nothing
    -- calls it. Then the right operand is what the operator takes next.
    have hcalls := (ha.rereads (n := 0) (l := .operator o) (operator_ne_ending o) hl).mp hleft
    rw [Nat.zero_sub, behind_zero] at hcalls
    cases hcalls with
    | uncalled _ =>
      cases hclimb with
      | @climb _ _ _ _ z _ x _ _ _ _ hz hx hrest =>
        have hx' := hf.of_prefix_left hrest.climb_prefix
        rw [trail_combine] at hx'
        exact hexb (n := 0) (l := closing) (by decide) hz
          (hx'.of_append_left.of_cons.of_prefixes
            (hx.climb_prefix.trans (List.prefix_append _ _)) (List.prefix_append _ _))

/-- A condition, its body and the branches behind it. -/
theorem exact_branches {c c' : Node} {b b' : Block} {t t' : Tail} (hc : Proper (.node c))
    (hb : Proper (.block b)) (hexc : Part.Exact (.node c)) (hexb : Part.Exact (.block b))
    (hext : Part.Exact (.tail t)) {n : Nat} {l : Lexeme} {w s₁ s₂ r : List Lexeme}
    (hl : l ≠ ending)
    (hcondition : Derives .expression (c.lexemes ++ b.lexemes ++ t.lexemes ++ behind n l w) c' s₁)
    (hbody : Derives (.body true) s₁ b' s₂) (htail : Derives .tail s₂ t' r)
    (hcomp : Compatible (c'.trail ++ false :: (b'.trail ++ t'.trail))
      (c.trail ++ false :: (b.trail ++ t.trail))) :
    (c.rereads 0 .stop && !b.opens && b.rereads (t.ends n) (t.follow l.follow) &&
      t.rereads b.appetite n l.follow) = true := by
  rw [List.append_assoc, List.append_assoc] at hcondition
  obtain ⟨hrc, hopens, rfl, rfl⟩ := exact_condition hc hb hexc hcondition hcomp
  have hrest := hcomp.of_append_left.of_cons
  obtain ⟨l', w', hbehind, hl', hfollow, hcloses, hleft⟩ := t.behind_eq n w hl
  rw [hbehind] at hbody
  have hrb := hexb hl' hbody
    (hrest.of_prefixes (List.prefix_append _ _) (List.prefix_append _ _))
  -- The body rereads, and derivations are unique: the tail starts where it should,
  -- and the trails of the bodies cancel.
  obtain ⟨rfl, rfl⟩ := hbody.unique (hb.rereads hl' hrb hcloses)
  rw [hleft] at htail
  have hrt := hext hl htail hrest.of_append_left
  rw [hfollow] at hrb
  rw [hrc, hopens, hrb, hrt]
  rfl

/-! ## Trees

One lemma for each way to build a part: it is exact if the parts that it is
built from are. -/

theorem trailEach_singleton (x : Node) : trailEach [x] = x.trail ++ [false] := by simp

/-- A prefix operator, whose text is a group around it and its operand. -/
theorem exact_unary {op : UnaryOp} {x : Node} (hexact : Part.Exact (.node x)) :
    Part.Exact (.node (.unary op x)) := by
  intro n l w y r hl h hc
  have hsplit : (Node.unary op x).lexemes ++ behind n l w =
      opening :: .operator op.symbol :: (x.lexemes ++ closing :: behind n l w) := by
    simp
  rw [hsplit] at h
  obtain ⟨f, s₁, hoperand, hf⟩ := h.exists_operand hc
  cases hoperand.group_inv with
  | expression hinner hclimb =>
    -- Around the operand stand the group and the operator; each only appends.
    obtain ⟨g, s₂, hunary, hg⟩ := hinner.exists_operand (hf.of_prefix_left hclimb.climb_prefix)
    obtain ⟨z, rfl, hz⟩ := hunary.unary_inv
    rw [Node.trail, Node.trail] at hg
    exact hexact (n := 0) (l := closing) (by decide) hz
      (hg.of_prefixes (List.prefix_append _ _) (List.prefix_append _ _))

theorem exact_binary {op : BinaryOp} {a b : Node} (ha : Proper (.node a))
    (hexa : Part.Exact (.node a)) (hexb : Part.Exact (.node b)) :
    Part.Exact (.node (.binary op a b)) := by
  intro n l w y r _ h hc
  rw [Node.trail] at hc
  obtain ⟨hra, hrb⟩ := exact_infix (o := op.symbol) (s := behind n l w) ha hexa hexb
    (by simpa using h) hc
  simp [hra, hrb]

/-- An assignment, written as an infix operator. -/
theorem exact_assign {a b : Node} (ha : Proper (.node a)) (hexa : Part.Exact (.node a))
    (hexb : Part.Exact (.node b)) : Part.Exact (.node (.assign a b)) := by
  intro n l w y r _ h hc
  rw [Node.trail] at hc
  obtain ⟨hra, hrb⟩ := exact_infix (o := text "=") (s := behind n l w) ha hexa hexb
    (by simpa using h) hc
  simp [hra, hrb]

/-- A call, by its function and then by its arguments. -/
theorem exact_call {c : Node} {as : List Node} (hc : Proper (.node c))
    (hexc : Part.Exact (.node c)) (hexas : Part.Exact (.each as)) :
    Part.Exact (.node (.call c as)) := by
  intro n l w y r _ h hcomp
  rw [Node.trail] at hcomp
  have hsplit : (Node.call c as).lexemes ++ behind n l w =
      c.lexemes ++ behind 0 opening (argumentLexemes as ++ closing :: behind n l w) := by
    simp [behind_zero]
  rw [hsplit] at h
  have hrc : c.rereads 0 .extend = true :=
    hexc (n := 0) (l := opening) (by decide) h (hcomp.of_prefix_right (List.prefix_append _ _))
  -- The callee rereads, so this argument list calls it, and the trail goes on with
  -- that of the arguments.
  have hcalls := (hc.rereads (l := opening) (by decide) hrc).mp h
  rw [Nat.zero_sub, behind_zero] at hcalls
  cases hcalls with
  | uncalled hne => exact absurd rfl hne
  | call _ _ has hmore =>
    have hcall := hcomp.of_prefix_left hmore.calls_prefix
    rw [Node.trail] at hcall
    have hras := hexas.2.2.1 has hcall.of_append_left.of_cons
    simp [hrc, hras]

/-- An inline function, which ends where its value does. -/
theorem exact_inlineFunc {name : Name} {ps : List Name} {v : Node} (hv : Proper (.node v))
    (hexact : Part.Exact (.node v)) :
    Part.Exact (.node (.func name ps (.mk [.ret v] true))) := by
  intro n l w y r hl h hc
  rw [Node.lexemes, List.append_assoc] at h
  rw [Node.trail, Block.trail, trailEach_singleton, Node.trail, List.append_assoc] at hc
  obtain ⟨f, s₁, hoperand, hf⟩ := h.exists_operand hc
  obtain ⟨b, rfl, hbody⟩ := hoperand.func_inv
  -- The body starts an expression, so it was read inline and returns it: the value
  -- ends, then the return.
  obtain ⟨z, s₂, rfl, hz⟩ := hbody.inline_inv (hv.starts _)
  rw [Block.returning, Node.trail, Block.trail, trailEach_singleton, Node.trail,
    List.append_assoc] at hf
  obtain ⟨hr, hstops, -, -⟩ := exact_expression hv hexact hl hz hf
  simp [hr, hstops]

/-- A function with statements, which end where they are closed. -/
theorem exact_blockFunc {name : Name} {ps : List Name} {ss : List Node}
    (hexact : Part.Exact (.each ss)) : Part.Exact (.node (.func name ps (.mk ss false))) := by
  intro n l w y r _ h hc
  rw [Node.lexemes_func_block, Block.lexemes_block, List.append_assoc, List.append_assoc,
    List.cons_append] at h
  rw [Node.trail, Block.trail] at hc
  obtain ⟨f, s₁, hoperand, hf⟩ := h.exists_operand hc
  obtain ⟨b, rfl, hbody⟩ := hoperand.func_inv
  obtain ⟨ss', rfl, hss⟩ := hbody.block_inv
  rw [Block.returning_block, Node.trail, Block.trail] at hf
  rw [Node.rereads_func_block]
  exact hexact.1 hss hf

theorem exact_branch {c : Node} {b : Block} {t : Tail} (hc : Proper (.node c))
    (hb : Proper (.block b)) (hexc : Part.Exact (.node c)) (hexb : Part.Exact (.block b))
    (hext : Part.Exact (.tail t)) : Part.Exact (.node (.branch c b t)) := by
  intro n l w y r hl h hcomp
  rw [Node.lexemes, List.cons_append] at h
  rw [Node.trail] at hcomp
  obtain ⟨f, s, hoperand, hf⟩ := h.exists_operand hcomp
  obtain ⟨c', s₁, b', s₂, t', rfl, hcondition, hbody, htail⟩ := hoperand.branch_inv
  rw [Node.trail] at hf
  exact exact_branches hc hb hexc hexb hext hl hcondition hbody htail hf

/-- A loop, whose closing word is one more for its body. -/
theorem exact_loop {c : Node} {b : Block} (hc : Proper (.node c)) (hb : Proper (.block b))
    (hexc : Part.Exact (.node c)) (hexb : Part.Exact (.block b)) :
    Part.Exact (.node (.loop c b)) := by
  intro n l w y r hl h hcomp
  have hsplit : (Node.loop c b).lexemes ++ behind n l w =
      .keyword (text "while") :: (c.lexemes ++ (b.lexemes ++ behind (n + 1) l w)) := by
    simp [behind_succ]
  rw [hsplit] at h
  rw [Node.trail] at hcomp
  obtain ⟨f, s, hoperand, hf⟩ := h.exists_operand hcomp
  obtain ⟨c', s₁, b', rfl, hcondition, hbody⟩ := hoperand.loop_inv
  rw [Node.trail] at hf
  obtain ⟨hrc, hopens, rfl, rfl⟩ := exact_condition hc hb hexc hcondition hf
  have hrb := hexb hl hbody hf.of_append_left.of_cons
  simp [hrc, hopens, hrb]

/-- A return, which ends where its value does. -/
theorem exact_ret {v : Node} (hv : Proper (.node v)) (hexact : Part.Exact (.node v)) :
    Part.Exact (.node (.ret v)) := by
  intro n l w y r hl h hc
  rw [Node.lexemes, List.cons_append] at h
  rw [Node.trail] at hc
  obtain ⟨f, s, hoperand, hf⟩ := h.exists_operand hc
  obtain ⟨z, rfl, hz⟩ := hoperand.ret_inv
  rw [Node.trail] at hf
  obtain ⟨hr, hstops, -, -⟩ := exact_expression hv hexact hl hz hf
  simp [hr, hstops]

/-- An inline body, which ends where its expression does. -/
theorem exact_inline {x : Node} (hx : Proper (.node x)) (hexact : Part.Exact (.node x)) :
    Part.Exact (.block (.mk [x] true)) := by
  intro branching n l w b' r hl h hc
  rw [Block.lexemes] at h
  obtain ⟨z, s₁, rfl, hz⟩ := h.inline_inv (hx.starts _)
  rw [Block.trail, Block.trail, trailEach_singleton, trailEach_singleton] at hc
  obtain ⟨hr, hstops, -, -⟩ := exact_expression hx hexact hl hz hc
  simp [hr, hstops]

theorem exact_block {ss : List Node} (hexact : Part.Exact (.each ss)) :
    Part.Exact (.block (.mk ss false)) := by
  intro branching n l w b' r _ h hc
  rw [Block.lexemes_block, List.cons_append] at h
  obtain ⟨ss', rfl, hss⟩ := h.block_inv
  rw [Block.rereads_block]
  exact hexact.1 hss hc

/-- A conditional that ends must not have been given the branches of another one. -/
theorem exact_none : Part.Exact (.tail .none) := by
  intro k n l w t' r _ h hc
  rw [Tail.rereads, Bool.or_eq_true, bne_iff_ne, decide_eq_true_eq]
  -- A tail that was read as none had no `else` or `elif` ahead.
  have hturn := h.noTail_inv hc
  rw [Tail.left] at hturn
  cases hk : n - k with
  | zero =>
    rw [hk, behind_zero] at hturn
    exact .inl (hturn l rfl)
  | succ m => exact .inr (by omega)

theorem exact_elif {c : Node} {b : Block} {t : Tail} (hc : Proper (.node c))
    (hb : Proper (.block b)) (hexc : Part.Exact (.node c)) (hexb : Part.Exact (.block b))
    (hext : Part.Exact (.tail t)) : Part.Exact (.tail (.elif c b t)) := by
  intro k n l w t' r hl h hcomp
  rw [Tail.left, Tail.lexemes, List.cons_append] at h
  obtain ⟨c', s₁, b', s₂, t'', rfl, hcondition, hbody, htail⟩ := h.elif_inv
  rw [Tail.trail, Tail.trail] at hcomp
  exact exact_branches hc hb hexc hexb hext hl hcondition hbody htail hcomp.of_cons

/-- The last branch, whose closing word is one more for its body. -/
theorem exact_else {b : Block} (hexact : Part.Exact (.block b)) :
    Part.Exact (.tail (.else b)) := by
  intro k n l w t' r hl h hcomp
  have hsplit : (Tail.else b).left k n l w =
      .keyword (text "else") :: (b.lexemes ++ behind (n + 1) l w) := by
    simp [Tail.left, behind_succ]
  rw [hsplit] at h
  obtain ⟨b', rfl, hbody⟩ := h.else_inv
  rw [Tail.trail, Tail.trail] at hcomp
  exact hexact hl hbody hcomp.of_cons

theorem rereadsEach_cons {x : Node} {xs : List Node} (hx : x.rereads 0 .stop = true)
    (hxs : rereadsEach xs = true) : rereadsEach (x :: xs) = true := by
  simp [hx, hxs]

/-- An argument stands in front of a comma or of the closing parenthesis. -/
theorem exact_argument {x y : Node} {xs ys : List Node} (hx : Proper (.node x))
    (hexact : Part.Exact (.node x)) (hexacts : Part.Exact (.each xs)) {s s₁ r : List Lexeme}
    (hy : Derives .expression (x.lexemes ++ (laterLexemes xs ++ closing :: s)) y s₁)
    (hys : Derives (.arguments false) s₁ ys r)
    (hc : Compatible (trailEach (y :: ys)) (trailEach (x :: xs))) :
    rereadsEach (x :: xs) = true := by
  rw [trailEach, trailEach] at hc
  have hsame : x.rereads 0 .stop = true ∧ y = x ∧ s₁ = laterLexemes xs ++ closing :: s := by
    cases xs with
    | nil => exact exact_stopped (l := closing) hx hexact (by decide) (by decide) hy hc
    | cons z zs => exact exact_stopped (l := comma) hx hexact (by decide) (by decide) hy hc
  obtain ⟨hrx, rfl, rfl⟩ := hsame
  exact rereadsEach_cons hrx (hexacts.2.2.2 hys hc.of_append_left.of_cons)

/-- A list, as statements, as lines and as arguments behind a parenthesis or a comma. -/
theorem exact_cons {x : Node} {xs : List Node} (hx : Proper (.node x))
    (hexact : Part.Exact (.node x)) (hexacts : Part.Exact (.each xs)) :
    Part.Exact (.each (x :: xs)) := by
  refine ⟨?_, ?_, ?_, ?_⟩
  · intro branching s ss r h hc
    rw [lineLexemes, List.append_assoc, List.cons_append] at h
    obtain ⟨y, ys, s₁, rfl, hy, hys⟩ := h.statement_inv (hx.starts _)
    rw [trailEach, trailEach] at hc
    obtain ⟨hrx, rfl, hrest⟩ := exact_stopped hx hexact (by decide) (by decide) hy hc
    cases hrest
    exact rereadsEach_cons hrx (hexacts.1 hys hc.of_append_left.of_cons)
  · intro ss r h hc
    rw [lineLexemes] at h
    -- Whole lines end with their separator, so the program cannot end before it.
    obtain ⟨y, ys, s₁, rfl, hy, hys⟩ := h.line_inv (hx.starts _)
    rw [trailEach, trailEach] at hc
    obtain ⟨hrx, rfl, rfl⟩ := exact_stopped hx hexact (by decide) (by decide) hy hc
    rcases hys with hnil | ⟨s₂, hrest, hys⟩
    · cases hnil
    · cases hrest
      exact rereadsEach_cons hrx (hexacts.2.1 hys hc.of_append_left.of_cons)
  · intro s as r h hc
    rw [argumentLexemes, List.append_assoc] at h
    obtain ⟨y, ys, s₁, rfl, hy, hys⟩ := h.firstArgument_inv (hx.starts _)
    exact exact_argument hx hexact hexacts hy hys hc
  · intro s as r h hc
    rw [laterLexemes, List.cons_append, List.append_assoc] at h
    obtain ⟨y, ys, s₁, rfl, hy, hys⟩ := h.nextArgument_inv (hx.starts _)
    exact exact_argument hx hexact hexacts hy hys hc

/-- A proper part rereads if what is read from its text has not parted from it. -/
theorem Proper.exact {part : Part} (h : Proper part) : part.Exact := by
  induction h with
  | int | float | str | bool | ident => exact fun _ _ _ => rfl
  | unary _ _ ihx => exact exact_unary ihx
  | binary _ ha _ iha ihb => exact exact_binary ha iha ihb
  | assign ha _ iha ihb => exact exact_assign ha iha ihb
  | call hc _ ihc ihas => exact exact_call hc ihc ihas
  | inlineFunc _ hv ihv => exact exact_inlineFunc hv ihv
  | blockFunc _ _ ihss => exact exact_blockFunc ihss
  | branch hc hb _ ihc ihb iht => exact exact_branch hc hb ihc ihb iht
  | loop hc hb ihc ihb => exact exact_loop hc hb ihc ihb
  | ret hv ihv => exact exact_ret hv ihv
  | inline hx ihx => exact exact_inline hx ihx
  | block _ ihss => exact exact_block ihss
  | none => exact exact_none
  | elif hc hb _ ihc ihb iht => exact exact_elif hc hb ihc ihb iht
  | «else» _ ihb => exact exact_else ihb
  | nil => exact ⟨fun _ _ => rfl, fun _ _ => rfl, fun _ _ => rfl, fun _ _ => rfl⟩
  | cons hx _ ihx ihxs => exact exact_cons hx ihx ihxs

/-- A parsed program is read back from its text exactly when no part of the text
    runs into what stands behind it. -/
theorem parse_render_iff {source : Bytes} {p : Program} (h : parse source = .ok p) :
    parse p.render = .ok p ↔ p.rereads = true := by
  have hproper := proper_of_parse h
  constructor
  · intro hback
    obtain ⟨ts, hts, hlexemes⟩ := exists_tokenize_render hproper
    obtain ⟨ts', hts', hderives⟩ := parse_derives hback
    -- The text is read back from the lexemes of the tree, and a trail has not parted from itself.
    have hsame : ts' = ts := by
      rw [hts] at hts'
      exact (Except.ok.inj hts').symm
    rw [hsame, hlexemes] at hderives
    exact hproper.exact.2.1 hderives (.inl List.prefix_rfl)
  · exact parse_render_of_rereads hproper

/-- A loop with an inline body: the text puts the assignment in parentheses,
    which makes it the argument list of the condition. -/
theorem not_parse_render_inline_loop :
    parse (⟨[.loop (.binary .less (.ident (text "x")) (.int 3))
      (.mk [.assign (.ident (text "x")) (.binary .add (.ident (text "x")) (.int 1))] true)]⟩ :
        Program).render ≠ .ok ⟨[.loop (.binary .less (.ident (text "x")) (.int 3))
      (.mk [.assign (.ident (text "x")) (.binary .add (.ident (text "x")) (.int 1))] true)]⟩ := by
  have hparse : parse (text "while x < 3 x = x + 1") =
      .ok ⟨[.loop (.binary .less (.ident (text "x")) (.int 3))
        (.mk [.assign (.ident (text "x")) (.binary .add (.ident (text "x")) (.int 1))] true)]⟩ := by
    with_unfolding_all rfl
  intro hback
  exact absurd ((parse_render_iff hparse).mp hback) (by decide)

end Scriptlet

/-
  Scriptlet.Proofs.Lexing.Tiling

  The tokens of a text cover it: `Tiles front fresh u ts r f` says that the text
  `u`, which stands behind `front` and in front of `r`, is the spans of the tokens
  `ts` in order with gaps between them, and that every token carries the place of
  its first byte. The place of a byte is counted in the text in front of it
  (`Position.behind`).

  `Tiles.tokens` reads a tiled text and `exists_tiles` finds the tiles of any text
  up to its end or to the first byte that starts no token, so the tokens of a text
  are its tiles and nothing else.
-/
import Scriptlet.Proofs.Lexing.Positions

namespace Scriptlet

/-! ## Places -/

namespace Position

/-- The place of the byte behind `front`: one line more than line breaks in front of
    it, one column more than bytes since the last of them. -/
def behind (front : Bytes) : Position :=
  ⟨1 + front.count 10, 1 + (front.reverse.takeWhile (· != 10)).length⟩

/-- Where the reader stands behind a text, by its line breaks and the length of its last line.
-/
theorem advance_start (front : Bytes) : (⟨1, 0⟩ : Position).advance front =
    ⟨1 + front.count 10, (front.reverse.takeWhile (· != 10)).length⟩ := by
  -- The last byte decides the column, so the text grows at its end.
  induction front using List.reverseRecOn with
  | nil => rfl
  | append_singleton front b ih =>
    rw [advance_append, ih]
    by_cases hb : b = 10
    · simp [hb, advance, step, Nat.add_assoc]
    · simp [hb, advance, step]

end Position

namespace Cursor

/-- A cursor behind `front` in a text that goes on with `rest`. -/
def behind (front rest : Bytes) (fresh : Bool) : Cursor :=
  ⟨rest, (⟨1, 0⟩ : Position).advance front, fresh⟩

/-- The token that starts there is placed one column further. -/
theorem position_behind (front rest : Bytes) (fresh : Bool) :
    (behind front rest fresh).position = .behind front := by
  simp only [position, behind, Position.advance_start, Position.behind, Nat.add_comm]

theorem ofText_eq_behind (source : Bytes) : ofText source = behind [] (completed source) true := rfl

/-- A cursor that has read on is behind the longer text. -/
theorem behind_append (front w rest : Bytes) (fresh : Bool) :
    (⟨rest, ((⟨1, 0⟩ : Position).advance front).advance w, fresh⟩ : Cursor) =
      behind (front ++ w) rest fresh := by
  rw [behind, Position.advance_append]

end Cursor

namespace Position

/-- On one line the columns count the bytes. -/
theorem behind_append_of_line (x : Bytes) {w : Bytes} (hw : 10 ∉ w) :
    behind (x ++ w) = ⟨(behind x).line, (behind x).column + w.length⟩ := by
  have hall : ∀ b ∈ w.reverse, (b != 10) = true := by
    intro b hb
    rw [bne_iff_ne]
    rintro rfl
    exact hw (List.mem_reverse.mp hb)
  -- None of the bytes is a line break, so the run since the last one goes on.
  rw [behind, behind, List.count_append, List.count_eq_zero.mpr hw, List.reverse_append,
    List.takeWhile_append_of_pos hall, List.length_append, List.length_reverse, Nat.add_zero,
    Nat.add_comm w.length, Nat.add_assoc]

/-- What stands further on has a later place. -/
theorem behind_lt_append (x : Bytes) {a : Bytes} (ha : a ≠ []) : behind x < behind (x ++ a) := by
  rw [← Cursor.position_behind x [] true, ← Cursor.position_behind (x ++ a) [] true,
    ← Cursor.behind_append]
  exact Cursor.position_lt (lt_advance _ ha)

/-- A text has no place twice. -/
theorem eq_of_behind_eq {x x' y y' : Bytes} (hsplit : x ++ y = x' ++ y')
    (hplace : behind x = behind x') : x = x' := by
  by_contra hne
  -- One of the two fronts continues the other, and then its place is later.
  rcases List.append_eq_append_iff.mp hsplit with ⟨a, rfl, -⟩ | ⟨a, rfl, -⟩
  · have hlt := behind_lt_append x (a := a) (by rintro rfl; simp at hne)
    exact lt_irrefl _ (hplace ▸ hlt)
  · have hlt := behind_lt_append x' (a := a) (by rintro rfl; simp at hne)
    exact lt_irrefl _ (hplace ▸ hlt)

end Position

/-- A text of whole lines. -/
def LineEnded (s : Bytes) : Prop := ∀ b ∈ s.getLast?, b = 10

/-- Completing a text makes it one of whole lines. -/
theorem lineEnded_completed (source : Bytes) : LineEnded (completed source) := by
  rw [LineEnded, completed]
  split
  · rename_i h
    simp [eq_of_beq h]
  · simp

theorem LineEnded.getLast? {s : Bytes} (h : LineEnded s) (hne : s ≠ []) :
    s.getLast? = some 10 := by
  have hlast := List.getLast?_eq_some_getLast hne
  rw [hlast, h _ hlast]

/-- What is left of whole lines is whole lines. -/
theorem LineEnded.of_append {s t : Bytes} (h : LineEnded (s ++ t)) : LineEnded t := by
  intro b hb
  refine h b ?_
  rw [List.getLast?_append, Option.mem_def.mp hb]
  rfl

/-! ## Gaps and spans -/

/-- What stands between tokens: blanks and, on a fresh line, line breaks and
    comments. -/
inductive Gap : Bool → Bytes → Prop where
  | nil {fresh} : Gap fresh []
  | blank {fresh b g} (hb : Byte.isBlank b = true) (h : Gap fresh g) : Gap fresh (b :: g)
  | line {g} (h : Gap true g) : Gap true (10 :: g)
  | comment {c g} (hc : 10 ∉ c) (h : Gap true g) : Gap true (35 :: (c ++ 10 :: g))

/-- The bytes that a lexeme is read from, with the text behind them, which ends a
    run of bytes. A line break ends a line that is not fresh only, and a comment
    takes the line break that it stands in front of. -/
inductive Span : Bool → Lexeme → Bytes → Bytes → Prop where
  | newline {s} : Span false .separator [10] s
  | comment {c s} (hc : 10 ∉ c) : Span false .separator (35 :: (c ++ [10])) s
  | string {fresh c s} (hc : isQuotable false c = true) :
      Span fresh (.string c) (34 :: (c ++ [34])) s
  | punctuation {fresh b s} (hb : Byte.isPunctuation b = true) :
      Span fresh (.punctuation [b]) [b] s
  | word {fresh w s} (hw : isIdentifier w = true) (hs : Stops Byte.isIdentifierPart s) :
      Span fresh (.word w) w s
  | number {fresh l s} (hfirst : ∃ b ∈ l.literal.head?, Bytes.isDigit b = true)
      (hparts : ∀ b ∈ l.literal, Byte.isNumberPart b = true)
      (hl : Cursor.number l.literal = .ok l) (hs : Stops Byte.isNumberPart s) :
      Span fresh l l.literal s
  | operator {fresh o s} (hne : o ≠ []) (ho : ∀ b ∈ o, Byte.isOperator b = true)
      (hs : Stops Byte.isOperator s) : Span fresh (.operator o) o s

/-- The text `u` behind `front` and in front of `r` is gaps and the spans of the
    tokens, each of which carries the place of its first byte. The flags tell,
    before and after `u`, whether no token has come since the last separator. -/
inductive Tiles : Bytes → Bool → Bytes → List Token → Bytes → Bool → Prop where
  | gap {front fresh g r} (hg : Gap fresh g) : Tiles front fresh g [] r fresh
  | token {front fresh g l w u ts r f} (hg : Gap fresh g) (hw : Span fresh l w (u ++ r))
      (h : Tiles (front ++ g ++ w) (l == .separator) u ts r f) :
      Tiles front fresh (g ++ w ++ u) (⟨l, .behind (front ++ g)⟩ :: ts) r f

/-- No token starts the text: its first byte starts none, the number in front is
    none, or the quote in front is not closed. -/
inductive NoToken : LexProblem → Bytes → Prop where
  | byte {b s} (hb : Byte.isSolid b = true) (hquote : b ≠ 34)
      (hmark : Byte.isPunctuation b = false) (hword : Byte.isIdentifierStart b = false)
      (hnumber : Byte.isNumberPart b = false) (hop : Byte.isOperator b = false) :
      NoToken (.unexpectedByte b) (b :: s)
  | number {b n s problem} (hb : Bytes.isDigit b = true)
      (hn : ∀ d ∈ n, Byte.isNumberPart d = true) (hs : Stops Byte.isNumberPart s)
      (hl : Cursor.number (b :: n) = .error problem) : NoToken problem (b :: n ++ s)
  | string {s} (hs : ∀ c r, s = c ++ 34 :: r → isQuotable false c = false) :
      NoToken .unterminatedString (34 :: s)

/-! ## Reading a tiled text -/

theorem Gap.settle {fresh : Bool} {g : Bytes} (h : Gap fresh g) (front s : Bytes) :
    (Cursor.behind front (g ++ s) fresh).settle = (Cursor.behind (front ++ g) s fresh).settle := by
  induction h generalizing front with
  | nil => rw [List.append_nil, List.nil_append]
  | @blank fresh b g hb _ ih =>
    have hrest := ih (front ++ [b])
    rw [List.append_assoc] at hrest
    refine Eq.trans ?_ hrest
    rw [← Cursor.behind_append]
    exact Cursor.settle_blank hb
  | @line g _ ih =>
    have hrest := ih (front ++ [10])
    rw [List.append_assoc] at hrest
    refine Eq.trans ?_ hrest
    rw [← Cursor.behind_append]
    exact Cursor.settle_newline
  -- The comment and its line break are passed in one step.
  | @comment c g hc _ ih =>
    have hrest := ih (front ++ (35 :: (c ++ [10])))
    rw [List.append_assoc, List.cons_append, List.append_assoc] at hrest
    refine Eq.trans ?_ hrest
    rw [← Cursor.behind_append, List.cons_append, List.append_assoc]
    exact Cursor.settle_comment _ hc (.inl rfl)

/-- No mark is the separator, though both are lexemes of punctuation. -/
theorem mark_ne_separator {b : UInt8} (hb : Byte.isPunctuation b = true) :
    (Lexeme.punctuation [b] == .separator) = false := by
  refine beq_false_of_ne ?_
  rintro ⟨⟩
  exact absurd hb (by decide)

theorem word_ne_separator (w : Bytes) : (Lexeme.word w == .separator) = false := by
  unfold Lexeme.word
  split <;> rfl

/-- A number is an integer or a float, and keeps its text. -/
theorem number_cases {literal : Bytes} {l : Lexeme} (h : Cursor.number literal = .ok l) :
    (∃ n, l = .integer literal n) ∨ ∃ d, l = .float literal d := by
  unfold Cursor.number at h
  simp only at h
  -- Each way through the function gives one of the two or a problem.
  repeat' split at h
  all_goals cases h
  all_goals simp

theorem number_ne_separator {literal : Bytes} {l : Lexeme} (h : Cursor.number literal = .ok l) :
    (l == .separator) = false := by
  obtain ⟨n, rfl⟩ | ⟨d, rfl⟩ := number_cases h <;> rfl

theorem literal_of_number {literal : Bytes} {l : Lexeme} (h : Cursor.number literal = .ok l) :
    l.literal = literal := by
  obtain ⟨n, rfl⟩ | ⟨d, rfl⟩ := number_cases h <;> rfl

theorem Span.read {fresh : Bool} {l : Lexeme} {w s : Bytes} (h : Span fresh l w s)
    (front : Bytes) : (Cursor.behind front (w ++ s) fresh).read =
      .token ⟨l, .behind front⟩ (.behind (front ++ w) s (l == .separator)) := by
  rw [← Cursor.position_behind front [] true, ← Cursor.behind_append]
  cases h with
  | newline => exact Cursor.read_newline
  | comment hc =>
    rw [List.cons_append, List.append_assoc]
    exact Cursor.read_comment _ hc (.inl rfl)
  | string hc =>
    rw [List.cons_append, List.append_assoc]
    exact Cursor.read_string hc
  | punctuation hb =>
    rw [mark_ne_separator hb]
    exact Cursor.read_punctuation hb
  | word hw hs =>
    rw [word_ne_separator]
    exact Cursor.read_word hw hs
  -- The reader looks for a digit first, which the span tells.
  | number hfirst hparts hl hs =>
    obtain ⟨b, hb, hdigit⟩ := hfirst
    obtain ⟨n, hn⟩ := List.head?_eq_some_iff.mp hb
    rw [number_ne_separator hl]
    rw [hn] at hparts hl ⊢
    exact Cursor.read_number hdigit (fun d hd => hparts d (List.mem_cons_of_mem b hd)) hl hs
  | operator hne ho hs => exact Cursor.read_operator hne ho hs

/-- A gap and a span are read as one token, and reading goes on behind them. -/
theorem Span.tokens {fresh : Bool} {l : Lexeme} {g w s : Bytes} (hg : Gap fresh g)
    (hw : Span fresh l w s) (front : Bytes) :
    (Cursor.behind front (g ++ w ++ s) fresh).tokens =
      (⟨l, .behind (front ++ g)⟩ ::
        (Cursor.behind (front ++ g ++ w) s (l == .separator)).tokens.1,
        (Cursor.behind (front ++ g ++ w) s (l == .separator)).tokens.2) := by
  rw [List.append_assoc, Cursor.tokens_congr (hg.settle front (w ++ s))]
  exact Cursor.tokens_of_token (hw.read (front ++ g))

theorem Tiles.tokens {front u r : Bytes} {fresh f : Bool} {ts : List Token}
    (h : Tiles front fresh u ts r f) :
    (Cursor.behind front (u ++ r) fresh).tokens =
      (ts ++ (Cursor.behind (front ++ u) r f).tokens.1,
        (Cursor.behind (front ++ u) r f).tokens.2) := by
  induction h with
  | gap hg => exact Cursor.tokens_congr (hg.settle _ _)
  | @token front fresh g l w u ts r f hg hw _ ih =>
    rw [List.append_assoc (g ++ w), hw.tokens hg, ih]
    simp only [List.append_assoc, List.cons_append]

/-- Where no token starts, reading stops with the problem. -/
theorem NoToken.read {problem : LexProblem} {s : Bytes} (h : NoToken problem s) (front : Bytes)
    (fresh : Bool) :
    ∃ after, (Cursor.behind front s fresh).read = .fault problem (.behind front) after := by
  rw [← Cursor.position_behind front [] true]
  cases h with
  | @byte b s hb hquote hmark hword hnumber hop =>
    obtain ⟨hcomment, hline⟩ := Cursor.not_line_of_solid hb
    refine ⟨.behind front (b :: s) fresh, ?_⟩
    rw [Cursor.read, Cursor.behind, Cursor.settle_of_solid hb]
    simp only [hcomment, hline, beq_false_of_ne hquote, hmark, hword, hnumber, hop,
      Bool.false_eq_true, if_false]
    rfl
  | @number b n s _ hb hn hs hl =>
    refine ⟨.behind (front ++ b :: n) s fresh, ?_⟩
    rw [Cursor.behind, Cursor.read_digits hb hn hs, hl, ← Cursor.behind_append]
    rfl
  | @string s hs =>
    -- No quote closes the string, so there are no contents.
    have hcontents : Cursor.contents? false s = none := by
      rw [Option.eq_none_iff_forall_ne_some]
      intro c hc
      obtain ⟨hq, r, hr⟩ := contents?_eq_some_iff.mp hc
      exact absurd hq (by simp [hs c r hr])
    refine ⟨(Cursor.behind front (34 :: s) fresh).skip (34 :: s).length, ?_⟩
    rw [Cursor.read, Cursor.behind, Cursor.settle_of_solid (by decide)]
    simp only [hcontents]
    rw [if_neg (by decide), if_neg (by decide), if_pos (by decide)]
    rfl

/-! ## Tiles token by token -/

/-- One token more behind a tiled text. -/
theorem Tiles.concat {front u w r : Bytes} {fresh f : Bool} {ts : List Token} {l : Lexeme}
    (h : Tiles front fresh u ts (w ++ r) f) (hw : Span f l w r) :
    Tiles front fresh (u ++ w) (ts ++ [⟨l, .behind (front ++ u)⟩]) r (l == .separator) := by
  generalize hbehind : w ++ r = s at h
  induction h with
  -- Behind a gap the token is the first one.
  | @gap front fresh g _ hg =>
    have hone : Tiles front fresh (g ++ w ++ []) [⟨l, .behind (front ++ g)⟩] r _ :=
      .token hg hw (.gap .nil)
    rwa [List.append_nil] at hone
  | @token front fresh g l' w' u ts _ f hg hw' _ ih =>
    subst hbehind
    rw [← List.append_assoc u] at hw'
    have hplace : front ++ (g ++ w' ++ u) = front ++ g ++ w' ++ u := by
      simp only [List.append_assoc]
    rw [List.append_assoc (g ++ w'), hplace]
    exact .token hg hw' (ih hw rfl)

/-- Every token of a tiled text has its span in it, at its place and behind tiles. -/
theorem Tiles.exists_span {front u r : Bytes} {fresh f : Bool} {ts : List Token}
    (h : Tiles front fresh u ts r f) {t : Token} (ht : t ∈ ts) :
    ∃ x us w y f', u ++ r = x ++ (w ++ y) ∧ Tiles front fresh x us (w ++ y) f' ∧
      Span f' t.lexeme w y ∧ t.position = .behind (front ++ x) := by
  induction h with
  | gap => cases ht
  | @token front fresh g l w u ts r f hg hw _ ih =>
    rcases List.mem_cons.mp ht with rfl | ht
    · -- The first token has only the gap in front of it.
      exact ⟨g, [], w, u ++ r, fresh, by simp, .gap hg, hw, rfl⟩
    · obtain ⟨x, us, w', y, f', hsplit, hx, hw', hplace⟩ := ih ht
      rw [hsplit] at hw
      refine ⟨g ++ w ++ x, _, w', y, f', ?_, .token hg hw hx, hw', ?_⟩
      · rw [List.append_assoc (g ++ w), hsplit, List.append_assoc (g ++ w)]
      · rw [hplace, List.append_assoc (front ++ g), List.append_assoc front, List.append_assoc g]

/-! ## Every text is tiled -/

/-- In whole lines a comment is closed. -/
theorem exists_closed_comment {s : Bytes} (hs : LineEnded (35 :: s)) :
    ∃ c r, s = c ++ 10 :: r ∧ 10 ∉ c := by
  obtain ⟨c, s', r, rfl, hc, rfl | ⟨rfl, rfl⟩⟩ := exists_comment s
  · exact ⟨c, r, rfl, hc⟩
  · -- Else the last byte, a line break, were in the comment.
    have hmem := List.mem_of_getLast? (hs.getLast? (List.cons_ne_nil 35 (c ++ [])))
    simp [hc] at hmem

/-- Every text starts with a gap, up to its end, a token or the end of a line that is
    not fresh. -/
theorem exists_gap (fresh : Bool) {s : Bytes} (hs : LineEnded s) :
    ∃ g r, s = g ++ r ∧ Gap fresh g ∧
      ∀ b ∈ r.head?, Byte.isBlank b = false ∧ (fresh = true → b ≠ 35 ∧ b ≠ 10) := by
  induction hn : s.length using Nat.strong_induction_on generalizing s with
  | _ n ih =>
    cases s with
    | nil => exact ⟨[], [], rfl, .nil, by simp⟩
    | cons b s =>
      by_cases hb : Byte.isBlank b = true
      · obtain ⟨g, r, rfl, hg, hr⟩ := ih s.length (by simp [← hn]) (hs.of_append (s := [b])) rfl
        exact ⟨b :: g, r, rfl, .blank hb hg, hr⟩
      -- On a fresh line a comment or a line break belongs to the gap; otherwise it ends it.
      by_cases hline : fresh = true ∧ (b = 35 ∨ b = 10)
      · obtain ⟨rfl, rfl | rfl⟩ := hline
        · obtain ⟨c, s, rfl, hc⟩ := exists_closed_comment hs
          have hrest : LineEnded s :=
            LineEnded.of_append (s := 35 :: (c ++ [10])) (by simpa using hs)
          obtain ⟨g, r, rfl, hg, hr⟩ := ih s.length (by simp [← hn]; omega) hrest rfl
          exact ⟨35 :: (c ++ 10 :: g), r, by simp, .comment hc hg, hr⟩
        · obtain ⟨g, r, rfl, hg, hr⟩ := ih s.length (by simp [← hn]) (hs.of_append (s := [10])) rfl
          exact ⟨10 :: g, r, rfl, .line hg, hr⟩
      · refine ⟨[], b :: s, rfl, .nil, ?_⟩
        rintro d ⟨⟩
        refine ⟨by simpa using hb, fun hfresh => ?_⟩
        rw [← not_or]
        exact fun h => hline ⟨hfresh, h⟩

theorem Span.ne_nil {fresh : Bool} {l : Lexeme} {w s : Bytes} (h : Span fresh l w s) :
    w ≠ [] := by
  cases h with
  | word hw => rintro rfl; cases hw
  | number hfirst =>
    obtain ⟨b, hb, -⟩ := hfirst
    rintro h
    simp [h] at hb
  | operator hne => exact hne
  | _ => simp

/-- A run of bytes of a token, and the rest where it stops. -/
theorem exists_stop {p : UInt8 → Bool} (s : Bytes) :
    ∃ w r, s = w ++ r ∧ (∀ b ∈ w, p b = true) ∧ Stops p r :=
  ⟨s.takeWhile p, s.drop (s.takeWhile p).length,
    (List.prefix_iff_eq_append.mp (List.takeWhile_prefix p)).symm,
    fun _ hb => List.mem_takeWhile_imp hb, stops_drop_takeWhile p s⟩

/-- Behind a gap a token starts or none can. -/
theorem exists_span {fresh : Bool} {b : UInt8} {s : Bytes} (hs : LineEnded (b :: s))
    (hb : Byte.isBlank b = false) (hline : fresh = true → b ≠ 35 ∧ b ≠ 10) :
    (∃ l w r, b :: s = w ++ r ∧ Span fresh l w r) ∨ ∃ problem, NoToken problem (b :: s) := by
  -- The classes of the first byte, in the order in which the reader tests them.
  by_cases hend : b = 35 ∨ b = 10
  · obtain rfl : fresh = false := by
      rw [← Bool.not_eq_true]
      exact fun h => hend.elim (hline h).1 (hline h).2
    left
    rcases hend with rfl | rfl
    · obtain ⟨c, r, rfl, hc⟩ := exists_closed_comment hs
      exact ⟨_, _, r, by simp, .comment hc⟩
    · exact ⟨_, [10], s, rfl, .newline⟩
  by_cases hquote : b = 34
  · subst hquote
    cases hc : Cursor.contents? false s with
    | some c =>
      obtain ⟨hq, r, rfl⟩ := contents?_eq_some_iff.mp hc
      exact .inl ⟨_, _, r, by simp, .string hq⟩
    | none =>
      refine .inr ⟨_, .string fun c r h => ?_⟩
      rw [← Bool.not_eq_true]
      intro hq
      rw [contents?_eq_some_iff.mpr ⟨hq, r, h⟩] at hc
      cases hc
  by_cases hmark : Byte.isPunctuation b = true
  · exact .inl ⟨_, [b], s, rfl, .punctuation hmark⟩
  by_cases hword : Byte.isIdentifierStart b = true
  · obtain ⟨w, r, rfl, hw, hr⟩ := exists_stop (p := Byte.isIdentifierPart) s
    refine .inl ⟨_, b :: w, r, rfl, .word ?_ hr⟩
    rw [isIdentifier, hword, Bool.true_and, List.all_eq_true]
    exact hw
  by_cases hnumber : Byte.isNumberPart b = true
  · have hdigit := Byte.isDigit_of_numberPart hnumber (by simpa using hmark)
    obtain ⟨n, r, rfl, hn, hr⟩ := exists_stop (p := Byte.isNumberPart) s
    cases hl : Cursor.number (b :: n) with
    | error problem => exact .inr ⟨problem, .number hdigit hn hr hl⟩
    | ok l =>
      have hliteral := literal_of_number hl
      refine .inl ⟨l, l.literal, r, by rw [hliteral]; rfl, ?_⟩
      refine .number ⟨b, by simp [hliteral], hdigit⟩ ?_ (by rw [hliteral, hl]) hr
      rw [hliteral]
      exact List.forall_mem_cons.mpr ⟨hnumber, hn⟩
  by_cases hop : Byte.isOperator b = true
  · obtain ⟨o, r, rfl, ho, hr⟩ := exists_stop (p := Byte.isOperator) s
    exact .inl ⟨_, b :: o, r, rfl,
      .operator (by simp) (List.forall_mem_cons.mpr ⟨hop, ho⟩) hr⟩
  · -- A byte of none of the classes starts no token.
    rw [not_or] at hend
    simp only [Bool.not_eq_true] at hmark hword hnumber hop
    refine .inr ⟨_, .byte ?_ hquote hmark hword hnumber hop⟩
    simp [Byte.isSolid, hb, hend]

/-- Every text of whole lines is tiled up to its end or to where no token starts. -/
theorem exists_tiles (front : Bytes) (fresh : Bool) {s : Bytes} (hs : LineEnded s) :
    ∃ u ts r f, s = u ++ r ∧ Tiles front fresh u ts r f ∧
      (r = [] ∨ ∃ problem, NoToken problem r) := by
  induction hn : s.length using Nat.strong_induction_on generalizing s front fresh with
  | _ n ih =>
    obtain ⟨g, s, rfl, hg, hstart⟩ := exists_gap fresh hs
    cases s with
    | nil => exact ⟨g, [], [], fresh, rfl, .gap hg, .inl rfl⟩
    | cons b s =>
      obtain ⟨hb, hline⟩ := hstart b rfl
      rcases exists_span hs.of_append hb hline with ⟨l, w, s', hw, hspan⟩ | hnone
      · rw [hw] at hs hn ⊢
        -- The span is not empty, so what is left is shorter.
        have hlength := List.length_pos_iff.mpr hspan.ne_nil
        obtain ⟨u, ts, r, f, rfl, htiles, hr⟩ := ih s'.length (by simp [← hn]; omega)
          (front ++ g ++ w) (l == .separator) hs.of_append.of_append rfl
        exact ⟨g ++ w ++ u, _, r, f, by simp, .token hg hspan htiles, hr⟩
      · exact ⟨g, [], b :: s, fresh, rfl, .gap hg, .inr hnone⟩

/-! ## Whole texts -/

/-- A line break can be in a gap on a fresh line only. -/
theorem Gap.fresh_of_line {fresh : Bool} {g : Bytes} (h : Gap fresh g) (hg : 10 ∈ g) :
    fresh = true := by
  induction h with
  | nil => cases hg
  | blank hb _ ih =>
    rcases List.mem_cons.mp hg with rfl | hg
    · exact absurd hb (by decide)
    · exact ih hg
  | line => rfl
  | comment => rfl

/-- Only a separator ends a line, with a comment in front or without. -/
theorem Span.of_line {fresh : Bool} {l : Lexeme} {w s : Bytes} (h : Span fresh l w s)
    (hw : w.getLast? = some 10) :
    (l == .separator) = true ∧ (w = [10] ∨ ∃ c, 10 ∉ c ∧ w = 35 :: (c ++ [10])) := by
  have hmem : 10 ∈ w := List.mem_of_getLast? hw
  cases h with
  | newline => exact ⟨rfl, .inl rfl⟩
  | @comment c _ hc => exact ⟨rfl, .inr ⟨c, hc, rfl⟩⟩
  -- A string ends with its quote, even if lines end inside it.
  | string =>
    rw [← List.cons_append, List.getLast?_concat] at hw
    exact absurd hw (by decide)
  | punctuation hb =>
    cases List.mem_singleton.mp hmem
    exact absurd hb (by decide)
  | word hw => exact absurd (isIdentifierPart_of_mem hw 10 hmem) (by decide)
  | number _ hparts => exact absurd (hparts 10 hmem) (by decide)
  | operator _ ho => exact absurd (ho 10 hmem) (by decide)

/-- Behind whole lines a line is fresh. -/
theorem Tiles.fresh_of_lines {front u r : Bytes} {fresh f : Bool} {ts : List Token}
    (h : Tiles front fresh u ts r f) (hu : LineEnded u) (hempty : u = [] → fresh = true) :
    f = true := by
  induction h with
  | @gap front fresh g r hg =>
    by_cases hnil : g = []
    · exact hempty hnil
    · exact hg.fresh_of_line (List.mem_of_getLast? (hu.getLast? hnil))
  | @token front fresh g l w u ts r f hg hw _ ih =>
    refine ih hu.of_append ?_
    -- If nothing stands behind the token, its own span ends the line.
    rintro rfl
    rw [List.append_nil] at hu
    exact (hw.of_line (hu.of_append.getLast? hw.ne_nil)).1

/-- A whole text that is tiled splits into its tokens. -/
theorem Tiles.tokenize {source : Bytes} {ts : List Token} {f : Bool}
    (h : Tiles [] true (completed source) ts [] f) : tokenize source = .ok ts := by
  have hend : (Cursor.behind ([] ++ completed source) [] f).tokens = ([], none) :=
    Cursor.tokens_nil _ f
  have htokens := h.tokens
  rw [hend, List.append_nil, List.append_nil] at htokens
  exact tokenize_eq_ok_iff.mpr htokens

/-- A text that is tiled up to where no token starts is refused there. -/
theorem NoToken.tokenize {source u r : Bytes} {ts : List Token} {f : Bool}
    {problem : LexProblem} (h : NoToken problem r) (hu : Tiles [] true u ts r f)
    (hsource : completed source = u ++ r) :
    tokenize source = .error (.lex problem (.behind u)) := by
  obtain ⟨after, hread⟩ := h.read u f
  rw [tokenize_eq_error_iff, Cursor.ofText_eq_behind, hsource, hu.tokens, List.nil_append,
    Cursor.tokens_of_fault hread]

/-- A text is tiled to its end and read, or it is refused. -/
theorem exists_tokenize (source : Bytes) :
    (∃ ts, Tiles [] true (completed source) ts [] true ∧ tokenize source = .ok ts) ∨
    ∃ u r ts f problem, completed source = u ++ r ∧ Tiles [] true u ts r f ∧ NoToken problem r ∧
      tokenize source = .error (.lex problem (.behind u)) := by
  have hlines := lineEnded_completed source
  obtain ⟨u, ts, r, f, hsource, hu, rfl | ⟨problem, hr⟩⟩ := exists_tiles [] true hlines
  · rw [List.append_nil] at hsource
    rw [← hsource] at hu
    -- The text ends with a line break, so no token has come since.
    obtain rfl := hu.fresh_of_lines hlines (fun _ => rfl)
    exact .inl ⟨ts, hu, hu.tokenize⟩
  · exact .inr ⟨u, r, ts, f, problem, hsource, hu, hr, hr.tokenize hu hsource⟩

/-- A text is not refused if it is split, so it is tiled by its tokens. -/
theorem tiles_of_tokenize {source : Bytes} {ts : List Token} (h : tokenize source = .ok ts) :
    Tiles [] true (completed source) ts [] true := by
  obtain ⟨us, hus, hok⟩ | ⟨_, _, _, _, _, _, _, _, herror⟩ := exists_tokenize source
  · cases hok.symm.trans h
    exact hus
  · cases herror.symm.trans h

/-- A text splits into tokens exactly if they tile it, with the line break at its end
    that it may lack. It is refused exactly if it is tiled up to a place where no
    token starts, and the fault is at that place. -/
theorem tokenize_iff_tiles (source : Bytes) :
    (∀ ts, tokenize source = .ok ts ↔ Tiles [] true (completed source) ts [] true) ∧
    ∀ e, tokenize source = .error e ↔ ∃ u r ts f problem, completed source = u ++ r ∧
      Tiles [] true u ts r f ∧ NoToken problem r ∧ e = .lex problem (.behind u) := by
  constructor
  · exact fun ts => ⟨tiles_of_tokenize, Tiles.tokenize⟩
  · intro e
    constructor
    · intro h
      -- Of the two ways a text can be, only one agrees with the answer.
      obtain ⟨us, hus, hok⟩ | ⟨u, r, ts, f, problem, hsource, hu, hr, herror⟩ :=
        exists_tokenize source
      · cases hok.symm.trans h
      · cases herror.symm.trans h
        exact ⟨u, r, ts, f, problem, hsource, hu, hr, rfl⟩
    · rintro ⟨u, r, ts, f, problem, hsource, hu, hr, rfl⟩
      exact hr.tokenize hu hsource

-- The place is that of the byte `?`, on the second line of the text.
example : tokenize (text "x = \"a\nbc\" ?") = .error (.lex (.unexpectedByte 63) ⟨2, 5⟩) := by
  with_unfolding_all rfl

end Scriptlet

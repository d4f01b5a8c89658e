/-
  Scriptlet.Proofs.Lexing.Lines

  The tokens of a text line by line.

  What stands behind a tiled text counts only where its last run of bytes could go
  on (`Tiles.follow`), so a text that is cut at a line end is tiled piece by piece,
  and the second piece is tiled as it would be alone, some lines further down
  (`tokens_below`). A comment in front of a line break is read as the line break
  alone (`Cursor.tokens_remark`), and a text that can be split stands in front of
  one or in a comment of its own (`Tiles.cut`).
-/
import Scriptlet.Proofs.Lexing.Tiling
import Scriptlet.Proofs.Grammar.Pieces

namespace Scriptlet

/-! ## What follows -/

/-- Where a run of bytes ends before the first text it ends before the second, too.
    No run holds a line break or the start of a comment. -/
def StopsAlike (s s' : Bytes) : Prop :=
  ∀ p : UInt8 → Bool, p 10 = false → p 35 = false → Stops p s → Stops p s'

/-- Behind some bytes it does not matter what the text goes on with. -/
theorem stopsAlike_append (s r r' : Bytes) (hs : s ≠ []) : StopsAlike (s ++ r) (s ++ r') := by
  intro p _ _ h
  rwa [Stops, List.head?_append_of_ne_nil _ hs] at h ⊢

/-- A span stays one when the text behind it changes, if its run still ends there. -/
theorem Span.follow {fresh : Bool} {l : Lexeme} {w s s' : Bytes} (h : Span fresh l w s)
    (hs : (l == .separator) = true ∨ StopsAlike s s') : Span fresh l w s' := by
  cases h with
  | newline => exact .newline
  | comment hc => exact .comment hc
  | string hc => exact .string hc
  | punctuation hb => exact .punctuation hb
  | word hw hstops =>
    have hs := hs.resolve_left (by simp [word_ne_separator])
    exact .word hw (hs _ (by decide) (by decide) hstops)
  | number hfirst hparts hl hstops =>
    have hs := hs.resolve_left (by simp [number_ne_separator hl])
    exact .number hfirst hparts hl (hs _ (by decide) (by decide) hstops)
  | operator hne ho hstops =>
    have hs := hs.resolve_left (by simp [Lexeme.separator])
    exact .operator hne ho (hs _ (by decide) (by decide) hstops)

/-- Whole lines are tiled alike whatever follows them, any text if the last run of
    bytes ends where it did. -/
theorem Tiles.follow {front u r r' : Bytes} {fresh f : Bool} {ts : List Token}
    (h : Tiles front fresh u ts r f) (hr : LineEnded u ∨ StopsAlike r r') :
    Tiles front fresh u ts r' f := by
  induction h with
  | gap hg => exact .gap hg
  | @token front fresh g l w u ts r f hg hw _ ih =>
    refine .token hg (hw.follow ?_) (ih (hr.imp_left LineEnded.of_append))
    -- Only the last span sees what follows, and in whole lines it is a separator.
    by_cases hu : u = []
    · subst hu
      rw [List.append_nil] at hr
      exact hr.imp_left fun hline => (hw.of_line (hline.of_append.getLast? hw.ne_nil)).1
    · exact .inr (stopsAlike_append u r r' hu)

/-! ## Lines further down -/

/-- The place `n` lines further down. -/
def Position.down (n : Nat) (p : Position) : Position := ⟨p.line + n, p.column⟩

/-- A token with its position changed. -/
def Token.moved (f : Position → Position) (t : Token) : Token := ⟨t.lexeme, f t.position⟩

/-- A fault of reading with its position changed, and nothing else of it. -/
def Fault.moved (f : Position → Position) : Fault → Fault
  | .lex problem p => .lex problem (f p)
  | .parse problem p atEnd => .parse problem (f p) atEnd
  | fault => fault

/-- Behind whole lines places are those of the text alone, as many lines further down. -/
theorem Position.behind_append {a : Bytes} (ha : a.getLast? = some 10) (x : Bytes) :
    behind (a ++ x) = (behind x).down (a.count 10) := by
  have hcolumn : ((a ++ x).reverse.takeWhile (· != 10)) = x.reverse.takeWhile (· != 10) := by
    obtain ⟨a, rfl⟩ := List.getLast?_eq_some_iff.mp ha
    -- The run back to the last line break does not reach into the lines of `a`.
    rw [List.reverse_append, List.reverse_append, List.takeWhile_append]
    split
    · rename_i hall
      rw [(List.takeWhile_sublist _).eq_of_length hall]
      simp
    · rfl
  have hline : 1 + (a ++ x).count 10 = 1 + x.count 10 + a.count 10 := by
    rw [List.count_append]
    omega
  rw [behind, hcolumn, hline]
  rfl

/-- A text is tiled alike behind whole lines, as many lines further down. -/
theorem Tiles.behind_lines {a front u r : Bytes} {fresh f : Bool} {ts : List Token}
    (h : Tiles front fresh u ts r f) (ha : a.getLast? = some 10) :
    Tiles (a ++ front) fresh u (ts.map (Token.moved (Position.down (a.count 10)))) r f := by
  induction h with
  | gap hg => exact .gap hg
  | @token front fresh g l w u ts r f hg hw _ ih =>
    rw [← List.append_assoc, ← List.append_assoc] at ih
    have htiles := Tiles.token hg hw ih
    rwa [List.append_assoc a front g, Position.behind_append ha] at htiles

/-- Whole lines are read alike behind other lines, as many lines further down. -/
theorem tokens_below {a s : Bytes} (ha : a.getLast? = some 10) (hs : LineEnded s) (fresh : Bool) :
    (Cursor.behind a s fresh).tokens =
      ((Cursor.behind [] s fresh).tokens.1.map (Token.moved (Position.down (a.count 10))),
        (Cursor.behind [] s fresh).tokens.2.map (Fault.moved (Position.down (a.count 10)))) := by
  obtain ⟨u, ts, r, f, rfl, hu, hr⟩ := exists_tiles [] fresh hs
  have hbelow := (hu.behind_lines ha).tokens
  rw [List.append_nil] at hbelow
  rw [hbelow, hu.tokens, List.nil_append]
  -- The tiles end with the text or where no token starts, for both cursors.
  rcases hr with rfl | ⟨problem, hr⟩
  · rw [Cursor.behind, Cursor.behind, Cursor.tokens_nil, Cursor.tokens_nil]
    simp
  · obtain ⟨_, hread⟩ := hr.read u f
    obtain ⟨_, hread'⟩ := hr.read (a ++ u) f
    rw [Cursor.tokens_of_fault hread, Cursor.tokens_of_fault hread', Position.behind_append ha]
    simp [Fault.moved]

/-- The tokens of a text that is cut at a line end. -/
theorem tokens_append_line {a b : Bytes} {ts : List Token} (hline : a.getLast? = some 10)
    (ha : tokenize a = .ok ts) : (Cursor.ofText (a ++ b)).tokens =
      (ts ++ (Cursor.ofText b).tokens.1.map (Token.moved (Position.down (a.count 10))),
        (Cursor.ofText b).tokens.2.map (Fault.moved (Position.down (a.count 10)))) := by
  by_cases hb : b = []
  · -- An empty text is completed to a line break of its own, which `a ++ b` lacks.
    subst hb
    have hempty : Tiles [] true (completed []) [] [] true := .gap (.line .nil)
    rw [List.append_nil, tokenize_eq_ok_iff.mp ha, tokenize_eq_ok_iff.mp hempty.tokenize]
    simp
  · have htiles := tiles_of_tokenize ha
    rw [completed_of_line hline] at htiles
    have hfront : Tiles [] true a ts (completed b) true :=
      htiles.follow (.inl (by simp [LineEnded, hline]))
    rw [Cursor.ofText_eq_behind, completed_append a hb, hfront.tokens, List.nil_append,
      tokens_below hline (lineEnded_completed b)]
    rfl

/-! ## Comments -/

/-- Nothing, or a comment that is not closed. -/
def Remark (s : Bytes) : Prop := s = [] ∨ ∃ c, 10 ∉ c ∧ s = 35 :: c

/-- A comment behind a remark is a remark again. -/
theorem Remark.append {s c : Bytes} (h : Remark s) (hc : 10 ∉ c) : Remark (s ++ 35 :: c) := by
  rcases h with rfl | ⟨d, hd, rfl⟩
  · exact .inr ⟨c, hc, rfl⟩
  · exact .inr ⟨d ++ 35 :: c, by simp [hc, hd], rfl⟩

/-- No run of bytes goes on in a remark or a line break. -/
theorem Remark.stopsAlike {t : Bytes} (ht : Remark t) (r s : Bytes) :
    StopsAlike r (t ++ 10 :: s) := by
  intro p hline hcomment _
  rcases ht with rfl | ⟨c, -, rfl⟩
  · exact stops_cons.mpr hline
  · exact stops_cons.mpr hcomment

/-- The place behind a line break does not depend on what the line held. -/
theorem Position.advance_line (place : Position) {c : Bytes} (hc : 10 ∉ c) :
    place.advance (c ++ [10]) = place.step 10 := by
  induction c generalizing place with
  | nil => rfl
  | cons b c ih =>
    rw [List.mem_cons, not_or] at hc
    obtain ⟨hb, hc⟩ := hc
    rw [List.cons_append]
    show (place.step b).advance (c ++ [10]) = place.step 10
    rw [ih _ hc]
    simp [step, Ne.symm hb]

/-- A comment in front of a line break is read as the line break alone. -/
theorem Cursor.tokens_remark {t : Bytes} (ht : Remark t) (s : Bytes) (place : Position)
    (fresh : Bool) :
    (⟨t ++ 10 :: s, place, fresh⟩ : Cursor).tokens = (⟨10 :: s, place, fresh⟩ : Cursor).tokens := by
  rcases ht with rfl | ⟨c, hc, rfl⟩
  · rfl
  have hplace : place.advance (35 :: (c ++ (10 :: s).take 1)) = place.step 10 :=
    place.advance_line (c := 35 :: c) (by simp [hc])
  cases fresh with
  -- On a fresh line both are gaps, and on another both are the separator.
  | true =>
    refine tokens_congr ?_
    rw [List.cons_append, settle_comment place hc (.inl rfl), settle_newline, hplace]
  | false =>
    rw [List.cons_append, tokens_of_token (read_comment place hc (.inl rfl)),
      tokens_of_token read_newline, hplace]

/-- The last byte of two texts is that of the second one. -/
theorem exists_append_of_last {a x y : Bytes} {b : UInt8} (h : x ++ y = a ++ [b])
    (hy : y ≠ []) : ∃ y', y = y' ++ [b] ∧ a = x ++ y' := by
  obtain ⟨y', d, rfl⟩ := (List.eq_nil_or_concat' y).resolve_left hy
  rw [← List.append_assoc] at h
  obtain ⟨rfl, hd⟩ := List.append_inj' h rfl
  cases hd
  exact ⟨y', rfl, rfl⟩

/-- A gap that ends with a line break is a gap without it, but for the comment that the
    line break closed. -/
theorem Gap.cut {fresh : Bool} {s : Bytes} (h : Gap fresh s) {a : Bytes} (hs : s = a ++ [10]) :
    ∃ g t, a = g ++ t ∧ Gap fresh g ∧ Remark t := by
  induction h generalizing a with
  | nil => simp at hs
  | @blank fresh b g hb _ ih =>
    have hg : g ≠ [] := by
      rintro rfl
      obtain ⟨-, hten⟩ := List.append_inj' (show [] ++ [b] = a ++ [10] from hs) rfl
      cases hten
      exact absurd hb (by decide)
    obtain ⟨a, hcut, rfl⟩ := exists_append_of_last (x := [b]) hs hg
    obtain ⟨g', t, rfl, hg', ht⟩ := ih hcut
    exact ⟨b :: g', t, rfl, .blank hb hg', ht⟩
  | @line g _ ih =>
    by_cases hg : g = []
    · subst hg
      obtain rfl := (List.append_left_inj [10]).mp (show [] ++ [10] = a ++ [10] from hs)
      exact ⟨[], [], rfl, .nil, .inl rfl⟩
    · obtain ⟨a, hcut, rfl⟩ := exists_append_of_last (x := [10]) hs hg
      obtain ⟨g', t, rfl, hg', ht⟩ := ih hcut
      exact ⟨10 :: g', t, rfl, .line hg', ht⟩
  -- The line break may be the one that closed the comment, which is then open.
  | @comment c g hc _ ih =>
    by_cases hg : g = []
    · subst hg
      obtain rfl := (List.append_left_inj [10]).mp (show 35 :: c ++ [10] = a ++ [10] from hs)
      exact ⟨[], 35 :: c, rfl, .nil, .inr ⟨c, hc, rfl⟩⟩
    · obtain ⟨a, hcut, rfl⟩ :=
        exists_append_of_last (x := 35 :: (c ++ [10])) (by simpa using hs) hg
      obtain ⟨g', t, rfl, hg', ht⟩ := ih hcut
      exact ⟨35 :: (c ++ 10 :: g'), t, by simp, .comment hc hg', ht⟩

/-- A tiled text that ends with a line break is tiled without it, but for the comment that
    the line break closed. -/
theorem Tiles.cut {front s : Bytes} {fresh f : Bool} {ts : List Token}
    (h : Tiles front fresh s ts [] f) {a : Bytes} (hs : s = a ++ [10]) :
    ∃ u t us f', a = u ++ t ∧ Tiles front fresh u us (t ++ [10]) f' ∧ Remark t := by
  generalize hr : [] = r at h
  induction h generalizing a with
  | @gap front fresh g r hg =>
    obtain ⟨g', t, rfl, hg', ht⟩ := hg.cut hs
    exact ⟨g', t, [], fresh, rfl, .gap hg', ht⟩
  | @token front fresh g l w u ts r f hg hw _ ih =>
    subst hr
    by_cases hu : u = []
    · subst hu
      rw [List.append_nil] at hs
      obtain ⟨w', rfl, rfl⟩ := exists_append_of_last hs hw.ne_nil
      -- The span ends a line, so it is a line break or a comment with its line break.
      have ht : Remark w' := by
        obtain ⟨-, hline | ⟨c, hc, hline⟩⟩ := hw.of_line List.getLast?_concat
        · exact .inl ((List.append_left_inj [10]).mp hline)
        · exact .inr ⟨c, hc, (List.append_left_inj [10]).mp hline⟩
      exact ⟨g, w', [], fresh, rfl, .gap hg, ht⟩
    · obtain ⟨u', rfl, rfl⟩ := exists_append_of_last hs hu
      obtain ⟨v, t, us, f', rfl, hv, ht⟩ := ih rfl rfl
      refine ⟨g ++ w ++ v, t, _, f', by simp, .token hg ?_ hv, ht⟩
      simpa using hw

/-- A text that can be split is tiled, but for a comment at its end. -/
theorem exists_front {a : Bytes} {ts : List Token} (ha : tokenize a = .ok ts) :
    ∃ u t us r f, a = u ++ t ∧ Remark t ∧ Tiles [] true u us r f := by
  have htiles := tiles_of_tokenize ha
  by_cases hline : a.getLast? = some 10
  · rw [completed_of_line hline] at htiles
    exact ⟨a, [], ts, [], true, (List.append_nil a).symm, .inl rfl, htiles⟩
  · have hcompleted : completed a = a ++ [10] := by simp [completed, hline]
    obtain ⟨u, t, us, f, rfl, hu, ht⟩ := htiles.cut hcompleted
    exact ⟨u, t, us, _, f, rfl, ht, hu⟩

/-- The tokens of a tiled text and a line that starts with a remark. -/
theorem Tiles.tokens_remark {front u r : Bytes} {fresh f : Bool} {us : List Token}
    (h : Tiles front fresh u us r f) {t : Bytes} (ht : Remark t) (s : Bytes) :
    (Cursor.behind front (u ++ (t ++ 10 :: s)) fresh).tokens =
      (us ++ (Cursor.behind (front ++ u) (10 :: s) f).tokens.1,
        (Cursor.behind (front ++ u) (10 :: s) f).tokens.2) := by
  rw [(h.follow (.inr (ht.stopsAlike r s))).tokens, Cursor.behind, Cursor.tokens_remark ht]
  rfl

/-- A text that goes on behind a line break is completed behind it. -/
theorem exists_completed_line (b : Bytes) :
    ∃ s, ∀ a, completed (a ++ 10 :: b) = a ++ 10 :: s := by
  have hline : ∃ s, completed (10 :: b) = 10 :: s := by
    unfold completed
    split
    · exact ⟨b, rfl⟩
    · exact ⟨b ++ [10], rfl⟩
  obtain ⟨s, hs⟩ := hline
  exact ⟨s, fun a => by rw [completed_append a (List.cons_ne_nil 10 b), hs]⟩

/-- The program of a text depends on its tokens only, and on the fault behind them. -/
theorem parse_congr {source source' : Bytes}
    (h : (Cursor.ofText source).tokens = (Cursor.ofText source').tokens) :
    parse source = parse source' := by
  have hstream : (Lexer.ofText source).stream = (Lexer.ofText source').stream := by
    simp only [Lexer.stream, Lexer.tokens, Lexer.ofText, h]
  rw [parse, parse, hstream]

/-- A comment counts for nothing: behind a text that can be split, at the end of a line
    or on a line of its own or in a comment, it changes no token, no position and no
    fault. -/
theorem comment_insignificant {a c : Bytes} {ts : List Token} (ha : tokenize a = .ok ts)
    (hc : 10 ∉ c) (b : Bytes) :
    tokenize (a ++ 35 :: c ++ 10 :: b) = tokenize (a ++ 10 :: b) ∧
    parse (a ++ 35 :: c ++ 10 :: b) = parse (a ++ 10 :: b) := by
  have htokens : (Cursor.ofText (a ++ 35 :: c ++ 10 :: b)).tokens =
      (Cursor.ofText (a ++ 10 :: b)).tokens := by
    -- `a` is tiles and a remark; the comment makes a longer remark of it.
    obtain ⟨u, t, us, r, f, rfl, ht, hu⟩ := exists_front ha
    obtain ⟨s, hs⟩ := exists_completed_line b
    rw [Cursor.ofText_eq_behind, Cursor.ofText_eq_behind, hs, hs, List.append_assoc u t,
      List.append_assoc u, List.append_assoc u, hu.tokens_remark (ht.append hc),
      hu.tokens_remark ht]
  exact ⟨by rw [tokenize, tokenize, htokens], parse_congr htokens⟩

theorem comment_insignificant_behind_remark :
    tokenize (text "x # y") =
      .ok [⟨.identifier (text "x"), ⟨1, 1⟩⟩, ⟨.separator, ⟨1, 3⟩⟩] ∧
    10 ∉ text "\"#" ∧
    tokenize (text "x # y" ++ 35 :: text "\"#" ++ 10 :: text "1 ?") =
      tokenize (text "x # y" ++ 10 :: text "1 ?") ∧
    parse (text "x # y" ++ 35 :: text "\"#" ++ 10 :: text "1 ?") =
      parse (text "x # y" ++ 10 :: text "1 ?") := by
  have ha : tokenize (text "x # y") =
      .ok [⟨.identifier (text "x"), ⟨1, 1⟩⟩, ⟨.separator, ⟨1, 3⟩⟩] := by
    with_unfolding_all rfl
  have hc : 10 ∉ text "\"#" := by decide
  exact ⟨ha, hc, comment_insignificant ha hc (text "1 ?")⟩

end Scriptlet

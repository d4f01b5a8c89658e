/-
  Scriptlet.Proofs.Lexing.Quotes

  Which texts can stand between quotes.

  The reader of a string looks at one byte in front of a quote only, so backslashes do not
  escape each other: a text can stand between quotes exactly if each quote in it stands
  directly behind a backslash and its last byte is none (`isQuotable_eq_true_iff`). Such a
  text is read back as it is, and no other contents are ever read, wherever the reader
  stands.
-/
import Scriptlet.Proofs.Render.Proper

namespace Scriptlet

/-! ## Quotes and backslashes -/

/-- Every quote of the text stands directly behind a backslash, and its last byte is no
    backslash. -/
structure Quotable (s : Bytes) : Prop where
  escaped : ∀ x y, s = x ++ 34 :: y → x.getLast? = some 92
  closed : s.getLast? ≠ some 92

/-- Whether the byte in front of what follows the text is a backslash, given whether the
    byte in front of the text is one. -/
def leavesEscape (escaped : Bool) (x : Bytes) : Bool := (x.getLast?.map (· == 92)).getD escaped

/-- A byte in front of a text takes the place of the one before it. -/
theorem leavesEscape_cons (escaped : Bool) (b : UInt8) (x : Bytes) :
    leavesEscape escaped (b :: x) = leavesEscape (b == 92) x := by
  rw [leavesEscape, leavesEscape, List.getLast?_cons]
  cases x.getLast? <;> rfl

theorem leavesEscape_false {x : Bytes} : leavesEscape false x = true ↔ x.getLast? = some 92 := by
  rw [leavesEscape]
  cases x.getLast? <;> simp

/-- The test goes byte by byte and keeps in mind whether the last one was a backslash. -/
theorem isQuotable_iff_leavesEscape {escaped : Bool} {s : Bytes} :
    isQuotable escaped s = true ↔
      (∀ x y, s = x ++ 34 :: y → leavesEscape escaped x = true) ∧
        leavesEscape escaped s = false := by
  induction s generalizing escaped with
  -- Only the closing quote is behind the empty text.
  | nil => simp [isQuotable, leavesEscape]
  | cons b s ih =>
    rw [isQuotable, Bool.and_eq_true, ih, leavesEscape_cons]
    constructor
    · rintro ⟨hb, hs, hend⟩
      refine ⟨fun x y hsplit => ?_, hend⟩
      cases x with
      | nil =>
        obtain ⟨rfl, -⟩ := List.cons.inj hsplit
        simpa [leavesEscape] using hb
      | cons c x =>
        obtain ⟨rfl, hrest⟩ := List.cons.inj hsplit
        rw [leavesEscape_cons]
        exact hs x y hrest
    · rintro ⟨hs, hend⟩
      refine ⟨?_, fun x y hsplit => ?_, hend⟩
      · by_cases hb : b = 34
        · -- The first byte is a quote, and only the byte in front of the text counts.
          have hfront := hs [] s (by rw [hb]; rfl)
          simpa [leavesEscape] using Or.inr hfront
        · simp [hb]
      · rw [← leavesEscape_cons escaped]
        exact hs (b :: x) y (by rw [hsplit]; rfl)

/-- The test at an opening quote is for what can stand between quotes. -/
theorem isQuotable_eq_true_iff {s : Bytes} : isQuotable false s = true ↔ Quotable s := by
  rw [isQuotable_iff_leavesEscape, ← Bool.not_eq_true]
  simp only [leavesEscape_false]
  exact ⟨fun ⟨hescaped, hclosed⟩ => ⟨hescaped, hclosed⟩, fun h => ⟨h.escaped, h.closed⟩⟩

/-! ## Strings of a text -/

theorem Lexeme.quotable_of_isValid {s : Bytes} (h : (Lexeme.string s).isValid = true) :
    Quotable s :=
  isQuotable_eq_true_iff.mp h

/-- Every string of a text that is split can be written as it is. -/
theorem quotable_of_tokenize {source s : Bytes} {ts : List Token} (h : tokenize source = .ok ts)
    (hs : .string s ∈ ts.map Token.lexeme) : Quotable s :=
  Lexeme.quotable_of_isValid (isValid_of_tokenize h _ hs)

theorem Cursor.quotable_of_read {c after : Cursor} {t : Token} {s : Bytes}
    (h : c.read = .token t after) (hs : t.lexeme = .string s) : Quotable s := by
  have hvalid := (lexes_read h).isValid _ List.mem_cons_self
  rw [hs] at hvalid
  exact Lexeme.quotable_of_isValid hvalid

/-- A text between quotes is one string in front of the separator at its end. -/
theorem exists_tokenize_quoted {s : Bytes} (h : Quotable s) :
    ∃ ts, tokenize (34 :: (s ++ [34])) = .ok ts ∧
      ts.map Token.lexeme = [.string s, .separator] := by
  -- The text ends with its quote, so a line break is added.
  have hcompleted : completed (34 :: (s ++ [34])) = 34 :: (s ++ 34 :: [10]) := by
    rw [completed, if_neg]
    · simp
    · rw [← List.cons_append, List.getLast?_concat]
      decide
  refine exists_tokenize_iff.mpr ⟨true, ?_⟩
  rw [hcompleted]
  exact .string (isQuotable_eq_true_iff.mpr h) (.newline .stop)

/-- A text between quotes is read as one string with this text, in front of the separator at
    its end, exactly if each quote in it stands directly behind a backslash and its last byte
    is no backslash. Every string that is read satisfies this, in a text that is split and
    from any place where a reader stands. -/
theorem strings_exact :
    (∀ s : Bytes, (∃ ts, tokenize (34 :: (s ++ [34])) = .ok ts ∧
        ts.map Token.lexeme = [.string s, .separator]) ↔ Quotable s) ∧
    (∀ (source : Bytes) (ts : List Token), tokenize source = .ok ts →
      ∀ s, .string s ∈ ts.map Token.lexeme → Quotable s) ∧
    ∀ (c after : Cursor) (t : Token), c.read = .token t after →
      ∀ s, t.lexeme = .string s → Quotable s := by
  refine ⟨fun s => ⟨?_, exists_tokenize_quoted⟩, fun source ts hok s => quotable_of_tokenize hok,
    fun c after t hread s => Cursor.quotable_of_read hread⟩
  -- What is read as a string can be quoted, for any text that is split.
  rintro ⟨ts, hok, hts⟩
  exact quotable_of_tokenize hok (by simp [hts])

/-- Two backslashes in front of a quote escape it, and a text that ends with two cannot stand
    between quotes. -/
theorem strings_exact_backslashes :
    (∃ ts, tokenize (text "\"a\\\\\"b\"") = .ok ts ∧
      ts.map Token.lexeme = [.string (text "a\\\\\"b"), .separator]) ∧
    (¬∃ ts, tokenize (text "\"a\\\\\"") = .ok ts ∧
      ts.map Token.lexeme = [.string (text "a\\\\"), .separator]) ∧
    Quotable (text "a\\\\\"b") := by
  have hquotable : Quotable (text "a\\\\\"b") := isQuotable_eq_true_iff.mp (by decide)
  obtain ⟨hiff, hstrings, -⟩ := strings_exact
  obtain ⟨ts, hok, hts⟩ := (hiff (text "a\\\\\"b")).mpr hquotable
  refine ⟨⟨ts, hok, hts⟩, fun hsplit => ?_, ?_⟩
  · exact ((hiff (text "a\\\\")).mp hsplit).closed (by decide)
  · exact hstrings _ ts hok _ (by simp [hts])

end Scriptlet

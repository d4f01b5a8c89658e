/-
  Scriptlet.Proofs.Lexing.Positions

  Where tokens and faults are.

  The reader goes forward only, and every token takes a byte at least. So the
  positions of the tokens are places of the text, counted from one, and what stops
  the reading stands behind all of them (`Cursor.fault_position`).
-/
import Scriptlet.Proofs.Render.Proper

namespace Scriptlet

namespace Position

/-! ## The order of places -/

instance : LE Position :=
  ⟨fun p q => p.line < q.line ∨ p.line = q.line ∧ p.column ≤ q.column⟩

instance : LT Position :=
  ⟨fun p q => p.line < q.line ∨ p.line = q.line ∧ p.column < q.column⟩

variable {p q r : Position}

theorem le_iff : p ≤ q ↔ p.line < q.line ∨ p.line = q.line ∧ p.column ≤ q.column := Iff.rfl

theorem lt_iff : p < q ↔ p.line < q.line ∨ p.line = q.line ∧ p.column < q.column := Iff.rfl

theorem le_refl (p : Position) : p ≤ p := .inr ⟨rfl, Nat.le_refl _⟩

theorem le_trans (h : p ≤ q) (h' : q ≤ r) : p ≤ r := by
  rw [le_iff] at *
  omega

theorem lt_irrefl (p : Position) : ¬p < p := by
  rw [lt_iff]
  omega

theorem lt_of_lt_of_le (h : p < q) (h' : q ≤ r) : p < r := by
  rw [lt_iff] at *
  rw [le_iff] at h'
  omega

theorem le_of_lt (h : p < q) : p ≤ q := by
  rw [lt_iff] at h
  rw [le_iff]
  omega

/-- Every byte moves the place forward, a line break to the next line. -/
theorem lt_step (p : Position) (b : UInt8) : p < p.step b := by
  rw [lt_iff, step]
  split
  · exact .inl (Nat.lt_succ_self _)
  · exact .inr ⟨rfl, Nat.lt_succ_self _⟩

/-- A text moves it no way back. -/
theorem le_advance (p : Position) (bs : Bytes) : p ≤ p.advance bs := by
  induction bs generalizing p with
  | nil => exact le_refl p
  | cons b bs ih => exact le_trans (le_of_lt (lt_step p b)) (ih (p.step b))

/-- A text of some bytes moves it on. -/
theorem lt_advance (p : Position) {bs : Bytes} (h : bs ≠ []) : p < p.advance bs := by
  obtain ⟨b, bs, rfl⟩ := List.exists_cons_of_ne_nil h
  exact lt_of_lt_of_le (lt_step p b) (le_advance (p.step b) bs)

end Position

namespace Cursor

/-! ## The reader goes forward -/

variable {c after : Cursor}

/-- Skipping goes forward. -/
theorem le_place_skip (c : Cursor) (n : Nat) : c.place ≤ (c.skip n).place :=
  Position.le_advance _ _

theorem le_place_skipComment (c : Cursor) : c.place ≤ c.skipComment.place :=
  Position.le_trans (le_place_skip c _) (le_place_skip _ 1)

/-- Skipping something that is there goes on. -/
theorem lt_place_skip (h : c.rest ≠ []) {n : Nat} (hn : 0 < n) : c.place < (c.skip n).place := by
  refine Position.lt_advance _ ?_
  rw [ne_eq, List.take_eq_nil_iff]
  rintro (hzero | hnil)
  · omega
  · exact h hnil

theorem lt_place_skipWhile {p : UInt8 → Bool} {b : UInt8} {bs : Bytes} (h : c.rest = b :: bs)
    (hp : p b = true) : c.place < (c.skipWhile p).place :=
  lt_place_skip (by simp [h]) (length_run_pos h hp)

/-- Settling goes forward, line by line. -/
theorem le_place_settle (c : Cursor) : c.place ≤ c.settle.place := by
  fun_induction settle c with
  | case1 c d bs h hf ih =>
    exact Position.le_trans (le_place_skip c _) (Position.le_trans (le_place_skipComment d) ih)
  | case2 c d => exact le_place_skip c _
  | case3 c d bs h hf ih =>
    exact Position.le_trans (le_place_skip c _) (Position.le_trans (le_place_skip d 1) ih)
  | case4 c d => exact le_place_skip c _
  | case5 c d => exact le_place_skip c _

/-- A token stands where the gap in front of it ends, and the reader is then behind
    that place. -/
theorem read_token {t : Token} (h : c.read = .token t after) :
    t.position = c.settle.position ∧ c.settle.place < after.place := by
  cases scans_of_read h with
  -- The byte that starts the token is taken, so the reader has moved on.
  | comment hd =>
    have hcomment := lt_place_skipWhile (p := (· != 10)) hd (by decide)
    exact ⟨rfl, Position.lt_of_lt_of_le hcomment (le_place_skip _ 1)⟩
  | newline hd | punctuation hd => exact ⟨rfl, lt_place_skip (by simp [hd]) Nat.one_pos⟩
  | string hd => exact ⟨rfl, lt_place_skip (by simp [hd]) (Nat.succ_pos _)⟩
  | word hd hb => exact ⟨rfl, lt_place_skipWhile hd (by simp [Byte.isIdentifierPart, hb])⟩
  | number hd _ hb | operator hd hb => exact ⟨rfl, lt_place_skipWhile hd hb⟩

/-- A fault stands where the gap in front of it ends. -/
theorem read_fault {problem : LexProblem} {p : Position} (h : c.read = .fault problem p after) :
    p = c.settle.position := by
  cases scans_of_read h with
  | openString | noNumber | unexpected => rfl

/-! ## Whole texts -/

/-- Positions are ordered as the places they count from one. -/
theorem position_le {d : Cursor} (h : c.place ≤ d.place) : c.position ≤ d.position := by
  rw [Position.le_iff] at *
  simp only [position]
  omega

theorem position_lt {d : Cursor} (h : c.place < d.place) : c.position < d.position := by
  rw [Position.lt_iff] at *
  simp only [position]
  omega

/-- A fault ends the tokens. -/
theorem tokens_of_fault {problem : LexProblem} {p : Position}
    (h : c.read = .fault problem p after) : c.tokens = ([], some (.lex problem p)) := by
  rw [tokens]
  split <;> simp_all

/-- Tokens stand behind the cursor, at columns that count from one. -/
theorem token_position {t : Token} (h : t ∈ c.tokens.1) :
    c.position ≤ t.position ∧ 1 ≤ t.position.column := by
  -- From token to token, as the reader goes.
  induction c using Cursor.tokens.induct with
  | case1 c after hread =>
    rw [tokens_of_finished hread] at h
    cases h
  | case2 c problem p after hread =>
    rw [tokens_of_fault hread] at h
    cases h
  | case3 c u after hread ih =>
    obtain ⟨hplace, hafter⟩ := read_token hread
    have hsettle := position_le (le_place_settle c)
    rw [tokens_of_token hread] at h
    rcases List.mem_cons.mp h with rfl | h
    · rw [hplace]
      exact ⟨hsettle, Nat.succ_pos _⟩
    · obtain ⟨hle, hcolumn⟩ := ih h
      have hforward := Position.le_of_lt (position_lt hafter)
      exact ⟨Position.le_trans hsettle (Position.le_trans hforward hle), hcolumn⟩

/-- What stops the reading stands behind the cursor and behind every token. -/
theorem fault_position {f : Fault} (h : c.tokens.2 = some f) :
    (∃ problem, f = .lex problem f.position) ∧ c.position ≤ f.position ∧
      ∀ t ∈ c.tokens.1, t.position < f.position := by
  induction c using Cursor.tokens.induct with
  | case1 c after hread =>
    rw [tokens_of_finished hread] at h
    cases h
  | case2 c problem p after hread =>
    rw [tokens_of_fault hread] at h ⊢
    cases h
    refine ⟨⟨problem, rfl⟩, ?_, by simp⟩
    show c.position ≤ p
    rw [read_fault hread]
    exact position_le (le_place_settle c)
  -- The first token stands at the settled place, and all that follows starts behind it.
  | case3 c u after hread ih =>
    obtain ⟨hplace, hafter⟩ := read_token hread
    rw [tokens_of_token hread] at h ⊢
    obtain ⟨hlex, hle, hrest⟩ := ih h
    have hbehind : u.position < f.position := by
      rw [hplace]
      exact Position.lt_of_lt_of_le (position_lt hafter) hle
    have hsettle := position_le (le_place_settle c)
    rw [← hplace] at hsettle
    exact ⟨hlex, Position.le_trans hsettle (Position.le_of_lt hbehind),
      List.forall_mem_cons.mpr ⟨hbehind, hrest⟩⟩

/-- The tokens in front of a fault are valid too. -/
theorem isValid_of_mem_tokens {t : Token} (h : t ∈ c.tokens.1) : t.lexeme.isValid = true := by
  induction c using Cursor.tokens.induct with
  | case1 c after hread =>
    rw [tokens_of_finished hread] at h
    cases h
  | case2 c problem p after hread =>
    rw [tokens_of_fault hread] at h
    cases h
  | case3 c u after hread ih =>
    rw [tokens_of_token hread] at h
    rcases List.mem_cons.mp h with rfl | h
    · exact (lexes_read hread).isValid _ List.mem_cons_self
    · exact ih h

end Cursor

end Scriptlet

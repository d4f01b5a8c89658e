/-
  Scriptlet.Proofs.Lexing.Indexed

  The reader as a program that moves an index through a text.

  A cursor holds what lies ahead, so it cannot run off the text. The scanner here
  holds the whole text and an index into it. Its loops have no bound, and a step is
  undefined where it reads a byte or cuts a piece that the text does not have, and
  where it goes on for ever. From every index of the text it is defined, and gives
  what the cursor there gives (`Scanner.readNext_answers`), so whatever is asked of it
  in turn, the index stays in the text (`Scanner.foldlM_after?`).
-/
import Scriptlet.Proofs.Lexing
import Scriptlet.Token.Lookahead

namespace Scriptlet

namespace Cursor

/-- Nothing is skipped at the end. -/
theorem skip_of_nil {c : Cursor} (h : c.rest = []) (n : Nat) : c.skip n = c := by
  obtain ⟨rest, place, fresh⟩ := c
  obtain rfl : rest = [] := h
  simp [skip, Position.advance]

/-- Skipping twice is skipping both at once. -/
theorem skip_skip (c : Cursor) (n m : Nat) : (c.skip n).skip m = c.skip (n + m) := by
  simp only [skip, List.drop_drop, List.take_add, Position.advance_append]

/-! A settled cursor is behind the blanks, unless a line that has no token ends
there: then it is where settling behind that line leads. -/

/-- On a fresh line a comment is skipped. -/
theorem settle_of_comment {c : Cursor} {s : Bytes} (h : (c.skipWhile Byte.isBlank).rest = 35 :: s)
    (hfresh : c.fresh = true) : c.settle = (c.skipWhile Byte.isBlank).skipComment.settle := by
  rw [settle]
  split
  · exact if_pos hfresh
  · -- The comment stands behind the blanks, so neither of the other cases applies.
    rename_i hline
    rw [h] at hline
    cases hline
  · rename_i hno _
    exact absurd h (hno s)

/-- On a fresh line the line break is skipped. -/
theorem settle_of_newline {c : Cursor} {s : Bytes} (h : (c.skipWhile Byte.isBlank).rest = 10 :: s)
    (hfresh : c.fresh = true) : c.settle = ((c.skipWhile Byte.isBlank).skip 1).settle := by
  rw [settle]
  split
  · rename_i hcomment
    rw [h] at hcomment
    cases hcomment
  · exact if_pos hfresh
  · rename_i _ hno
    exact absurd h (hno s)

/-- Otherwise the cursor stays behind the blanks. -/
theorem settle_of_token {c : Cursor}
    (h : ∀ b ∈ (c.skipWhile Byte.isBlank).rest.head?, b = 35 ∨ b = 10 → c.fresh = false) :
    c.settle = c.skipWhile Byte.isBlank := by
  rw [settle]
  split
  · rename_i hcomment
    have hfresh := h 35 (by rw [hcomment]; rfl) (.inl rfl)
    exact if_neg (by simpa [skipWhile, skip] using hfresh)
  · rename_i hline
    have hfresh := h 10 (by rw [hline]; rfl) (.inr rfl)
    exact if_neg (by simpa [skipWhile, skip] using hfresh)
  · rfl

end Cursor

/-- A text, the index of the next byte in it, and the token read ahead, if one
    was. The place and `fresh` are those of a cursor. -/
structure Scanner where
  input : Bytes
  offset : Nat
  place : Position
  fresh : Bool
  ahead : Option Token

/-- A step of a scanner: it gives a result or a fault, or is undefined. -/
abbrev Scanning (α : Type) : Type := ExceptT Fault (StateT Scanner Option) α

namespace Scanner

/-! ## Bytes -/

/-- What there has to be: undefined where there is nothing. -/
def demand {α : Type} (x? : Option α) : Scanning α := fun σ => x?.map fun x => (.ok x, σ)

def hasByte : Scanning Bool := do
  let σ ← get
  return decide (σ.offset < σ.input.length)

/-- The next byte, which is left where it is; zero at the end. -/
def peekByte : Scanning UInt8 := do
  let σ ← get
  return σ.input[σ.offset]?.getD 0

/-- Takes the next byte, which has to be there. -/
def readByte : Scanning UInt8 := do
  let σ ← get
  let b ← demand σ.input[σ.offset]?
  set { σ with offset := σ.offset + 1, place := σ.place.step b }
  return b

/-- The text between an earlier index and this one. -/
def sliceFrom (start : Nat) : Scanning Bytes := do
  let σ ← get
  demand <|
    if start ≤ σ.offset ∧ σ.offset ≤ σ.input.length then
      some ((σ.input.drop start).take (σ.offset - start))
    else none

/-! ## Loops -/

/-- A turn of a loop hands a value on to the next turn, or ends the loop with a result. -/
structure Loop (γ α : Type) where
  turn : γ → Scanning (γ ⊕ α)

/-- Turn after turn from a value, with no bound on their number. -/
def Loop.run {γ α : Type} (l : Loop γ α) (x : γ) : Scanning α := do
  match ← l.turn x with
  | .inl y => l |>.run y
  | .inr a => return a
partial_fixpoint

/-- Takes bytes as long as they satisfy `p`. -/
def passing (p : UInt8 → Bool) : Loop Unit Unit where
  turn _ := do
    let more ← hasByte
    let b ← peekByte
    if more && p b then do
      let _ ← readByte
      return .inl ()
    else return .inr ()

def readWhile (p : UInt8 → Bool) : Scanning Bytes := do
  let σ ← get
  (passing p).run ()
  sliceFrom σ.offset

def skipComment : Scanning Unit := do
  let _ ← readWhile (· != 10)
  if ← hasByte then do
    let _ ← readByte
    return ()
  else return ()

/-! ## Tokens -/

/-- A token that is no separator. -/
def produce (l : Lexeme) (p : Position) : Scanning (Option Token) := do
  modify fun σ => { σ with fresh := false }
  return some ⟨l, p⟩

def separator (p : Position) : Scanning (Option Token) := do
  modify fun σ => { σ with fresh := true }
  return some ⟨.separator, p⟩

/-- The token of a run of digits and points. With a point in it, its first and its
    last byte are looked at, and have to be there. -/
def judge (p : Position) (literal : Bytes) : Scanning (Option Token) := do
  if literal.count 46 = 0 then
    let n := Bytes.value literal
    if Word.holds n then produce (.integer literal (Int64.ofNat n)) p
    else produce (.float literal (Double.ofDecimal false n 0)) p
  else do
    let first ← demand literal[0]?
    let last ← demand literal[literal.length - 1]?
    if 1 < literal.count 46 ∨ first = 46 ∨ last = 46 then throw (.lex (.invalidFloat literal) p)
    else
      match Numeral.readDouble literal with
      | some d =>
        if d.isInfinite then throw (.lex (.invalidFloat literal) p)
        else produce (.float literal d) p
      | none => throw (.lex (.invalidFloat literal) p)

def readNumber (p : Position) : Scanning (Option Token) := do
  let literal ← readWhile Byte.isNumberPart
  judge p literal

/-- The rest of a string behind the contents read so far, and whether they end with a
    backslash. -/
def closing (p : Position) : Loop (Bool × Bytes) (Option Token) where
  turn x := do
    if ← hasByte then do
      let b ← readByte
      if b == 34 && !x.1 then return .inr (← produce (.string x.2) p)
      else return .inl (b == 92, x.2 ++ [b])
    else throw (.lex .unterminatedString p)

def readString (p : Position) : Scanning (Option Token) := do
  let _ ← readByte
  (closing p).run (false, [])

/-- The token that starts with the byte `b`, which ends no line. -/
def readToken (b : UInt8) (p : Position) : Scanning (Option Token) := do
  if b == 34 then readString p
  else if Byte.isPunctuation b then do
    let mark ← readByte
    produce (.punctuation [mark]) p
  else if Byte.isIdentifierStart b then do
    let w ← readWhile Byte.isIdentifierPart
    produce (.word w) p
  else if Byte.isNumberPart b then readNumber p
  else if Byte.isOperator b then do
    let w ← readWhile Byte.isOperator
    produce (.operator w) p
  else throw (.lex (.unexpectedByte b) p)

/-- The end of a line: behind a line without a token reading goes on. -/
def endLine (fresh : Bool) (p : Position) : Scanning (Unit ⊕ Option Token) := do
  if fresh then return .inl () else return .inr (← separator p)

/-- Passes over lines without a token. -/
def reading : Loop Unit (Option Token) where
  turn _ := do
    let _ ← readWhile Byte.isBlank
    if ← hasByte then do
      let σ ← get
      let p : Position := ⟨σ.place.line, σ.place.column + 1⟩
      let b ← peekByte
      if b == 35 then do
        skipComment
        endLine σ.fresh p
      else if b == 10 then do
        let _ ← readByte
        endLine σ.fresh p
      else return .inr (← readToken b p)
    else return .inr none

/-- Reads one token, or gives `none` at the end. -/
def readNext : Scanning (Option Token) := reading.run ()

/-! ## What a step gives -/

/-- The cursor that stands where the scanner does. -/
def cursor (σ : Scanner) : Cursor := ⟨σ.input.drop σ.offset, σ.place, σ.fresh⟩

/-- The second scanner is the first one moved to a cursor, inside the text. -/
structure Reaches (σ σ' : Scanner) (c : Cursor) : Prop where
  input : σ'.input = σ.input
  ahead : σ'.ahead = σ.ahead
  inRange : σ'.offset ≤ σ'.input.length
  cursor : σ'.cursor = c

/-- The step is defined, gives the answer and leaves the scanner at a cursor. -/
def Gives {α : Type} (m : Scanning α) (σ : Scanner) (answer : Except Fault α) (c : Cursor) : Prop :=
  ∃ σ', m σ = some (answer, σ') ∧ σ.Reaches σ' c

variable {α β : Type} {σ σ' : Scanner} {c d : Cursor} {b : UInt8} {bs : Bytes}

theorem Reaches.refl (h : σ.offset ≤ σ.input.length) : σ.Reaches σ σ.cursor := ⟨rfl, rfl, h, rfl⟩

theorem Reaches.trans {σ'' : Scanner} (h : σ.Reaches σ' c) (h' : σ'.Reaches σ'' d) :
    σ.Reaches σ'' d :=
  ⟨h'.input.trans h.input, h'.ahead.trans h.ahead, h'.inRange, h'.cursor⟩

/-- What a sequence of steps does to a scanner, faults and undefined steps first. -/
theorem bind_apply (m : Scanning α) (f : α → Scanning β) (σ : Scanner) :
    (m >>= f) σ = (m σ).bind fun x =>
      match x with
      | (.ok a, σ') => f a σ'
      | (.error fault, σ') => some (.error fault, σ') := by
  show ((m σ).bind fun x => ExceptT.bindCont f x.1 x.2) = _
  refine congrArg _ (funext fun x => ?_)
  obtain ⟨a | fault, σ'⟩ := x <;> rfl

/-- Steps in sequence: the second has to give its answer from wherever the first can lead. -/
theorem Gives.bind {m : Scanning α} {f : α → Scanning β} {a : α} {answer : Except Fault β}
    (hm : Gives m σ (.ok a) c) (hf : ∀ σ', σ.Reaches σ' c → Gives (f a) σ' answer d) :
    Gives (m >>= f) σ answer d := by
  obtain ⟨σ', hm, hσ'⟩ := hm
  obtain ⟨σ'', hf, hσ''⟩ := hf σ' hσ'
  exact ⟨σ'', by rw [bind_apply, hm]; exact hf, hσ'.trans hσ''⟩

/-- A step that leaves the scanner where it is. -/
theorem Gives.bind_still {m : Scanning α} {f : α → Scanning β} {a : α} {answer : Except Fault β}
    (hm : m σ = some (.ok a, σ)) (hf : Gives (f a) σ answer d) : Gives (m >>= f) σ answer d := by
  obtain ⟨σ', hf, hσ'⟩ := hf
  exact ⟨σ', by rw [bind_apply, hm]; exact hf, hσ'⟩

/-- A step that only returns stays where it is. -/
theorem Gives.pure (a : α) (h : σ.offset ≤ σ.input.length) :
    Gives (Pure.pure a : Scanning α) σ (.ok a) σ.cursor :=
  ⟨σ, rfl, .refl h⟩

theorem Gives.map {m : Scanning α} {a : α} (hm : Gives m σ (.ok a) c) (f : α → β) :
    Gives (m >>= fun a => Pure.pure (f a)) σ (.ok (f a)) c :=
  hm.bind fun _ hσ' => hσ'.cursor ▸ .pure (f a) hσ'.inRange

theorem Gives.throw (fault : Fault) (h : σ.offset ≤ σ.input.length) :
    Gives (throw fault : Scanning α) σ (.error fault) σ.cursor :=
  ⟨σ, rfl, .refl h⟩

/-! ### Loops -/

section Loops

variable {γ : Type} {l : Loop γ α} {x y : γ} {answer : Except Fault α}

/-- A loop makes a turn, and runs on unless the turn ended it. -/
theorem Loop.run_eq (l : Loop γ α) (x : γ) : l.run x = l.turn x >>= Sum.elim l.run pure := by
  rw [run]
  refine congrArg _ (funext fun r => ?_)
  cases r <;> rfl

/-- A turn that goes on hands its value to the rest of the loop. -/
theorem Gives.loop_again (hturn : Gives (l.turn x) σ (.ok (.inl y)) c)
    (hrun : ∀ σ', σ.Reaches σ' c → Gives (l.run y) σ' answer d) : Gives (l.run x) σ answer d := by
  rw [Loop.run_eq]
  exact hturn.bind hrun

/-- A turn that ends the loop gives its result. -/
theorem Gives.loop_end {a : α} (hturn : Gives (l.turn x) σ (.ok (.inr a)) c) :
    Gives (l.run x) σ (.ok a) c := by
  rw [Loop.run_eq]
  exact hturn.bind fun σ' hσ' => hσ'.cursor ▸ .pure a hσ'.inRange

/-- A turn that fails ends the loop with its fault. -/
theorem Gives.loop_error {fault : Fault} (hturn : Gives (l.turn x) σ (.error fault) c) :
    Gives (l.run x) σ (.error fault) c := by
  rw [Loop.run_eq]
  obtain ⟨σ', hturn, hσ'⟩ := hturn
  exact ⟨σ', by rw [bind_apply, hturn]; rfl, hσ'⟩

end Loops

/-! ### Bytes -/

/-- What lies ahead is as long as the text behind the index. -/
theorem length_rest (σ : Scanner) : σ.cursor.rest.length = σ.input.length - σ.offset :=
  List.length_drop

theorem length_le_of_nil (h : σ.cursor.rest = []) : σ.input.length ≤ σ.offset :=
  List.drop_eq_nil_iff.mp h

/-- The first byte ahead is the one at the index. -/
theorem getElem?_of_cons (h : σ.cursor.rest = b :: bs) : σ.input[σ.offset]? = some b := by
  have hhead : σ.cursor.rest.head? = some b := by rw [h]; rfl
  rwa [cursor, List.head?_drop] at hhead

/-- So the index is one of the text. -/
theorem lt_length_of_cons (h : σ.cursor.rest = b :: bs) : σ.offset < σ.input.length :=
  (List.getElem?_eq_some_iff.mp (getElem?_of_cons h)).1

theorem hasByte_nil (h : σ.cursor.rest = []) : hasByte σ = some (.ok false, σ) := by
  have hno : decide (σ.offset < σ.input.length) = false := by simpa using length_le_of_nil h
  rw [← hno]
  rfl

theorem hasByte_cons (h : σ.cursor.rest = b :: bs) : hasByte σ = some (.ok true, σ) := by
  have hyes : decide (σ.offset < σ.input.length) = true := by simpa using lt_length_of_cons h
  rw [← hyes]
  rfl

theorem peekByte_cons (h : σ.cursor.rest = b :: bs) : peekByte σ = some (.ok b, σ) := by
  have hbyte : σ.input[σ.offset]?.getD 0 = b := by rw [getElem?_of_cons h]; rfl
  rw [← hbyte]
  rfl

/-- Taking the byte that is there moves the scanner as skipping one moves the cursor. -/
theorem readByte_cons (h : σ.cursor.rest = b :: bs) :
    Gives readByte σ (.ok b) (σ.cursor.skip 1) := by
  have hbound := lt_length_of_cons h
  refine ⟨{ σ with offset := σ.offset + 1, place := σ.place.step b }, ?_, rfl, rfl, hbound, ?_⟩
  · have hread : readByte σ = (σ.input[σ.offset]?).map fun b =>
        (.ok b, { σ with offset := σ.offset + 1, place := σ.place.step b }) := by
      show ((σ.input[σ.offset]?).map fun b => _).bind _ = _
      cases σ.input[σ.offset]? <;> rfl
    rw [hread, getElem?_of_cons h]
    rfl
  · -- The place moves by the byte that was taken.
    have hplace : σ.cursor.rest.take 1 = [b] := by rw [h]; rfl
    rw [Cursor.skip, hplace]
    simp only [cursor, List.drop_drop]
    rfl

/-! ### Runs of bytes -/

/-- Both tests of a turn see the byte ahead. -/
theorem passing_turn {p : UInt8 → Bool} {r : Unit ⊕ Unit} (hrest : σ.cursor.rest = b :: bs)
    (hturn : Gives (if p b then do let _ ← readByte; return .inl () else return .inr ())
      σ (.ok r) c) : Gives ((passing p).turn ()) σ (.ok r) c :=
  .bind_still (hasByte_cons hrest) (.bind_still (peekByte_cons hrest) hturn)

/-- The loop over a run takes what the cursor skips. -/
theorem passing_gives (p : UInt8 → Bool) (h : σ.offset ≤ σ.input.length) :
    Gives ((passing p).run ()) σ (.ok ()) (σ.cursor.skipWhile p) := by
  -- On what lies ahead: a turn that goes on has taken the first byte of it.
  induction hrest : σ.cursor.rest generalizing σ with
  | nil =>
    have hstop : σ.cursor.skipWhile p = σ.cursor := by
      rw [Cursor.skipWhile, Cursor.run, hrest]
      rfl
    rw [hstop]
    exact .loop_end (.bind_still (hasByte_nil hrest) (.bind_still rfl (.pure _ h)))
  | cons b bs ih =>
    have hcursor : σ.cursor = ⟨b :: bs, σ.place, σ.fresh⟩ := by rw [← hrest]; rfl
    cases hp : p b with
    | true =>
      have hskip : σ.cursor.skipWhile p = (σ.cursor.skip 1).skipWhile p := by
        rw [hcursor, Cursor.skipWhile_cons hp]
        rfl
      have hturn : Gives ((passing p).turn ()) σ (.ok (.inl ())) (σ.cursor.skip 1) := by
        refine passing_turn hrest ?_
        rw [if_pos hp]
        exact (readByte_cons hrest).map fun _ => Sum.inl ()
      rw [hskip]
      refine .loop_again hturn fun σ₁ h₁ => ?_
      have hnext : σ₁.cursor.rest = bs := by
        rw [h₁.cursor, hcursor]
        rfl
      rw [← h₁.cursor]
      exact ih h₁.inRange hnext
    -- The byte ends the run, and nothing is taken.
    | false =>
      have hstop : σ.cursor.skipWhile p = σ.cursor := by
        rw [hcursor]
        exact Cursor.skipWhile_append (w := []) (by simp) (stops_cons.mpr hp)
      rw [hstop]
      refine .loop_end (passing_turn hrest ?_)
      rw [if_neg (by simp [hp])]
      exact .pure _ h

/-- The index moves by as many bytes as were skipped. -/
theorem Reaches.offset_skip {n : Nat} (h : σ.offset ≤ σ.input.length)
    (hn : n ≤ σ.cursor.rest.length) (hσ' : σ.Reaches σ' (σ.cursor.skip n)) :
    σ'.offset = σ.offset + n := by
  have hleft := σ'.length_rest
  have hrange := hσ'.inRange
  rw [hσ'.cursor, Cursor.length_skip, hσ'.input] at hleft
  rw [hσ'.input] at hrange
  rw [length_rest] at hleft hn
  omega

/-- What was taken since is the piece of the text between the two indices. -/
theorem sliceFrom_eq {n : Nat} (h : σ.offset ≤ σ.input.length)
    (hn : n ≤ σ.cursor.rest.length) (hσ' : σ.Reaches σ' (σ.cursor.skip n)) :
    sliceFrom σ.offset σ' = some (.ok (σ.cursor.rest.take n), σ') := by
  have hoffset := hσ'.offset_skip h hn
  have hinside : σ.offset ≤ σ'.offset ∧ σ'.offset ≤ σ'.input.length :=
    ⟨by omega, hσ'.inRange⟩
  have htaken : σ'.offset - σ.offset = n := by omega
  show demand (if _ then some _ else none) σ' = _
  rw [if_pos hinside, htaken, hσ'.input]
  rfl

/-- The piece that is cut is the run. -/
theorem readWhile_gives (p : UInt8 → Bool) (h : σ.offset ≤ σ.input.length) :
    Gives (readWhile p) σ (.ok (σ.cursor.run p)) (σ.cursor.skipWhile p) := by
  have hrun : σ.cursor.run p <+: σ.cursor.rest := List.takeWhile_prefix p
  refine .bind_still rfl ((passing_gives p h).bind fun σ₁ h₁ => ⟨σ₁, ?_, ?_⟩)
  · rw [sliceFrom_eq h hrun.length_le h₁, ← List.prefix_iff_eq_take.mp hrun]
  · exact ⟨rfl, rfl, h₁.inRange, h₁.cursor⟩

/-- A comment is passed over with its line break. -/
theorem skipComment_gives (h : σ.offset ≤ σ.input.length) :
    Gives skipComment σ (.ok ()) σ.cursor.skipComment := by
  refine (readWhile_gives _ h).bind fun σ₁ h₁ => ?_
  rw [Cursor.skipComment, ← h₁.cursor]
  cases hrest : σ₁.cursor.rest with
  -- At the end of the text there is no line break to take.
  | nil =>
    rw [Cursor.skip_of_nil hrest]
    exact .bind_still (hasByte_nil hrest) (.pure () h₁.inRange)
  | cons b bs =>
    refine .bind_still (hasByte_cons hrest) ((readByte_cons hrest).bind fun σ₂ h₂ => ?_)
    rw [← h₂.cursor]
    exact .pure () h₂.inRange

/-! ### Tokens -/

/-- A token that is no separator leaves a line that is not fresh. -/
theorem produce_gives (l : Lexeme) (p : Position) (h : σ.offset ≤ σ.input.length) :
    Gives (produce l p) σ (.ok (some ⟨l, p⟩)) { σ.cursor with fresh := false } :=
  ⟨{ σ with fresh := false }, rfl, rfl, rfl, h, rfl⟩

/-- A separator leaves a fresh line. -/
theorem separator_gives (p : Position) (h : σ.offset ≤ σ.input.length) :
    Gives (separator p) σ (.ok (some ⟨.separator, p⟩)) { σ.cursor with fresh := true } :=
  ⟨{ σ with fresh := true }, rfl, rfl, rfl, h, rfl⟩

/-- The step is defined, and answers what reading with a cursor gave. -/
def Answers (m : Scanning (Option Token)) (σ : Scanner) : Cursor.Scan → Prop
  | .token t after => Gives m σ (.ok (some t)) after
  | .finished after => Gives m σ (.ok none) after
  | .fault problem p after => Gives m σ (.error (.lex problem p)) after

variable {scan : Cursor.Scan} {m : Scanning (Option Token)} {p : Position}

/-- Steps in sequence answer as reading does, if the last one does. -/
theorem Answers.bind {m : Scanning α} {f : α → Scanning (Option Token)} {a : α}
    (hm : Gives m σ (.ok a) c) (hf : ∀ σ', σ.Reaches σ' c → Answers (f a) σ' scan) :
    Answers (m >>= f) σ scan := by
  cases scan <;> exact hm.bind hf

theorem Answers.bind_still {m : Scanning α} {f : α → Scanning (Option Token)} {a : α}
    (hm : m σ = some (.ok a, σ)) (hf : Answers (f a) σ scan) : Answers (m >>= f) σ scan := by
  cases scan <;> exact .bind_still hm hf

/-- A loop that goes on answers as its next turn does. -/
theorem Answers.loop_again {γ : Type} {l : Loop γ (Option Token)} {x y : γ}
    (hturn : Gives (l.turn x) σ (.ok (.inl y)) c)
    (hrun : ∀ σ', σ.Reaches σ' c → Answers (l.run y) σ' scan) : Answers (l.run x) σ scan := by
  cases scan <;> exact hturn.loop_again hrun

/-- A lexical fault is answered where the scanner stands. -/
theorem throw_answers (problem : LexProblem) (h : σ.offset ≤ σ.input.length) :
    Answers (throw (.lex problem p)) σ (.fault problem p σ.cursor) :=
  Gives.throw (.lex problem p) h

/-- What judging a literal comes to, at a cursor behind it. -/
def verdict (p : Position) (c : Cursor) : Except LexProblem Lexeme → Cursor.Scan
  | .ok l => .token ⟨l, p⟩ { c with fresh := false }
  | .error problem => .fault problem p c

/-- A number is looked at only where it has a byte. -/
theorem judge_answers {literal : Bytes} (hsome : literal ≠ []) (h : σ.offset ≤ σ.input.length) :
    Answers (judge p literal) σ (verdict p σ.cursor (Cursor.number literal)) := by
  have hfirst : literal[0]? = some (literal.head hsome) := by
    rw [← List.head?_eq_getElem?, List.head?_eq_some_head]
  have hlast : literal[literal.length - 1]? = some (literal.getLast hsome) := by
    rw [← List.getLast?_eq_getElem?, List.getLast?_eq_some_getLast]
  rcases hdots : literal.count 46 with _ | _ | n
  · -- Without a point the literal is an integer, or a float out of range.
    simp only [Cursor.number, judge, hdots, if_true]
    split <;> exact produce_gives _ p h
  · -- With one point both its ends are looked at, and both are there.
    simp only [Cursor.number, judge, hdots, hfirst, hlast, List.head?_eq_some_head hsome,
      List.getLast?_eq_some_getLast hsome, if_neg Nat.one_ne_zero]
    refine .bind_still rfl (.bind_still rfl ?_)
    by_cases hends : literal.head hsome = 46 ∨ literal.getLast hsome = 46
    · rw [if_pos (.inr hends), if_pos (by simpa using hends)]
      exact throw_answers _ h
    · rw [if_neg (by simpa using hends), if_neg (by simpa using hends)]
      cases Numeral.readDouble literal with
      | none => exact throw_answers _ h
      | some d =>
        dsimp only
        split
        · exact throw_answers _ h
        · exact produce_gives _ p h
  · -- With two points or more it is invalid, and its ends are looked at first all the same.
    simp only [Cursor.number, judge, hdots, hfirst, hlast, if_neg (Nat.succ_ne_zero _)]
    refine .bind_still rfl (.bind_still rfl ?_)
    rw [if_pos (.inl (by omega))]
    exact throw_answers _ h

/-- A string is read to its end, or to the end of the text. -/
theorem closing_answers (escaped : Bool) (front : Bytes) (h : σ.offset ≤ σ.input.length) :
    Answers ((closing p).run (escaped, front)) σ
      (match Cursor.contents? escaped σ.cursor.rest with
      | some s =>
        .token ⟨.string (front ++ s), p⟩ { σ.cursor.skip (s.length + 1) with fresh := false }
      | none => .fault .unterminatedString p (σ.cursor.skip σ.cursor.rest.length)) := by
  induction hrest : σ.cursor.rest generalizing σ escaped front with
  | nil =>
    rw [Cursor.contents?, Cursor.skip_of_nil hrest]
    exact .loop_error (.bind_still (hasByte_nil hrest) (.throw _ h))
  | cons b bs ih =>
    rw [Cursor.contents?]
    by_cases hclose : (b == 34 && !escaped) = true
    · -- A quote that is not escaped closes the string.
      have hturn : Gives ((closing p).turn (escaped, front)) σ
          (.ok (.inr (some ⟨.string front, p⟩))) { σ.cursor.skip 1 with fresh := false } := by
        refine .bind_still (hasByte_cons hrest) ((readByte_cons hrest).bind fun σ₁ h₁ => ?_)
        rw [if_pos hclose, ← h₁.cursor]
        exact (produce_gives _ p h₁.inRange).map Sum.inr
      rw [if_pos hclose]
      dsimp only
      rw [List.append_nil]
      exact hturn.loop_end
    · -- The byte is one of the contents, and the rest is read behind it.
      have hturn : Gives ((closing p).turn (escaped, front)) σ (.ok (.inl (b == 92, front ++ [b])))
          (σ.cursor.skip 1) := by
        refine .bind_still (hasByte_cons hrest) ((readByte_cons hrest).bind fun σ₁ h₁ => ?_)
        rw [if_neg hclose, ← h₁.cursor]
        exact .pure _ h₁.inRange
      rw [if_neg hclose]
      refine .loop_again hturn fun σ₁ h₁ => ?_
      have hbehind : σ₁.cursor.rest = bs := by
        rw [h₁.cursor, Cursor.skip, hrest]
        rfl
      have hskip : ∀ n, σ.cursor.skip (n + 1) = σ₁.cursor.skip n := by
        intro n
        rw [h₁.cursor, Cursor.skip_skip, Nat.add_comm]
      have hrec := ih (b == 92) (front ++ [b]) h₁.inRange hbehind
      cases hcontents : Cursor.contents? (b == 92) bs with
      | none =>
        rw [hcontents] at hrec
        rw [Option.map_none, List.length_cons, hskip]
        exact hrec
      | some s =>
        rw [hcontents] at hrec
        dsimp only [Option.map_some] at hrec ⊢
        rw [List.append_assoc, List.singleton_append] at hrec
        rwa [List.length_cons, hskip]

/-- A token behind the gap is read as the cursor reads it. -/
theorem readToken_answers (hsettle : c.settle = σ.cursor) (hrest : σ.cursor.rest = b :: bs)
    (hcomment : b ≠ 35) (hline : b ≠ 10) : Answers (readToken b σ.cursor.position) σ c.read := by
  have h : σ.offset ≤ σ.input.length := (lt_length_of_cons hrest).le
  unfold Cursor.read readToken
  simp only [hsettle, hrest, beq_iff_eq, if_neg hcomment, if_neg hline]
  -- Case by case in the order of the cursor: strings, punctuation, words, numbers, operators.
  split
  · refine .bind (readByte_cons hrest) fun σ₁ h₁ => ?_
    have hcontents := closing_answers (p := σ.cursor.position) false [] h₁.inRange
    have hbehind : σ₁.cursor.rest = bs := by
      rw [h₁.cursor, Cursor.skip, hrest]
      rfl
    rw [hbehind, h₁.cursor] at hcontents
    simp only [Cursor.skip_skip, Nat.add_comm 1] at hcontents
    cases hclosed : Cursor.contents? false bs <;> rwa [hclosed] at hcontents
  split
  · refine .bind (readByte_cons hrest) fun σ₁ h₁ => ?_
    rw [← h₁.cursor]
    exact produce_gives _ _ h₁.inRange
  split
  · refine .bind (readWhile_gives _ h) fun σ₁ h₁ => ?_
    rw [← h₁.cursor]
    exact produce_gives _ _ h₁.inRange
  split
  · rename_i hnumber
    refine .bind (readWhile_gives _ h) fun σ₁ h₁ => ?_
    rw [← h₁.cursor]
    -- The run has the byte that was seen, so there is something to judge.
    have hsome : σ.cursor.run Byte.isNumberPart ≠ [] := by
      rw [Cursor.run, hrest, List.takeWhile_cons_of_pos hnumber]
      exact List.cons_ne_nil _ _
    have hjudge := judge_answers (p := σ.cursor.position) hsome h₁.inRange
    cases hverdict : Cursor.number (σ.cursor.run Byte.isNumberPart) <;> rwa [hverdict] at hjudge
  split
  · refine .bind (readWhile_gives _ h) fun σ₁ h₁ => ?_
    rw [← h₁.cursor]
    exact produce_gives _ _ h₁.inRange
  · exact throw_answers _ h

/-- Of a line without a token nothing is read, and reading goes on. -/
theorem endLine_answers {m : Scanning α} {a : α} (hm : Gives m σ (.ok a) d)
    (hagain : σ.fresh = true → ∀ σ', σ.Reaches σ' d → Answers readNext σ' scan)
    (hend : σ.fresh = false → scan = .token ⟨.separator, p⟩ { d with fresh := true }) :
    Answers (m >>= fun _ => endLine σ.fresh p >>= Sum.elim reading.run pure) σ scan := by
  refine .bind hm fun σ' hσ' => ?_
  cases hfresh : σ.fresh with
  | true => exact hagain hfresh σ' hσ'
  | false =>
    rw [hend hfresh, ← hσ'.cursor]
    exact separator_gives p hσ'.inRange

/-- From every index of the text the scanner answers what the cursor there reads. -/
theorem readNext_answers (h : σ.offset ≤ σ.input.length) :
    Answers readNext σ σ.cursor.read := by
  -- A line without a token takes bytes, so that what is left gets shorter.
  induction hn : σ.cursor.rest.length using Nat.strong_induction_on generalizing σ with
  | _ n ih =>
    rw [readNext, Loop.run_eq, reading, bind_assoc]
    refine .bind (readWhile_gives Byte.isBlank h) fun σ₁ h₁ => ?_
    rw [bind_assoc]
    have hle : σ₁.cursor.rest.length ≤ n := by
      rw [h₁.cursor, ← hn]
      exact Cursor.length_skipWhile_le _ _
    have hfresh : σ₁.fresh = σ.cursor.fresh := congrArg Cursor.fresh h₁.cursor
    -- Behind the blanks the cursor is settled, unless a line without a token ends there.
    have hsettle : (∀ b ∈ σ₁.cursor.rest.head?, b = 35 ∨ b = 10 → σ₁.fresh = false) →
        σ.cursor.settle = σ₁.cursor := by
      rw [hfresh, h₁.cursor]
      exact Cursor.settle_of_token
    cases hrest : σ₁.cursor.rest with
    | nil =>
      rw [Cursor.read, hsettle (by simp [hrest])]
      dsimp only
      rw [hrest]
      exact .bind_still (hasByte_nil hrest) (Gives.pure none h₁.inRange)
    | cons b bs =>
      refine .bind_still (hasByte_cons hrest) ?_
      rw [if_pos rfl, bind_assoc]
      refine .bind_still rfl ?_
      rw [bind_assoc]
      refine .bind_still (peekByte_cons hrest) ?_
      have hblanks : (σ.cursor.skipWhile Byte.isBlank).rest = b :: bs := h₁.cursor ▸ hrest
      -- A comment or a line break ends the line, and is a separator only behind a token.
      by_cases hcomment : b = 35
      · subst hcomment
        rw [if_pos (beq_self_eq_true _), bind_assoc]
        refine endLine_answers (skipComment_gives h₁.inRange) (fun hempty σ₂ h₂ => ?_)
          fun hended => ?_
        · have hless := Cursor.length_skipComment_lt hrest
          rw [Cursor.read_congr (Cursor.settle_of_comment hblanks (hfresh ▸ hempty)),
            ← h₁.cursor, ← h₂.cursor]
          exact ih _ (by rw [h₂.cursor]; omega) h₂.inRange rfl
        · rw [Cursor.read, hsettle fun _ _ _ => hended]
          simp only [hrest, beq_self_eq_true, if_true]
          rfl
      rw [if_neg (by simpa using hcomment)]
      by_cases hline : b = 10
      · subst hline
        rw [if_pos (beq_self_eq_true _), bind_assoc]
        refine endLine_answers (readByte_cons hrest) (fun hempty σ₂ h₂ => ?_) fun hended => ?_
        · have hless := Cursor.length_skip_one_lt (c := σ₁.cursor) (by rw [hrest]; simp)
          rw [Cursor.read_congr (Cursor.settle_of_newline hblanks (hfresh ▸ hempty)),
            ← h₁.cursor, ← h₂.cursor]
          exact ih _ (by rw [h₂.cursor]; omega) h₂.inRange rfl
        · rw [Cursor.read, hsettle fun _ _ _ => hended]
          simp only [hrest, beq_self_eq_true, if_true, beq_iff_eq, if_neg hcomment]
          rfl
      -- Any other byte starts a token, and the loop ends with it.
      rw [if_neg (by simpa using hline), bind_assoc]
      simp only [pure_bind, Sum.elim_inr, bind_pure]
      refine readToken_answers (hsettle fun b' hb' hends => ?_) hrest hcomment hline
      rw [hrest] at hb'
      obtain rfl : b = b' := Option.some.inj hb'
      exact absurd hends (not_or.mpr ⟨hcomment, hline⟩)

/-! ## Looking ahead -/

/-- The next token without taking it, or `none` at the end. -/
def peek : Scanning (Option Token) := do
  let σ ← get
  match σ.ahead with
  | some t => return some t
  | none => do
    let t? ← readNext
    modify fun σ => { σ with ahead := t? }
    return t?

/-- Takes the next token, or gives `none` at the end. -/
def next : Scanning (Option Token) := do
  let t? ← peek
  modify fun σ => { σ with ahead := none }
  return t?

/-- Whether there is a next token. -/
def hasNext : Scanning Bool := do
  let t? ← peek
  return t?.isSome

/-- The reader that stands where the scanner does. -/
def lexer (σ : Scanner) : Lexer := ⟨σ.cursor, σ.ahead⟩

def ofText (source : Bytes) : Scanner := ⟨completed source, 0, ⟨1, 0⟩, true, none⟩

/-- The second scanner reads the same text, and stands inside it where the reader
    does. -/
structure Keeps (σ σ' : Scanner) (l : Lexer) : Prop where
  input : σ'.input = σ.input
  inRange : σ'.offset ≤ σ'.input.length
  lexer : σ'.lexer = l

/-- The step is defined, and does what was done with the reader there. -/
def Follows (m : Scanning α) (σ : Scanner) (x : Except Fault α × Lexer) : Prop :=
  ∃ σ', m σ = some (x.1, σ') ∧ σ.Keeps σ' x.2

/-- A scanner at a cursor keeps the text, whatever token it remembers. -/
theorem Reaches.keeps (h : σ.Reaches σ' c) (t? : Option Token) :
    σ.Keeps { σ' with ahead := t? } ⟨c, t?⟩ :=
  ⟨h.input, h.inRange, h.cursor ▸ rfl⟩

theorem peek_ahead {t : Token} (h : σ.ahead = some t) : peek σ = some (.ok (some t), σ) := by
  show (match σ.ahead with | some t => _ | none => _ : Scanning _) σ = _
  rw [h]
  rfl

theorem peek_read (h : σ.ahead = none) : peek σ = (do
    let t? ← readNext
    modify fun σ => { σ with ahead := t? }
    return t? : Scanning (Option Token)) σ := by
  show (match σ.ahead with | some t => _ | none => _ : Scanning _) σ = _
  rw [h]

/-- Looking ahead does on the scanner what it does on the reader. -/
theorem peek_follows (h : σ.offset ≤ σ.input.length) : Follows peek σ σ.lexer.peek := by
  cases hahead : σ.ahead with
  | some t =>
    rw [Follows, peek_ahead hahead, Lexer.peek]
    simp only [lexer, hahead]
    exact ⟨σ, rfl, rfl, h, by rw [lexer, hahead]⟩
  | none =>
    have hread := readNext_answers h
    rw [Follows, peek_read hahead, bind_apply, Lexer.peek]
    simp only [lexer, hahead]
    cases hscan : σ.cursor.read with
    | token t after =>
      rw [hscan] at hread
      obtain ⟨σ', hσ', hreaches⟩ := hread
      rw [hσ']
      exact ⟨_, rfl, hreaches.keeps (some t)⟩
    | finished after =>
      rw [hscan] at hread
      obtain ⟨σ', hσ', hreaches⟩ := hread
      rw [hσ']
      exact ⟨_, rfl, hreaches.keeps none⟩
    -- A fault is not remembered, by either of them.
    | fault problem p after =>
      rw [hscan] at hread
      obtain ⟨σ', hσ', hreaches⟩ := hread
      rw [hσ']
      have hnone : σ'.ahead = none := hreaches.ahead.trans hahead
      exact ⟨σ', rfl, hreaches.input, hreaches.inRange, by rw [lexer, hreaches.cursor, hnone]⟩

/-- Taking a token looks at it first, and forgets it then. -/
theorem next_follows (h : σ.offset ≤ σ.input.length) : Follows next σ σ.lexer.next := by
  obtain ⟨σ', hpeek, hkeeps⟩ := peek_follows h
  rw [Follows, next, bind_apply, hpeek, Lexer.next]
  rcases hlexer : σ.lexer.peek with ⟨fault | t?, l⟩ <;> rw [hlexer] at hkeeps
  · exact ⟨σ', rfl, hkeeps⟩
  · have hcursor : σ'.cursor = l.cursor := congrArg Lexer.cursor hkeeps.lexer
    refine ⟨{ σ' with ahead := none }, rfl, hkeeps.input, hkeeps.inRange, ?_⟩
    show (⟨σ'.cursor, none⟩ : Lexer) = ⟨l.cursor, none⟩
    rw [hcursor]

/-- Asking for a token looks at it. -/
theorem hasNext_follows (h : σ.offset ≤ σ.input.length) : Follows hasNext σ σ.lexer.hasNext := by
  obtain ⟨σ', hpeek, hkeeps⟩ := peek_follows h
  rw [Follows, hasNext, bind_apply, hpeek, Lexer.hasNext]
  rcases hlexer : σ.lexer.peek with ⟨fault | t?, l⟩ <;> rw [hlexer] at hkeeps <;>
    exact ⟨σ', rfl, hkeeps⟩

/-- One more token takes a byte at least. -/
theorem readNext_defined (h : σ.offset ≤ σ.input.length) :
    ∃ answer σ', readNext σ = some (answer, σ') ∧ σ'.input = σ.input ∧
      σ'.offset ≤ σ'.input.length ∧ ∀ t, answer = .ok (some t) → σ.offset < σ'.offset := by
  have hread := readNext_answers h
  cases hscan : σ.cursor.read with
  | token t after =>
    rw [hscan] at hread
    obtain ⟨σ', hσ', hreaches⟩ := hread
    refine ⟨_, σ', hσ', hreaches.input, hreaches.inRange, fun _ _ => ?_⟩
    have hless := Cursor.length_read_lt hscan
    rw [← hreaches.cursor, length_rest, length_rest, hreaches.input] at hless
    omega
  | finished after =>
    rw [hscan] at hread
    obtain ⟨σ', hσ', hreaches⟩ := hread
    exact ⟨_, σ', hσ', hreaches.input, hreaches.inRange, nofun⟩
  | fault problem p after =>
    rw [hscan] at hread
    obtain ⟨σ', hσ', hreaches⟩ := hread
    exact ⟨_, σ', hσ', hreaches.input, hreaches.inRange, nofun⟩

end Scanner

/-! ## Calls in turn -/

/-- What can be asked of a reader. -/
inductive Lexer.Call where
  | peek
  | next
  | hasNext

/-- The reader after a call, be it answered or not. -/
def Lexer.after (l : Lexer) : Lexer.Call → Lexer
  | .peek => l.peek.2
  | .next => l.next.2
  | .hasNext => l.hasNext.2

namespace Scanner

/-- The scanner after a call, be it answered or not, where the call is defined. -/
def after? (σ : Scanner) : Lexer.Call → Option Scanner
  | .peek => (peek σ).map Prod.snd
  | .next => (next σ).map Prod.snd
  | .hasNext => (hasNext σ).map Prod.snd

/-- What follows the reader leads to where the reader is. -/
theorem Follows.after {α : Type} {m : Scanning α} {σ : Scanner} {x : Except Fault α × Lexer}
    (hm : Follows m σ x) : ∃ σ', (m σ).map Prod.snd = some σ' ∧ σ.Keeps σ' x.2 := by
  obtain ⟨σ', hm, hσ'⟩ := hm
  exact ⟨σ', by rw [hm]; rfl, hσ'⟩

/-- Every call is defined, and follows the reader. -/
theorem after?_defined {σ : Scanner} (h : σ.offset ≤ σ.input.length) (call : Lexer.Call) :
    ∃ σ', σ.after? call = some σ' ∧ σ.Keeps σ' (σ.lexer.after call) := by
  cases call with
  | peek => exact (peek_follows h).after
  | next => exact (next_follows h).after
  | hasNext => exact (hasNext_follows h).after

/-- Calls in turn are all defined, and keep the index in the text. -/
theorem foldlM_after? {σ : Scanner} (h : σ.offset ≤ σ.input.length) (calls : List Lexer.Call) :
    ∃ σ', calls.foldlM after? σ = some σ' ∧ σ.Keeps σ' (calls.foldl Lexer.after σ.lexer) := by
  induction calls generalizing σ with
  | nil => exact ⟨σ, rfl, rfl, h, rfl⟩
  | cons call calls ih =>
    obtain ⟨σ₁, hcall, hfirst⟩ := after?_defined h call
    obtain ⟨σ₂, hcalls, hrest⟩ := ih hfirst.inRange
    refine ⟨σ₂, ?_, hrest.input.trans hfirst.input, hrest.inRange, ?_⟩
    · rw [List.foldlM_cons, hcall]
      exact hcalls
    · rw [hrest.lexer, hfirst.lexer]
      rfl

end Scanner

end Scriptlet

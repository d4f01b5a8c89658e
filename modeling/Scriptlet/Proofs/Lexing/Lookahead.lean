/-
  Scriptlet.Proofs.Lexing.Lookahead

  What a reader of tokens answers when calls come in any order.

  A reader counts only by the tokens that are still to come from it and the fault
  behind them (`Lexer.tokens`). To look ahead leaves them as they are, and to take a
  token drops the first of them (`Lexer.tokens_after`). So up to the first fault every
  answer is read off the tokens of the text and the number of tokens taken
  (`Lexer.answer_foldl`).

  A fault is not kept. Where the reader stands behind it depends on what was wrong
  (`Cursor.read_fault_after`), and with that what is answered next.
-/
import Scriptlet.Proofs.Lexing.Indexed
import Scriptlet.Proofs.Lexing.Tiling

namespace Scriptlet

/-! ## Calls and answers -/

namespace Lexer

/-- What a call gives back: the next token, if there is one, or whether there is one. -/
inductive Answer where
  | token (t? : Option Token)
  | more (yes : Bool)
deriving DecidableEq

namespace Call

/-- Whether a call takes a token. -/
def takes : Call → Bool
  | .next => true
  | .peek | .hasNext => false

/-- What a call gives back where `t?` comes next. -/
def reply (t? : Option Token) : Call → Answer
  | .peek | .next => .token t?
  | .hasNext => .more t?.isSome

/-- The answer to a call behind the first `n` of the tokens `ts`, where `ending` stands
    behind all of them. -/
def expected (ts : List Token) (ending : Option Fault) (n : Nat) (call : Call) :
    Except Fault Answer :=
  match ts[n]?, ending with
  | some t, _ => .ok (call.reply (some t))
  | none, none => .ok (call.reply none)
  | none, some f => .error f

/-- What is left of the tokens answers as all of them do behind those that were taken. -/
theorem expected_drop (ts : List Token) (ending : Option Fault) (n : Nat) (call : Call) :
    call.expected (ts.drop n) ending 0 = call.expected ts ending n := by
  simp only [expected, List.getElem?_drop, Nat.add_zero]

end Call

/-- The answer to a call. -/
def answer (l : Lexer) : Call → Except Fault Answer
  | .peek => l.peek.1.map .token
  | .next => l.next.1.map .token
  | .hasNext => l.hasNext.1.map .more

/-- The answers to calls in turn. -/
def answers (l : Lexer) : List Call → List (Except Fault Answer)
  | [] => []
  | call :: calls => l.answer call :: (l.after call).answers calls

end Lexer

/-! ## Up to the first fault -/

namespace Lexer

variable {l : Lexer} {ts : List Token} {ending : Option Fault}

/-- With nothing read ahead the tokens to come are those of the cursor. -/
theorem tokens_none {c : Cursor} (h : c.tokens = (ts, ending)) :
    (⟨c, none⟩ : Lexer).tokens = (ts, ending) := by
  simp only [tokens, h]

/-- A token that was read ahead is the first of them. -/
theorem tokens_some {c : Cursor} (h : c.tokens = (ts, ending)) (t : Token) :
    (⟨c, some t⟩ : Lexer).tokens = (t :: ts, ending) := by
  simp only [tokens, h]

/-- Looking ahead finds the first of the tokens to come and leaves them all to come, or
    it finds their end, or the fault behind them. -/
theorem peek_cases (l : Lexer) :
    (∃ t ts ending c, l.tokens = (t :: ts, ending) ∧ l.peek = (.ok (some t), ⟨c, some t⟩) ∧
      c.tokens = (ts, ending)) ∨
    (∃ c, l.tokens = ([], none) ∧ l.peek = (.ok none, ⟨c, none⟩) ∧ c.tokens = ([], none)) ∨
    ∃ problem p c, l.tokens = ([], some (.lex problem p)) ∧
      l.peek = (.error (.lex problem p), ⟨c, none⟩) ∧ l.cursor.read = .fault problem p c := by
  obtain ⟨c, _ | t⟩ := l
  · cases hread : c.read with
    | token t after =>
      refine .inl ⟨t, after.tokens.1, after.tokens.2, after, ?_, ?_, rfl⟩
      · exact Cursor.tokens_of_token hread
      · simp only [peek, hread]
    | finished after =>
      -- The end is not kept as a token is; it is found again behind the text.
      refine .inr (.inl ⟨after, ?_, ?_, Cursor.tokens_after_finished hread⟩)
      · exact Cursor.tokens_of_finished hread
      · simp only [peek, hread]
    | fault problem p after =>
      refine .inr (.inr ⟨problem, p, after, ?_, ?_, rfl⟩)
      · exact Cursor.tokens_of_fault hread
      · simp only [peek, hread]
  · -- A token that is kept is shown again.
    exact .inl ⟨t, c.tokens.1, c.tokens.2, c, rfl, rfl, rfl⟩

theorem next_of_peek {t? : Option Token} {l' : Lexer} (h : l.peek = (.ok t?, l')) :
    l.next = (.ok t?, { l' with ahead := none }) := by
  simp only [next, h]

theorem hasNext_of_peek {t? : Option Token} {l' : Lexer} (h : l.peek = (.ok t?, l')) :
    l.hasNext = (.ok t?.isSome, l') := by
  simp only [hasNext, h]

/-- Every call answers by what looking ahead finds. -/
theorem answer_of_peek {t? : Option Token} {l' : Lexer} (h : l.peek = (.ok t?, l')) (call : Call) :
    l.answer call = .ok (call.reply t?) := by
  cases call with
  | peek => rw [answer, h]; rfl
  | next => rw [answer, next_of_peek h]; rfl
  | hasNext => rw [answer, hasNext_of_peek h]; rfl

/-- Every call reports the fault that looking ahead finds. -/
theorem answer_of_error {f : Fault} {l' : Lexer} (h : l.peek = (.error f, l')) (call : Call) :
    l.answer call = .error f := by
  cases call with
  | peek => rw [answer, h]; rfl
  | next => simp only [answer, next, h, Except.map]
  | hasNext => simp only [answer, hasNext, h, Except.map]

/-- One call is answered from the tokens to come. -/
theorem answer_of_tokens (h : l.tokens = (ts, ending)) (call : Call) :
    l.answer call = call.expected ts ending 0 := by
  rcases l.peek_cases with ⟨t, ts', _, c, htokens, hpeek, -⟩ | ⟨c, htokens, hpeek, -⟩ |
    ⟨problem, p, c, htokens, hpeek, -⟩
  · cases h.symm.trans htokens
    exact answer_of_peek hpeek call
  · cases h.symm.trans htokens
    exact answer_of_peek hpeek call
  · cases h.symm.trans htokens
    exact answer_of_error hpeek call

/-- A call that is answered leaves the tokens to come, without the one that it took. -/
theorem tokens_after (h : l.tokens = (ts, ending)) {call : Call}
    (hok : (l.answer call).isOk = true) :
    (l.after call).tokens = (ts.drop ([call].countP Call.takes), ending) := by
  rcases l.peek_cases with ⟨t, ts', _, c, htokens, hpeek, hc⟩ | ⟨c, htokens, hpeek, hc⟩ |
    ⟨problem, p, c, htokens, hpeek, -⟩
  · cases h.symm.trans htokens
    cases call with
    | peek => rw [after, hpeek]; exact tokens_some hc t
    | next => rw [after, next_of_peek hpeek]; exact hc
    | hasNext => rw [after, hasNext_of_peek hpeek]; exact tokens_some hc t
  · cases h.symm.trans htokens
    -- At the end there is nothing to take, whatever is called.
    rw [List.drop_nil]
    cases call with
    | peek => rw [after, hpeek]; exact hc
    | next => rw [after, next_of_peek hpeek]; exact hc
    | hasNext => rw [after, hasNext_of_peek hpeek]; exact hc
  · -- A call that finds a fault is not answered.
    rw [answer_of_error hpeek] at hok
    cases hok

/-- Calls that are answered take as many tokens as there are calls that take one. -/
theorem tokens_foldl (h : l.tokens = (ts, ending)) {calls : List Call}
    (hok : ∀ a ∈ l.answers calls, a.isOk = true) :
    (calls.foldl after l).tokens = (ts.drop (calls.countP Call.takes), ending) := by
  induction calls generalizing l ts with
  | nil => exact h
  | cons call calls ih =>
    obtain ⟨hfirst, hrest⟩ := List.forall_mem_cons.mp hok
    have hcalls := ih (tokens_after h hfirst) hrest
    -- Taking one and then the others is taking them all.
    rwa [List.drop_drop, ← List.countP_append, List.singleton_append] at hcalls

/-- Up to the first fault a call is answered by the token behind those that were taken. -/
theorem answer_foldl (h : l.tokens = (ts, ending)) {calls : List Call}
    (hok : ∀ a ∈ l.answers calls, a.isOk = true) (call : Call) :
    (calls.foldl after l).answer call = call.expected ts ending (calls.countP Call.takes) := by
  rw [answer_of_tokens (tokens_foldl h hok), Call.expected_drop]

end Lexer

/-- The tokens of a text with the fault behind them: all of them if it can be split, and
    otherwise those in front of the place where no token starts. -/
def SplitsInto (source : Bytes) (ts : List Token) : Option Fault → Prop
  | none => tokenize source = .ok ts
  | some f => tokenize source = .error f ∧ ∃ u r fresh problem, completed source = u ++ r ∧
      Tiles [] true u ts r fresh ∧ NoToken problem r ∧ f = .lex problem (.behind u)

/-- What a reader of the text has to come is what the text splits into. -/
theorem exists_splitsInto (source : Bytes) :
    ∃ ts ending, SplitsInto source ts ending ∧ (Lexer.ofText source).tokens = (ts, ending) := by
  obtain ⟨ts, -, hok⟩ | ⟨u, r, ts, fresh, problem, hsource, hu, hr, herror⟩ :=
    exists_tokenize source
  · exact ⟨ts, none, hok, tokenize_eq_ok_iff.mp hok⟩
  · obtain ⟨after, hread⟩ := hr.read u fresh
    refine ⟨ts, some (.lex problem (.behind u)),
      ⟨herror, u, r, fresh, problem, hsource, hu, hr, rfl⟩, ?_⟩
    have htokens := hu.tokens
    rw [List.nil_append, Cursor.tokens_of_fault hread, List.append_nil, ← hsource,
      ← Cursor.ofText_eq_behind] at htokens
    exact htokens

/-- Calls in any order do not disturb the tokens of a text. As long as none has reported
    a fault, the next one is answered by the token behind those that were taken, or by the
    end of the text, or by the fault of the text if the tokens in front of it have been
    taken. -/
theorem calls_answered (source : Bytes) : ∃ ts ending, SplitsInto source ts ending ∧
    ∀ (calls : List Lexer.Call) (call : Lexer.Call),
      (∀ a ∈ (Lexer.ofText source).answers calls, a.isOk = true) →
      (calls.foldl Lexer.after (.ofText source)).answer call =
        call.expected ts ending (calls.countP Lexer.Call.takes) := by
  obtain ⟨ts, ending, hsplits, htokens⟩ := exists_splitsInto source
  exact ⟨ts, ending, hsplits, fun calls call hok => Lexer.answer_foldl htokens hok call⟩

theorem calls_answered_past_end :
    let l := Lexer.ofText (text "x")
    let calls : List Lexer.Call := [.peek, .next, .hasNext, .next]
    (∀ a ∈ l.answers calls, a.isOk = true) ∧
      (calls.foldl Lexer.after l).answer .next = .ok (.token none) := by
  intro l calls
  have hall : ((l.answers calls).all fun a => a.isOk) = true := by with_unfolding_all rfl
  have hok := List.all_eq_true.mp hall
  have htokens : tokenize (text "x") = .ok [⟨.identifier (text "x"), ⟨1, 1⟩⟩,
      ⟨.separator, ⟨1, 2⟩⟩] := by
    with_unfolding_all rfl
  obtain ⟨ts, _ | f, hsplits, hanswer⟩ := calls_answered (text "x")
  · have hts : tokenize (text "x") = .ok ts := hsplits
    cases hts.symm.trans htokens
    exact ⟨hok, hanswer calls .next hok⟩
  · cases hsplits.1.symm.trans htokens

/-! ## Behind a fault -/

namespace Cursor

variable {c after : Cursor}

/-- Behind a run none of it is left. -/
theorem skipWhile_skipWhile (c : Cursor) (p : UInt8 → Bool) :
    (c.skipWhile p).skipWhile p = c.skipWhile p := by
  have hstop : Stops p (c.skipWhile p).rest := stops_drop_takeWhile p c.rest
  exact skipWhile_append (w := []) (by simp) hstop

/-- A settled cursor stays where it is. -/
theorem settle_settle (c : Cursor) : c.settle.settle = c.settle := by
  -- It stands behind its blanks, and not on a fresh line before the end of it.
  have hstays : ∀ d : Cursor, (∀ b ∈ (d.skipWhile Byte.isBlank).rest.head?,
      b = 35 ∨ b = 10 → d.fresh = false) →
      (d.skipWhile Byte.isBlank).settle = d.skipWhile Byte.isBlank := by
    intro d hd
    rw [settle_of_token, skipWhile_skipWhile]
    rw [skipWhile_skipWhile]
    exact hd
  fun_induction settle c with
  | case1 c d tail h hfresh ih => exact ih
  | case2 c d tail h hfresh =>
    have hended : d.fresh = false := by simpa using hfresh
    exact hstays c fun _ _ _ => hended
  | case3 c d tail h hfresh ih => exact ih
  | case4 c d tail h hfresh =>
    have hended : d.fresh = false := by simpa using hfresh
    exact hstays c fun _ _ _ => hended
  | case5 c d hcomment hline =>
    refine hstays c fun b hb hend => ?_
    obtain ⟨tail, htail⟩ := List.head?_eq_some_iff.mp hb
    rcases hend with rfl | rfl
    · exact absurd htail (hcomment tail)
    · exact absurd htail (hline tail)

/-- A run is refused for being no float, and for nothing else. -/
theorem number_problem {literal : Bytes} {problem : LexProblem}
    (h : number literal = .error problem) : problem = .invalidFloat literal := by
  unfold number at h
  simp only at h
  repeat' split at h
  all_goals cases h
  all_goals rfl

/-- The bytes that satisfy `p`, and the cursor behind them. -/
theorem exists_skipWhile (c : Cursor) (p : UInt8 → Bool) :
    ∃ s, c = ⟨c.run p ++ s, c.place, c.fresh⟩ ∧ Stops p s ∧
      c.skipWhile p = ⟨s, c.place.advance (c.run p), c.fresh⟩ := by
  have htake : c.rest.take (c.run p).length = c.run p :=
    (List.prefix_iff_eq_take.mp (List.takeWhile_prefix p)).symm
  refine ⟨c.rest.drop (c.run p).length, ?_, stops_drop_takeWhile p c.rest, ?_⟩
  · rw [run_append_drop]
  · rw [skipWhile, skip, htake]

/-- After a fault the reader stands in front of a byte that starts no token, at the end of
    the text behind an open string, or behind digits and points that are no number. -/
theorem read_fault_after {problem : LexProblem} {p : Position}
    (h : c.read = .fault problem p after) :
    (∃ b, problem = .unexpectedByte b ∧ after = c.settle) ∨
    (problem = .unterminatedString ∧ after.rest = []) ∨
    ∃ r s place fresh, problem = .invalidFloat r ∧ r ≠ [] ∧ c.settle = ⟨r ++ s, place, fresh⟩ ∧
      Stops Byte.isNumberPart s ∧ after = ⟨s, place.advance r, fresh⟩ := by
  have hscan := scans_of_read h
  generalize c.settle = d at hscan ⊢
  cases hscan with
  | @unexpected b => exact .inl ⟨b, rfl, rfl⟩
  | openString =>
    refine .inr (.inl ⟨rfl, ?_⟩)
    rw [skip, List.drop_length]
  -- The reader skips the run before it reports it.
  | noNumber hd _ hb hnumber =>
    obtain rfl := number_problem hnumber
    obtain ⟨s, hsplit, hs, hafter⟩ := d.exists_skipWhile Byte.isNumberPart
    have hne := List.length_pos_iff.mp (length_run_pos hd hb)
    exact .inr (.inr ⟨_, s, _, _, rfl, hne, hsplit, hs, hafter⟩)

/-- A fault behind a part of the text has its place behind the start of that part. -/
theorem position_lt_fault {r s : Bytes} {place p : Position} {fresh : Bool}
    {problem : LexProblem} (hne : r ≠ [])
    (h : (⟨s, place.advance r, fresh⟩ : Cursor).read = .fault problem p after) :
    (⟨r ++ s, place, fresh⟩ : Cursor).position < p := by
  rw [read_fault h]
  refine Position.lt_of_lt_of_le ?_ (position_le (le_place_settle _))
  exact position_lt (Position.lt_advance place hne)

end Cursor

namespace Lexer

variable {l : Lexer}

/-- After a fault the reader is where looking ahead left it. -/
theorem after_of_error {f : Fault} {l' : Lexer} (h : l.peek = (.error f, l')) (call : Call) :
    l.after call = l' := by
  cases call with
  | peek => rw [after, h]
  | next => simp only [after, next, h]
  | hasNext => simp only [after, hasNext, h]

/-- A call that reports a fault has read it, and leaves nothing read ahead. -/
theorem read_of_answer_error {call : Call} {f : Fault} (h : l.answer call = .error f) :
    ∃ problem p after, f = .lex problem p ∧ l.cursor.read = .fault problem p after ∧
      l.after call = ⟨after, none⟩ := by
  rcases l.peek_cases with ⟨t, _, _, c, -, hpeek, -⟩ | ⟨c, -, hpeek, -⟩ |
    ⟨problem, p, c, -, hpeek, hread⟩
  · cases h.symm.trans (answer_of_peek hpeek call)
  · cases h.symm.trans (answer_of_peek hpeek call)
  · cases h.symm.trans (answer_of_error hpeek call)
    exact ⟨problem, p, c, rfl, hread, after_of_error hpeek call⟩

/-- A reader that a fault leaves where it is reports it for ever. -/
theorem answers_of_stuck {f : Fault} (h : l.peek = (.error f, l)) (calls : List Call) :
    ∀ a ∈ l.answers calls, a = .error f := by
  induction calls with
  | nil => exact nofun
  | cons call calls ih =>
    rw [answers, after_of_error h call]
    exact List.forall_mem_cons.mpr ⟨answer_of_error h call, ih⟩

/-- At the end of the text every call finds the end. -/
theorem answer_of_ended (h : l.tokens = ([], none)) (calls : List Call) (call : Call) :
    (calls.foldl after l).answer call = .ok (call.reply none) := by
  induction calls generalizing l with
  | nil => exact answer_of_tokens h call
  | cons first calls ih =>
    have hok : (l.answer first).isOk = true := by
      rw [answer_of_tokens h]
      rfl
    have hafter := tokens_after h hok
    rw [List.drop_nil] at hafter
    exact ih hafter

end Lexer

/-- A call that reports a fault is followed by nothing but this fault if and only if the
    fault is an unexpected byte, whatever was asked of the reader before. Behind an open
    string every later call finds the end of the text, as if there had been no fault.
    Behind digits and points that are no number the reader goes on with the next byte. -/
theorem fault_repeated_iff {l : Lexer} {call : Lexer.Call} {problem : LexProblem} {p : Position}
    (h : l.answer call = .error (.lex problem p)) :
    ((∀ calls, ∀ a ∈ (l.after call).answers calls, a = .error (.lex problem p)) ↔
      ∃ b, problem = .unexpectedByte b) ∧
    (problem = .unterminatedString → ∀ (calls : List Lexer.Call) (call' : Lexer.Call),
      (calls.foldl Lexer.after (l.after call)).answer call' = .ok (call'.reply none)) ∧
    ∀ r, problem = .invalidFloat r → ∃ s place fresh,
      l.cursor.settle = ⟨r ++ s, place, fresh⟩ ∧ Stops Byte.isNumberPart s ∧
      l.after call = ⟨⟨s, place.advance r, fresh⟩, none⟩ := by
  obtain ⟨_, _, after, hfault, hread, hafter⟩ := Lexer.read_of_answer_error h
  cases hfault
  rw [hafter]
  rcases Cursor.read_fault_after hread with
    ⟨b, rfl, rfl⟩ | ⟨rfl, hrest⟩ | ⟨r, s, place, fresh, rfl, hne, hsettle, hs, rfl⟩
  · -- The reader stands still.
    have hstuck : (⟨l.cursor.settle, none⟩ : Lexer).peek =
        (.error (.lex (.unexpectedByte b) p), ⟨l.cursor.settle, none⟩) := by
      rw [← Cursor.read_congr l.cursor.settle_settle] at hread
      simp only [Lexer.peek, hread]
    exact ⟨iff_of_true (Lexer.answers_of_stuck hstuck) ⟨b, rfl⟩, by simp, by simp⟩
  · have hend : (⟨after, none⟩ : Lexer).tokens = ([], none) := by
      have hnil := Cursor.tokens_nil after.place after.fresh
      rwa [← hrest] at hnil
    have hanswer := Lexer.answer_of_ended hend
    refine ⟨iff_of_false (fun hagain => ?_) (by simp), fun _ => hanswer, by simp⟩
    have hnext := hagain [.next] _ List.mem_cons_self
    cases hnext.symm.trans (hanswer [] .next)
  · refine ⟨iff_of_false (fun hagain => ?_) (by simp), by simp, fun r' hr' => ?_⟩
    · -- A next fault has its place behind the run.
      have hnext := hagain [.next] _ List.mem_cons_self
      obtain ⟨_, _, _, hfault, hread', -⟩ := Lexer.read_of_answer_error hnext
      cases hfault
      have hforward := Cursor.position_lt_fault hne hread'
      rw [Cursor.read_fault hread, hsettle] at hforward
      exact Position.lt_irrefl _ hforward
    · cases hr'
      exact ⟨s, place, fresh, hsettle, hs, rfl⟩

/-- Behind digits that end with a point the reader goes on with the next number. -/
theorem fault_repeated_iff_number :
    let l := Lexer.ofText (text "1. 2")
    l.answer .peek = .error (.lex (.invalidFloat (text "1.")) ⟨1, 1⟩) ∧
      ∃ calls, ∃ a ∈ (l.after .peek).answers calls,
        a ≠ .error (.lex (.invalidFloat (text "1.")) ⟨1, 1⟩) := by
  intro l
  have h : l.answer .peek = .error (.lex (.invalidFloat (text "1.")) ⟨1, 1⟩) := by
    with_unfolding_all rfl
  obtain ⟨hiff, -, -⟩ := fault_repeated_iff h
  refine ⟨h, ?_⟩
  by_contra hnone
  push Not at hnone
  obtain ⟨b, hb⟩ := hiff.mp hnone
  cases hb

end Scriptlet

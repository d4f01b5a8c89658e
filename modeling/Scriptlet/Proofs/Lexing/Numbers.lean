/-
  Scriptlet.Proofs.Lexing.Numbers

  What a run of digits and points is read as.

  A run that starts with a digit is one number or a fault, and its text alone decides
  (`Cursor.number_of_digits`, `IsFloat.number`, `Cursor.number_of_points`): an
  integer without a point, or a float if it is too wide for one; a float with one point
  inside, if it is in the range; nothing else.

  A point is a mark where a token starts, and the reader tries the marks before the
  numbers. So the points that a run starts with are read one by one, and what is behind
  them is read as if it stood alone (`RunAt.behind_points`). A number takes the points
  behind it, so no mark touches it from there (`Tiles.not_touches_point`).
-/
import Scriptlet.Proofs.Lexing.Lookahead
import Scriptlet.Proofs.Number.Range
import Scriptlet.Proofs.Render.Text
import Scriptlet.Proofs.Arithmetic

namespace Scriptlet

/-! ## Runs of digits and points -/

/-- The text starts with a digit. -/
def StartsWithDigit (r : Bytes) : Prop := ∃ b ∈ r.head?, Bytes.isDigit b = true

/-- The text has one point, with `whole` in front of it and something behind it, and the
    value of its digits is in the range of floats. -/
structure IsFloat (r whole fraction : Bytes) : Prop where
  split : r = whole ++ 46 :: fraction
  onePoint : 46 ∉ whole ++ fraction
  behind : fraction ≠ []
  inRange : Bytes.value (whole ++ fraction) < Double.beyond * 10 ^ fraction.length

/-- The number that digits around a point stand for. -/
def fractionValue (whole fraction : Bytes) : Double :=
  .ofDecimal false (Bytes.value (whole ++ fraction)) (-(fraction.length : Int))

variable {r whole fraction : Bytes}

/-- A run with a point at its end is no float. -/
theorem not_isFloat_of_getLast? (h : r.getLast? = some 46) (whole fraction : Bytes) :
    ¬IsFloat r whole fraction := by
  rintro ⟨rfl, honePoint, hne, -⟩
  rw [List.getLast?_append, List.getLast?_cons, List.getLast?_eq_getLast_of_ne_nil hne] at h
  have hlast : fraction.getLast hne = 46 := by simpa using h
  exact honePoint (List.mem_append_right _ (hlast ▸ List.getLast_mem hne))

/-- Without points a run is digits. -/
theorem isDigit_of_not_point {ds : Bytes} (hparts : ∀ b ∈ ds, Byte.isNumberPart b = true)
    (hpoint : 46 ∉ ds) : ∀ b ∈ ds, Bytes.isDigit b = true := by
  intro b hb
  have hne : b ≠ 46 := fun h => hpoint (h ▸ hb)
  simpa [Byte.isNumberPart, hne] using hparts b hb

namespace Cursor

/-- Digits alone are the integer they stand for, or the nearest float beyond the
    integers of 64 bits. -/
theorem number_of_digits (hpoint : 46 ∉ r) : number r =
    if Bytes.value r ≤ 2 ^ 63 - 1 then .ok (.integer r (Int64.ofNat (Bytes.value r)))
    else .ok (.float r (.ofDecimal false (Bytes.value r) 0)) := by
  have hholds : Word.holds (Bytes.value r) = true ↔ Bytes.value r ≤ 2 ^ 63 - 1 := by
    rw [Word.holds_iff]
    omega
  simp only [number, List.count_eq_zero.mpr hpoint, hholds]

end Cursor

/-- Digits, a point and digits again are a fraction, with the value of its digits. -/
theorem fraction_of_split (hstart : StartsWithDigit (whole ++ 46 :: fraction))
    (hparts : ∀ b ∈ whole ++ 46 :: fraction, Byte.isNumberPart b = true)
    (honePoint : 46 ∉ whole ++ fraction) (hne : fraction ≠ []) :
    Fraction (whole ++ 46 :: fraction) (fractionValue whole fraction) := by
  rw [List.mem_append, not_or] at honePoint
  refine ⟨whole, fraction, rfl, ?_, hne, ?_, ?_, rfl⟩
  · rintro rfl
    obtain ⟨b, ⟨⟩, hdigit⟩ := hstart
    exact absurd hdigit (by decide)
  · exact isDigit_of_not_point (fun b hb => hparts b (List.mem_append_left _ hb)) honePoint.1
  · refine isDigit_of_not_point (fun b hb => hparts b ?_) honePoint.2
    exact List.mem_append_right _ (List.mem_cons_of_mem _ hb)

theorem isInfinite_fractionValue : (fractionValue whole fraction).isInfinite = true ↔
    Double.beyond * 10 ^ fraction.length ≤ Bytes.value (whole ++ fraction) :=
  Double.isInfinite_ofDecimal_iff _ _

/-- A float that is in the range is judged as its value. -/
theorem IsFloat.number (h : IsFloat r whole fraction) (hstart : StartsWithDigit r)
    (hparts : ∀ b ∈ r, Byte.isNumberPart b = true) :
    Cursor.number r = .ok (.float r (fractionValue whole fraction)) := by
  obtain ⟨rfl, honePoint, hne, hrange⟩ := h
  -- The bound on the digits keeps the value below the range.
  have hfinite : (fractionValue whole fraction).isInfinite = false := by
    rw [← Bool.not_eq_true, isInfinite_fractionValue]
    exact Nat.not_le.mpr hrange
  obtain ⟨-, -, -, -, -, hnumber⟩ :=
    (fraction_of_split hstart hparts honePoint hne).isNumeral hfinite
  exact hnumber

/-- With a point in it a run that is no float is no number. -/
theorem Cursor.number_of_points (hstart : StartsWithDigit r)
    (hparts : ∀ b ∈ r, Byte.isNumberPart b = true) (hpoint : 46 ∈ r)
    (hnone : ∀ whole fraction, ¬IsFloat r whole fraction) :
    number r = .error (.invalidFloat r) := by
  -- The first point cuts the run in two.
  obtain ⟨whole, fraction, rfl, hwhole⟩ := List.eq_append_cons_of_mem hpoint
  have hcount : (whole ++ 46 :: fraction).count 46 = fraction.count 46 + 1 := by
    rw [List.count_append, List.count_cons_self, List.count_eq_zero.mpr hwhole, Nat.zero_add]
  by_cases hagain : 46 ∈ fraction
  · -- Two points or more are refused before the value is looked at.
    obtain ⟨n, hn⟩ := Nat.exists_eq_add_of_lt (List.count_pos_iff.mpr hagain)
    simp only [number, hcount, hn, Nat.zero_add]
  have hone : (whole ++ 46 :: fraction).count 46 = 1 := by
    rw [hcount, List.count_eq_zero.mpr hagain]
  by_cases hne : fraction = []
  · subst hne
    -- A point at the end is refused as well.
    simp [number, hone]
  -- Only the range is left to fail.
  have honePoint : 46 ∉ whole ++ fraction := by simp [hwhole, hagain]
  have hinfinite : (fractionValue whole fraction).isInfinite = true := by
    rw [isInfinite_fractionValue]
    exact Nat.not_lt.mp fun hrange => hnone whole fraction ⟨rfl, honePoint, hne, hrange⟩
  have hread := (fraction_of_split hstart hparts honePoint hne).readDouble
  simp only [number, hone, hread, hinfinite, if_true, ite_self]

/-! ## Runs in a text -/

/-- The run `r` of digits and points, with `s` behind it, at a place of the text where a
    token starts: the text in front of it is `u` and holds the tokens `ts`. -/
structure RunAt (source u : Bytes) (ts : List Token) (r s : Bytes) : Prop where
  split : completed source = u ++ (r ++ s)
  tiles : ∃ fresh, Tiles [] true u ts (r ++ s) fresh
  parts : ∀ b ∈ r, Byte.isNumberPart b = true
  stops : Stops Byte.isNumberPart s

/-- A digit or a point where a token starts has a run behind it. -/
theorem exists_runAt {source u v : Bytes} {ts : List Token} {f : Bool} {b : UInt8}
    (hsplit : completed source = u ++ b :: v) (hu : Tiles [] true u ts (b :: v) f)
    (hb : Byte.isNumberPart b = true) : ∃ n s, v = n ++ s ∧ RunAt source u ts (b :: n) s := by
  obtain ⟨n, s, rfl, hn, hs⟩ := exists_stop (p := Byte.isNumberPart) v
  exact ⟨n, s, rfl, hsplit, ⟨f, hu⟩, List.forall_mem_cons.mpr ⟨hb, hn⟩, hs⟩

/-- The token behind `u` and `ts` is `l`, and the reader goes on with `s` behind it. -/
def ReadsAs (source u : Bytes) (ts : List Token) (s : Bytes) (l : Lexeme) : Prop :=
  (Cursor.ofText source).tokens =
    (ts ++ ⟨l, .behind u⟩ :: (Cursor.behind (u ++ l.literal) s false).tokens.1,
      (Cursor.behind (u ++ l.literal) s false).tokens.2)

namespace RunAt

variable {source u s : Bytes} {ts : List Token}

/-- The run that is the whole text, in front of the line break that it lacks. -/
theorem alone (hparts : ∀ b ∈ r, Byte.isNumberPart b = true) : RunAt r [] [] r [10] := by
  have hcompleted : completed r = r ++ [10] := by
    refine if_neg ?_
    rw [beq_iff_eq]
    exact fun hlast => absurd (hparts 10 (List.mem_of_getLast? hlast)) (by decide)
  exact ⟨hcompleted, ⟨true, .gap .nil⟩, hparts, stops_cons.mpr (by decide)⟩

/-- A run that is a number is read as it, wherever it stands. -/
theorem reads (h : RunAt source u ts r s) (hstart : StartsWithDigit r) {l : Lexeme}
    (hl : Cursor.number r = .ok l) : ReadsAs source u ts s l := by
  obtain ⟨hsplit, ⟨fresh, htiles⟩, hparts, hstops⟩ := h
  obtain rfl := literal_of_number hl
  -- The run is one more tile behind those of the tokens in front.
  have htokens := (htiles.concat (.number hstart hparts hl hstops)).tokens
  rw [number_ne_separator hl, List.append_assoc u, ← hsplit, ← Cursor.ofText_eq_behind,
    List.append_assoc ts] at htokens
  exact htokens

/-- A run that is no number is refused, wherever it stands. -/
theorem refused (h : RunAt source u ts r s) (hstart : StartsWithDigit r) {problem : LexProblem}
    (hl : Cursor.number r = .error problem) :
    tokenize source = .error (.lex (.invalidFloat r) (.behind u)) := by
  obtain ⟨hsplit, ⟨fresh, htiles⟩, hparts, hstops⟩ := h
  obtain ⟨b, hb, hdigit⟩ := hstart
  obtain ⟨n, rfl⟩ := List.head?_eq_some_iff.mp hb
  obtain rfl := Cursor.number_problem hl
  have hnone : NoToken (.invalidFloat (b :: n)) (b :: n ++ s) :=
    .number hdigit (fun d hd => hparts d (List.mem_cons_of_mem b hd)) hstops hl
  exact hnone.tokenize htiles hsplit

end RunAt

/-- What is read is not refused at the same place. -/
theorem ReadsAs.not_refused {source u s : Bytes} {ts : List Token} {l : Lexeme}
    (h : ReadsAs source u ts s l) (problem : LexProblem) :
    tokenize source ≠ .error (.lex problem (.behind u)) := by
  intro herror
  obtain ⟨-, -, hbehind⟩ := Cursor.fault_position (tokenize_eq_error_iff.mp herror)
  have hmem : ⟨l, .behind u⟩ ∈ (Cursor.ofText source).tokens.1 := by
    rw [h]
    exact List.mem_append_right _ List.mem_cons_self
  -- A fault stands behind every token, and so not at the place of one.
  have hself := hbehind _ hmem
  simp only [Position.lt_iff, Fault.position, Nat.lt_irrefl, and_false, or_self] at hself

/-- A numeral alone is one token, in front of the separator at its end. -/
theorem tokenize_numeral {l : Lexeme} (hstart : StartsWithDigit r)
    (hparts : ∀ b ∈ r, Byte.isNumberPart b = true) (hl : Cursor.number r = .ok l) :
    tokenize r = .ok [⟨l, ⟨1, 1⟩⟩, ⟨.separator, ⟨1, 1 + r.length⟩⟩] := by
  have hreads := (RunAt.alone hparts).reads hstart hl
  have hline : 10 ∉ r := fun h => absurd (hparts 10 h) (by decide)
  have hplace : Position.behind r = ⟨1, 1 + r.length⟩ := Position.behind_append_of_line [] hline
  -- Behind the number only the line break is left, which is the separator.
  have hend : (Cursor.behind r [10] false).tokens = ([⟨.separator, ⟨1, 1 + r.length⟩⟩], none) := by
    have hnil : (Cursor.behind (r ++ [10]) [] (.separator == Lexeme.separator)).tokens =
        ([], none) := Cursor.tokens_nil _ _
    have hnewline := Cursor.tokens_of_token (Span.read (s := []) .newline r)
    rwa [hnil, hplace] at hnewline
  rw [ReadsAs, literal_of_number hl, List.nil_append, List.nil_append, hend] at hreads
  exact tokenize_eq_ok_iff.mpr hreads

/-- A run of digits and points that starts with a digit is one number or a fault at its
    place, wherever it stands. Without a point it is the integer that its digits stand
    for, however many they are, up to the greatest integer of 64 bits, and a float beyond.
    With points it is a float exactly if there is one point, digits stand behind it, and
    the value is in the range. In particular the numeral of an integer is read back. -/
theorem numerals_classified :
    (∀ {source u r s : Bytes} {ts : List Token}, RunAt source u ts r s → StartsWithDigit r →
      (46 ∉ r → Bytes.value r ≤ 2 ^ 63 - 1 →
        ∃ n : Int64, n.toInt = Bytes.value r ∧ ReadsAs source u ts s (.integer r n)) ∧
      (46 ∉ r → 2 ^ 63 - 1 < Bytes.value r →
        ReadsAs source u ts s (.float r (.ofDecimal false (Bytes.value r) 0))) ∧
      (46 ∈ r → ∀ whole fraction, IsFloat r whole fraction →
        ReadsAs source u ts s (.float r (fractionValue whole fraction))) ∧
      (46 ∈ r → ((∃ l, ReadsAs source u ts s l) ↔ ∃ whole fraction, IsFloat r whole fraction)) ∧
      (46 ∈ r → (∀ whole fraction, ¬IsFloat r whole fraction) →
        tokenize source = .error (.lex (.invalidFloat r) (.behind u)))) ∧
    ∀ n : Int64, 0 ≤ n → tokenize (Bytes.ofInt n.toInt) =
      .ok [⟨.integer (Bytes.ofInt n.toInt) n, ⟨1, 1⟩⟩,
        ⟨.separator, ⟨1, 1 + (Bytes.ofInt n.toInt).length⟩⟩] := by
  refine ⟨fun {source u r s ts} hrun hstart => ?_, fun n hn => ?_⟩
  · have hrefused : 46 ∈ r → (∀ whole fraction, ¬IsFloat r whole fraction) →
        tokenize source = .error (.lex (.invalidFloat r) (.behind u)) := fun hpoint hnone =>
      hrun.refused hstart (Cursor.number_of_points hstart hrun.parts hpoint hnone)
    have hfraction : ∀ whole fraction, IsFloat r whole fraction →
        ReadsAs source u ts s (.float r (fractionValue whole fraction)) := fun _ _ h =>
      hrun.reads hstart (h.number hstart hrun.parts)
    refine ⟨fun hpoint hle => ?_, fun hpoint hlt => ?_, fun _ => hfraction,
      fun hpoint => ⟨fun ⟨l, hl⟩ => ?_, fun ⟨_, _, h⟩ => ⟨_, hfraction _ _ h⟩⟩, hrefused⟩
    · refine ⟨Int64.ofNat (Bytes.value r), Int64.toInt_ofNat_of_lt (by omega), ?_⟩
      exact hrun.reads hstart (by rw [Cursor.number_of_digits hpoint, if_pos hle])
    · exact hrun.reads hstart (by rw [Cursor.number_of_digits hpoint, if_neg (by omega)])
    · -- If nothing makes it a float it is refused, so it was not read.
      by_contra hnone
      push Not at hnone
      exact hl.not_refused _ (hrefused hpoint hnone)
  · obtain ⟨b, ds, hds, hb, hparts, hl⟩ := isNumeral_int hn
    rw [hds] at hl ⊢
    exact tokenize_numeral ⟨b, rfl, hb⟩
      (List.forall_mem_cons.mpr ⟨isNumberPart_of_digit hb, hparts⟩) hl

/-- The greatest integer with a zero in front of it, the number behind it, and digits with
    two points. -/
theorem numerals_classified_at_range :
    (∃ n : Int64, n.toInt = 9223372036854775807 ∧
      ReadsAs (text "09223372036854775807") [] [] [10] (.integer (text "09223372036854775807") n)) ∧
    ReadsAs (text "9223372036854775808") [] [] [10]
      (.float (text "9223372036854775808") (.ofDecimal false 9223372036854775808 0)) ∧
    tokenize (text "1.5.") = .error (.lex (.invalidFloat (text "1.5.")) ⟨1, 1⟩) := by
  have hinteger := numerals_classified.1
    (RunAt.alone (r := text "09223372036854775807") (List.all_eq_true.mp (by decide)))
    ⟨48, by decide, by decide⟩
  have hwide := numerals_classified.1
    (RunAt.alone (r := text "9223372036854775808") (List.all_eq_true.mp (by decide)))
    ⟨57, by decide, by decide⟩
  have hpoints := numerals_classified.1
    (RunAt.alone (r := text "1.5.") (List.all_eq_true.mp (by decide))) ⟨49, by decide, by decide⟩
  have hvalue : Bytes.value (text "9223372036854775808") = 9223372036854775808 := by decide
  rw [hvalue] at hwide
  refine ⟨hinteger.1 (by decide) (by decide), hwide.2.1 (by decide) (by decide), ?_⟩
  exact hpoints.2.2.2.2 (by decide) (not_isFloat_of_getLast? (by decide))

/-! ## Points -/

/-- The mark `.`. -/
def Lexeme.point : Lexeme := .punctuation [46]

/-- Whether a lexeme is an integer or a float. -/
def Lexeme.isNumber : Lexeme → Bool
  | .integer .. | .float .. => true
  | _ => false

/-- No byte stands between the two tokens: the second starts where the text of the first
    ends. -/
def Token.Touches (t t' : Token) : Prop :=
  t'.position = ⟨t.position.line, t.position.column + t.lexeme.literal.length⟩

/-- The tokens of the `k` points behind `u`. -/
def points (u : Bytes) (k : Nat) : List Token :=
  (List.range k).map fun i => ⟨.point, .behind (u ++ List.replicate i 46)⟩

section

variable {fresh : Bool} {l : Lexeme} {w s : Bytes}

/-- The mark `.` is written as a point. -/
theorem Span.of_point (h : Span fresh .point w s) : w = [46] := by
  generalize hl : Lexeme.point = l at h
  cases h with
  | newline | comment | string | operator => cases hl
  | punctuation =>
    cases hl
    rfl
  | word =>
    unfold Lexeme.word at hl
    split at hl <;> cases hl
  -- A number is no mark, whatever its text.
  | number _ _ hnumber =>
    rw [← hl] at hnumber
    obtain ⟨n, hn⟩ | ⟨d, hd⟩ := number_cases hnumber
    · cases hn
    · cases hd

/-- A number is written as digits and points, up to where they stop. -/
theorem Span.of_number (h : Span fresh l w s) (hl : l.isNumber = true) :
    StartsWithDigit w ∧ w = l.literal ∧ (∀ b ∈ w, Byte.isNumberPart b = true) ∧
      Stops Byte.isNumberPart s := by
  cases h with
  | newline | comment | string | punctuation | operator => cases hl
  | word =>
    unfold Lexeme.word at hl
    split at hl <;> cases hl
  | number hfirst hparts _ hs => exact ⟨hfirst, rfl, hparts, hs⟩

/-- A point and a number are written on one line, as their text. -/
theorem Span.eq_literal (h : Span fresh l w s) (hl : l = .point ∨ l.isNumber = true) :
    w = l.literal ∧ 10 ∉ w := by
  rcases hl with rfl | hl
  · obtain rfl := h.of_point
    exact ⟨rfl, by decide⟩
  · obtain ⟨-, hw, hparts, -⟩ := h.of_number hl
    exact ⟨hw, fun hline => absurd (hparts 10 hline) (by decide)⟩

end

/-- The span of a token that touches a point or a number stands right behind it. -/
theorem Tiles.exists_touching {front u r : Bytes} {fresh f : Bool} {ts : List Token}
    (h : Tiles front fresh u ts r f) {t t' : Token} (ht : t ∈ ts) (ht' : t' ∈ ts)
    (hl : t.lexeme = .point ∨ t.lexeme.isNumber = true) (htouch : t.Touches t') :
    ∃ x us w w' y f₁ f₂, u ++ r = x ++ (w ++ (w' ++ y)) ∧
      Tiles front fresh x us (w ++ (w' ++ y)) f₁ ∧ Span f₁ t.lexeme w (w' ++ y) ∧
      Span f₂ t'.lexeme w' y := by
  obtain ⟨x, us, w, y, f₁, hsplit, hx, hw, hplace⟩ := h.exists_span ht
  obtain ⟨x', _, w', y', f₂, hsplit', -, hw', hplace'⟩ := h.exists_span ht'
  obtain ⟨hliteral, hline⟩ := hw.eq_literal hl
  -- Both spans are parts of one text, which has no place twice.
  have hnext : Position.behind (front ++ x') = .behind (front ++ x ++ w) := by
    rw [← hplace', Position.behind_append_of_line _ hline, ← hplace, hliteral]
    exact htouch
  have hboth : front ++ x' ++ (w' ++ y') = front ++ x ++ w ++ y := by
    rw [List.append_assoc, ← hsplit', hsplit]
    simp only [List.append_assoc]
  have hx' := Position.eq_of_behind_eq hboth hnext
  rw [hx'] at hboth
  obtain rfl := List.append_cancel_left hboth
  exact ⟨x, us, w, w', y', f₁, f₂, hsplit, hx, hw, hw'⟩

/-- A number goes on with the points behind it. -/
theorem Tiles.not_touches_point {front u r : Bytes} {fresh f : Bool} {ts : List Token}
    (h : Tiles front fresh u ts r f) {t t' : Token} (ht : t ∈ ts) (ht' : t' ∈ ts)
    (hnumber : t.lexeme.isNumber = true) (hpoint : t'.lexeme = .point) : ¬t.Touches t' := by
  intro htouch
  obtain ⟨_, _, w, w', y, f₁, f₂, -, -, hw, hw'⟩ :=
    h.exists_touching ht ht' (.inr hnumber) htouch
  rw [hpoint] at hw'
  obtain rfl := hw'.of_point
  obtain ⟨-, -, -, hstops⟩ := hw.of_number hnumber
  exact absurd (stops_cons.mp hstops) (by decide)

/-- Behind a point that touches a number there is a digit. -/
theorem Tiles.exists_point {front u r : Bytes} {fresh f : Bool} {ts : List Token}
    (h : Tiles front fresh u ts r f) {t t' : Token} (ht : t ∈ ts) (ht' : t' ∈ ts)
    (hpoint : t.lexeme = .point) (hnumber : t'.lexeme.isNumber = true) (htouch : t.Touches t') :
    ∃ x us v f₁, u ++ r = x ++ 46 :: v ∧ Tiles front fresh x us (46 :: v) f₁ ∧
      StartsWithDigit v := by
  obtain ⟨x, us, w, w', y, f₁, f₂, hsplit, hx, hw, hw'⟩ :=
    h.exists_touching ht ht' (.inl hpoint) htouch
  rw [hpoint] at hw
  obtain rfl := hw.of_point
  obtain ⟨⟨b, hb, hdigit⟩, -⟩ := hw'.of_number hnumber
  obtain ⟨n, rfl⟩ := List.head?_eq_some_iff.mp hb
  exact ⟨x, us, _, f₁, hsplit, hx, b, rfl, hdigit⟩

namespace RunAt

variable {source u n s : Bytes} {ts : List Token}

/-- A point where a token starts is a token, whatever stands behind it. -/
theorem behind_point (h : RunAt source u ts (46 :: n) s) :
    RunAt source (u ++ [46]) (ts ++ [⟨.point, .behind u⟩]) n s := by
  obtain ⟨hsplit, ⟨fresh, htiles⟩, hparts, hstops⟩ := h
  refine ⟨?_, ⟨false, ?_⟩, fun b hb => hparts b (List.mem_cons_of_mem _ hb), hstops⟩
  · rw [hsplit, List.append_assoc]
    rfl
  · exact htiles.concat (w := [46]) (.punctuation (by decide))

/-- So are any number of them in front of a run. -/
theorem behind_points {k : Nat} (h : RunAt source u ts (List.replicate k 46 ++ n) s) :
    RunAt source (u ++ List.replicate k 46) (ts ++ points u k) n s := by
  induction k generalizing n with
  | zero => simpa [points] using h
  | succ k ih =>
    -- The last of the points is the first byte of the run behind the others.
    rw [List.replicate_succ', List.append_assoc] at h
    have hlast := (ih h).behind_point
    rw [List.append_assoc u, List.append_assoc ts] at hlast
    rw [List.replicate_succ', points, List.range_succ, List.map_append]
    exact hlast

/-- In a text that is split into tokens a point with a digit behind it touches a number. -/
theorem exists_touching (h : RunAt source u ts (46 :: n) s) (hstart : StartsWithDigit n)
    {all : List Token} (hok : tokenize source = .ok all) :
    ∃ t ∈ all, ∃ t' ∈ all, t.lexeme = .point ∧ t'.lexeme.isNumber = true ∧ t.Touches t' := by
  cases hl : Cursor.number n with
  -- The text is split, so the run behind the point cannot be refused.
  | error problem => cases hok.symm.trans (h.behind_point.refused hstart hl)
  | ok l =>
    have hreads := h.behind_point.reads hstart hl
    obtain ⟨rfl, -⟩ := Prod.mk.inj ((tokenize_eq_ok_iff.mp hok).symm.trans hreads)
    refine ⟨⟨.point, .behind u⟩, by simp, ⟨l, .behind (u ++ [46])⟩, by simp, rfl, ?_, ?_⟩
    · obtain ⟨n, rfl⟩ | ⟨d, rfl⟩ := number_cases hl <;> rfl
    · exact Position.behind_append_of_line u (by decide)

end RunAt

/-- No point stands right behind a number of a text that is split into tokens. A point
    stands right in front of a number exactly if there is a point with a digit behind it
    where a token starts: the points that a run starts with are marks, and what is behind
    them is read as if it stood alone. So a point at the end of a run is always refused, and
    the points at its start never are. -/
theorem points_beside_numbers (source : Bytes) :
    (∀ ts, tokenize source = .ok ts →
      (∀ t ∈ ts, ∀ t' ∈ ts, t.lexeme.isNumber = true → t'.lexeme = .point → ¬t.Touches t') ∧
      ((∃ t ∈ ts, ∃ t' ∈ ts, t.lexeme = .point ∧ t'.lexeme.isNumber = true ∧ t.Touches t') ↔
        ∃ u us v f, completed source = u ++ 46 :: v ∧ Tiles [] true u us (46 :: v) f ∧
          StartsWithDigit v)) ∧
    ∀ {u n s : Bytes} {ts : List Token} {k : Nat},
      RunAt source u ts (List.replicate k 46 ++ n) s → StartsWithDigit n →
      (∀ l, Cursor.number n = .ok l →
        ReadsAs source (u ++ List.replicate k 46) (ts ++ points u k) s l) ∧
      (n.getLast? = some 46 →
        tokenize source =
          .error (.lex (.invalidFloat n) (.behind (u ++ List.replicate k 46)))) := by
  refine ⟨fun ts hok => ?_, fun {u n s ts k} hrun hstart => ?_⟩
  · have htiles := tiles_of_tokenize hok
    refine ⟨fun t ht t' ht' => htiles.not_touches_point ht ht', ?_, ?_⟩
    · rintro ⟨t, ht, t', ht', hpoint, hnumber, htouch⟩
      have hdigit := htiles.exists_point ht ht' hpoint hnumber htouch
      rwa [List.append_nil] at hdigit
    · rintro ⟨u, us, v, f, hsplit, hu, b, hb, hdigit⟩
      obtain ⟨n, s, rfl, hrun⟩ := exists_runAt hsplit hu (by decide)
      -- The run behind the point is not empty, for a digit stands there.
      have hstart : StartsWithDigit n := by
        cases n with
        | nil => exact absurd (hrun.stops b hb) (by simp [isNumberPart_of_digit hdigit])
        | cons d n => exact ⟨b, hb, hdigit⟩
      exact hrun.exists_touching hstart hok
  · refine ⟨fun l hl => hrun.behind_points.reads hstart hl, fun hlast => ?_⟩
    have hnumber := Cursor.number_of_points hstart hrun.behind_points.parts
      (List.mem_of_getLast? hlast) (not_isFloat_of_getLast? hlast)
    exact hrun.behind_points.refused hstart hnumber

theorem points_beside_numbers_leading :
    (∃ ts, tokenize (text ".5") = .ok ts ∧ ∃ t ∈ ts, ∃ t' ∈ ts,
      t.lexeme = .point ∧ t'.lexeme.isNumber = true ∧ t.Touches t') ∧
    tokenize (text ".5.") = .error (.lex (.invalidFloat (text "5.")) ⟨1, 2⟩) := by
  have hok : tokenize (text ".5") = .ok [⟨.point, ⟨1, 1⟩⟩, ⟨.integer (text "5") 5, ⟨1, 2⟩⟩,
      ⟨.separator, ⟨1, 3⟩⟩] := by
    with_unfolding_all rfl
  have hrun : RunAt (text ".5.") [] [] (List.replicate 1 46 ++ text "5.") [10] :=
    RunAt.alone (List.all_eq_true.mp (by decide))
  refine ⟨⟨_, hok, ((points_beside_numbers (text ".5")).1 _ hok).2.mpr ?_⟩, ?_⟩
  · exact ⟨[], [], text "5" ++ [10], true, by decide, .gap .nil, 53, by decide, by decide⟩
  · exact ((points_beside_numbers (text ".5.")).2 hrun ⟨53, by decide, by decide⟩).2 (by decide)

end Scriptlet

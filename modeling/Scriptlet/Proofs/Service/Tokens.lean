/-
  Scriptlet.Proofs.Service.Tokens

  What the service answers about the tokens of a source.

  A token becomes an entry of the response, unless it is a number without a document. The
  lexer takes digits beyond the range of floats for the infinity, which has none
  (`Lexeme.IsBeyond`), and this is the only token of that kind (`entry_or_beyond`). So a
  source that lexes is answered with its tokens exactly if it has no such digits, and any
  source can be asked about, whatever its bytes are (`asks_escapedForm`).
-/
import Scriptlet.Proofs.Lexing.Numbers
import Scriptlet.Proofs.Number.Document
import Scriptlet.Proofs.Service

namespace Scriptlet

/-! ## Numbers beyond the range -/

/-- Digits without a point that stand for a number beyond the finite ones. -/
def Lexeme.IsBeyond (l : Lexeme) : Prop :=
  ∃ digits d, l = .float digits d ∧ 46 ∉ digits ∧ Double.beyond ≤ Bytes.value digits

/-- A number of a text is what its run of digits and points is read as. -/
theorem number_of_mem {source : Bytes} {ts : List Token} (hok : tokenize source = .ok ts)
    {t : Token} (ht : t ∈ ts) (hnumber : t.lexeme.isNumber = true) :
    Cursor.number t.lexeme.literal = .ok t.lexeme := by
  -- The token stands in the tiling, where a number is read from its literal.
  obtain ⟨x, us, w, y, f, -, -, hspan, -⟩ := (tiles_of_tokenize hok).exists_span ht
  generalize t.lexeme = l at hspan hnumber
  cases hspan with
  | newline | comment | string | punctuation | operator => cases hnumber
  | word =>
    unfold Lexeme.word at hnumber
    split at hnumber <;> cases hnumber
  | number _ _ hl => exact hl

/-- A float is read as the infinity exactly if it is digits without a point, beyond the
    range. With a point it would be refused. -/
theorem isInfinite_of_number {literal : Bytes} {d : Double}
    (h : Cursor.number literal = .ok (.float literal d)) :
    d.isInfinite = true ↔ 46 ∉ literal ∧ Double.beyond ≤ Bytes.value literal := by
  unfold Cursor.number at h
  split at h
  · rename_i hcount
    rw [and_iff_right (List.count_eq_zero.mp hcount), ← Double.isInfinite_ofNat_iff]
    dsimp only at h
    split at h
    · cases h
    · cases h
      rfl
  · -- With a point an infinite value is refused, so the float is finite.
    rename_i hcount
    have hpoint : 46 ∈ literal := List.count_pos_iff.mp (by omega)
    refine iff_of_false ?_ fun hnone => hnone.1 hpoint
    repeat' split at h
    all_goals cases h
    assumption
  · cases h

/-- The floats of a text are not negative and no NaN. -/
theorem float_of_mem {source : Bytes} {ts : List Token} (hok : tokenize source = .ok ts)
    {t : Token} (ht : t ∈ ts) {literal : Bytes} {d : Double} (hl : t.lexeme = .float literal d) :
    d.isNegative = false ∧ d.isNaN = false ∧ (d.isInfinite = true ↔ t.lexeme.IsBeyond) := by
  have hvalid := isValid_of_tokenize hok t.lexeme (List.mem_map_of_mem ht)
  have hnumber := number_of_mem hok ht (by rw [hl]; rfl)
  rw [hl] at hvalid hnumber
  rw [Lexeme.isValid, Bool.and_eq_true, Bool.not_eq_true', Bool.not_eq_true'] at hvalid
  refine ⟨hvalid.1, hvalid.2, ?_⟩
  rw [isInfinite_of_number hnumber, hl]
  constructor
  · exact fun h => ⟨literal, d, rfl, h⟩
  · rintro ⟨_, _, heq, h⟩
    cases heq
    exact h

/-! ## Entries -/

/-- The document stands for the value of the lexeme: a numeral that is read back as the
    integer or as the float, and the text of any other lexeme. -/
def Lexeme.Shows : Lexeme → Json → Prop
  | .integer _ n, j => ∃ numeral, j = .number numeral ∧ Numeral.readInt64 numeral = .ok n.toInt
  | .float _ d, j => ∃ numeral, j = .number numeral ∧ Numeral.readDouble numeral = some d
  | l, j => j = .str l.literal

/-- The entry of a token: its kind, its value and its place. -/
def Token.IsEntry (t : Token) (j : Json) : Prop :=
  ∃ value, t.lexeme.Shows value ∧ j = .object [(text "kind", .str t.lexeme.kind),
    (text "value", value), (text "line", .ofNat t.position.line),
    (text "column", .ofNat t.position.column)]

theorem Double.isFinite_eq_not_isInfinite {d : Double} (hnan : d.isNaN = false) :
    d.isFinite = !d.isInfinite := by
  have hle : d.magnitude ≤ infinityBits := by simpa [isNaN] using hnan
  rw [isFinite, isInfinite]
  by_cases heq : d.magnitude = infinityBits
  · simp [heq]
  · simp [heq, Nat.lt_of_le_of_ne hle heq]

/-- A token of a text has an entry, or it is a number beyond the range. -/
theorem entry_or_beyond {source : Bytes} {ts : List Token} (hok : tokenize source = .ok ts)
    {t : Token} (ht : t ∈ ts) :
    (¬t.lexeme.IsBeyond ∧ ∃ j, Service.tokenJson? t = some j ∧ t.IsEntry j) ∨
      (t.lexeme.IsBeyond ∧ Service.tokenJson? t = none) := by
  obtain ⟨l, place⟩ := t
  cases l with
  | float literal d =>
    obtain ⟨hneg, hnan, hbeyond⟩ := float_of_mem hok ht rfl
    have hfinite := Double.isFinite_eq_not_isInfinite hnan
    cases hinfinite : d.isInfinite with
    -- The infinity has no document.
    | true =>
      refine .inr ⟨hbeyond.mp hinfinite, ?_⟩
      rw [hinfinite] at hfinite
      simp [Service.tokenJson?, Json.ofDouble?, hfinite]
    | false =>
      rw [hinfinite] at hfinite
      refine .inl ⟨fun h => ?_, _, ?_, .number d.document, ⟨d.document, rfl, ?_⟩, rfl⟩
      · rw [hbeyond.mpr h] at hinfinite
        cases hinfinite
      · simp [Service.tokenJson?, Json.ofDouble?, hfinite]
      · exact Double.readDouble_write hneg hfinite _
  -- A word is written in full and read back as it is.
  | integer literal n =>
    refine .inl ⟨nofun, _, rfl, .ofInt n.toInt, ⟨_, rfl, Numeral.readInt64_ofInt n⟩, rfl⟩
  | _ => exact .inl ⟨nofun, _, rfl, .str _, rfl, rfl⟩

section mapM

variable {α β : Type} {f : α → Option β} {xs : List α}

/-- What each element gives, a list of them gives in order. -/
theorem exists_mapM {R : α → β → Prop} (h : ∀ x ∈ xs, ∃ y, f x = some y ∧ R x y) :
    ∃ ys, xs.mapM f = some ys ∧ List.Forall₂ R xs ys := by
  induction xs with
  | nil => exact ⟨[], rfl, .nil⟩
  | cons x xs ih =>
    obtain ⟨⟨y, hy, hR⟩, hrest⟩ := List.forall_mem_cons.mp h
    obtain ⟨ys, hys, hall⟩ := ih hrest
    exact ⟨y :: ys, by simp [List.mapM_cons, hy, hys], .cons hR hall⟩

/-- One element that gives nothing is enough for the list to give nothing. -/
theorem mapM_eq_none {x : α} (hx : x ∈ xs) (h : f x = none) : xs.mapM f = none := by
  induction xs with
  | nil => cases hx
  | cons y ys ih =>
    rw [List.mapM_cons]
    rcases List.mem_cons.mp hx with rfl | hx
    · rw [h]
      rfl
    · rw [ih hx]
      cases f y <;> rfl

end mapM

/-! ## Requests -/

/-- The request asks for the tokens of a source. -/
structure Request.AsksTokens (r : Request) (source : Bytes) : Prop where
  method : r.method = text "POST"
  route : Route.find? r.target.1 = some .tokens
  task : ∃ t, Service.task false r = .ok t ∧ t.source = source

/-- A text with every byte escaped. -/
def escaped (bs : Bytes) : Bytes := bs.flatMap fun b => 37 :: Bytes.hex 2 b.toNat

/-- A form with the source as its field. -/
def escapedForm (source : Bytes) : Request :=
  ⟨text "POST", text "/api/tokens", ContentType.form, text "source" ++ 61 :: escaped source⟩

/-- The escape of a byte has two digits, and they give the byte. -/
theorem exists_hex (b : UInt8) : ∃ x y m n, Bytes.hex 2 b.toNat = [x, y] ∧ x ≠ 38 ∧ y ≠ 38 ∧
    Query.decode.hexDigit x = some m ∧ Query.decode.hexDigit y = some n ∧
    UInt8.ofNat (16 * m + n) = b := by
  -- One check for each of the 256 bytes.
  have hall := Byte.forall_of_all (p := fun b =>
    (Bytes.hex 2 b.toNat)[0]?.any fun x => (Bytes.hex 2 b.toNat)[1]?.any fun y =>
      Bytes.hex 2 b.toNat == [x, y] && x != 38 && y != 38 &&
        (Query.decode.hexDigit x).any fun m => (Query.decode.hexDigit y).any fun n =>
          UInt8.ofNat (16 * m + n) == b) (by decide +kernel) b
  simp only [Option.any_eq_true, Bool.and_eq_true, bne_iff_ne, beq_iff_eq] at hall
  obtain ⟨x, -, y, -, ⟨⟨hhex, hx⟩, hy⟩, m, hm, n, hn, hb⟩ := hall
  exact ⟨x, y, m, n, hhex, hx, hy, hm, hn, hb⟩

theorem decode_escaped (bs : Bytes) : Query.decode (escaped bs) = bs := by
  induction bs with
  | nil => rfl
  | cons b bs ih =>
    -- Each byte is three in the form, and they are read together.
    obtain ⟨x, y, m, n, hhex, -, -, hx, hy, hb⟩ := exists_hex b
    rw [escaped] at ih
    rw [escaped, List.flatMap_cons, hhex, List.cons_append, List.cons_append, List.cons_append,
      List.nil_append, Query.decode]
    simp only [hx, hy, hb, ih]

theorem not_mem_escaped (bs : Bytes) : 38 ∉ escaped bs := by
  intro h
  obtain ⟨b, -, hb⟩ := List.mem_flatMap.mp h
  obtain ⟨x, y, m, n, hhex, hx, hy, -⟩ := exists_hex b
  rw [hhex] at hb
  simp [hx.symm, hy.symm] at hb

theorem split_of_not_mem {b : UInt8} {bs : Bytes} (h : b ∉ bs) : Bytes.split b bs = [bs] := by
  induction bs with
  | nil => rfl
  | cons c cs ih =>
    rw [List.mem_cons, not_or] at h
    rw [Bytes.split, ih h.2, beq_false_of_ne (Ne.symm h.1)]

theorem cut_append {b : UInt8} {xs : Bytes} (h : b ∉ xs) (ys : Bytes) :
    Bytes.cut b (xs ++ b :: ys) = (xs, some ys) := by
  have htake : (xs ++ b :: ys).takeWhile (· != b) = xs := by
    rw [List.takeWhile_append_of_pos, List.takeWhile_cons_of_neg (by simp), List.append_nil]
    intro c hc
    rw [bne_iff_ne]
    rintro rfl
    exact h hc
  simp only [Bytes.cut, htake, List.drop_left]

theorem parameters_escapedForm (source : Bytes) :
    Query.parameters (text "source" ++ 61 :: escaped source) = [(text "source", source)] := by
  -- The form is one field, for no byte of it divides fields.
  have hmem : 38 ∉ text "source" ++ 61 :: escaped source := by
    simp [not_mem_escaped, show (38 : UInt8) ∉ text "source" by decide]
  have hsource : 61 ∉ text "source" := by decide
  have hkey : Query.decode (text "source") = text "source" := by decide
  rw [Query.parameters, split_of_not_mem hmem, List.map_singleton, cut_append hsource]
  simp only [Option.getD_some, decode_escaped, hkey]

/-- Every source that is not blank can be asked about. -/
theorem asks_escapedForm {source : Bytes} (h : (Blank.trim source).isEmpty = false) :
    (escapedForm source).AsksTokens source where
  method := rfl
  route := by
    show Route.find? (Request.target ⟨[], text "/api/tokens", [], []⟩).1 = some .tokens
    decide +kernel
  task := by
    have hjson : ContentType.isJson (escapedForm source).contentType = false := by
      show ContentType.isJson ContentType.form = false
      decide +kernel
    have hform : ContentType.isForm (escapedForm source).contentType = true := by
      show ContentType.isForm ContentType.form = true
      decide +kernel
    have hfield : (escapedForm source).formField (text "source") = source := by
      have hfields : ContentType.hasFields (escapedForm source).contentType = true := by
        show ContentType.hasFields ContentType.form = true
        decide +kernel
      have hkey : (Json.fold (text "source") == text "source") = true := by decide +kernel
      have hparameters : Query.parameters (escapedForm source).body = [(text "source", source)] :=
        parameters_escapedForm source
      simp [Request.formField, hfields, hparameters, hkey]
    exact ⟨⟨source, []⟩, by simp [Service.task, hjson, hform, hfield, h], rfl⟩

/-! ## Answers -/

namespace Service

variable {s : Service} {m : Moment} {r : Request} {source : Bytes}

/-- The answer to a request for tokens does not depend on the service. -/
theorem handle_asksTokens (h : r.AsksTokens source) (s : Service) (m : Moment) :
    ∃ t, t.source = source ∧ s.handle m r = (tokens t, s) := by
  obtain ⟨t, htask, hsource⟩ := h.task
  refine ⟨t, hsource, ?_⟩
  rw [handle_post h.method h.route rfl, serve]
  simp [htask]

/-- A source that does not lex is answered with the fault and its place. -/
theorem tokens_of_fault {t : Task} {problem : LexProblem} {u : Bytes}
    (h : tokenize t.source = .error (.lex problem (.behind u))) :
    tokens t = ⟨422, .json (.object [
      (text "error", .str (Fault.lex problem (.behind u)).message),
      (text "code", .str (text "LEX_ERROR")),
      (text "line", .ofNat (Position.behind u).line),
      (text "column", .ofNat (Position.behind u).column)])⟩ := by
  -- Lines and columns count from one, so none is left out.
  have hcode : (text "LEX_ERROR").isEmpty = false := by decide
  have hline : ((Position.behind u).line == 0) = false := by simp [Position.behind]
  have hcolumn : ((Position.behind u).column == 0) = false := by simp [Position.behind]
  have hlabel : ErrorCode.lexing.label = text "LEX_ERROR" := rfl
  simp [tokens, h, unprocessable, faultFields, Record.optional, optional, Fault.code?,
    Fault.position, hlabel, hcode, hline, hcolumn]

/-- A source without digits beyond the range is answered with its tokens. -/
theorem tokens_of_ok {t : Task} {ts : List Token} (hok : tokenize t.source = .ok ts)
    (hrange : ∀ token ∈ ts, ¬token.lexeme.IsBeyond) :
    ∃ js, List.Forall₂ Token.IsEntry ts js ∧ tokens t = ⟨200, .json (.list js)⟩ := by
  have hentries : ∀ token ∈ ts, ∃ j, tokenJson? token = some j ∧ token.IsEntry j := by
    intro token htoken
    obtain ⟨-, hentry⟩ | ⟨hbeyond, -⟩ := entry_or_beyond hok htoken
    · exact hentry
    · exact absurd hbeyond (hrange token htoken)
  -- With an entry for each token there is a list of them.
  obtain ⟨js, hjs, hall⟩ := exists_mapM hentries
  refine ⟨js, hall, ?_⟩
  simp only [tokens, hok, hjs]
  rfl

/-- One run of digits beyond the range is enough for an error. -/
theorem tokens_of_beyond {t : Task} {ts : List Token} (hok : tokenize t.source = .ok ts)
    (hbeyond : ∃ token ∈ ts, token.lexeme.IsBeyond) :
    tokens t = .error 500 (text "json: unsupported value: +Inf") := by
  obtain ⟨token, htoken, hlexeme⟩ := hbeyond
  obtain ⟨hnot, -⟩ | ⟨-, hnone⟩ := entry_or_beyond hok htoken
  · exact absurd hlexeme hnot
  · simp only [tokens, hok, mapM_eq_none htoken hnone]

/-- A service can be asked for the tokens of every source that is not blank, and stays as it
    is. It answers with status 200 exactly if the source lexes and has no digits that stand
    for a number beyond the range of floats:

    - a source that does not lex is answered with status 422 and the code, the message and
      the place of the fault;
    - otherwise the answer has an entry for each token, in order, with its kind, its value
      and its place;
    - but digits beyond the range, which the lexer takes for the infinity, have no document,
      and one run of them makes the whole answer an internal error. -/
theorem tokens_answered (s : Service) (m : Moment) :
    (∀ source, (Blank.trim source).isEmpty = false → ∃ r : Request, r.AsksTokens source) ∧
    ∀ (r : Request) (source : Bytes), r.AsksTokens source →
      (s.handle m r).2 = s ∧
      ((s.handle m r).1.status = 200 ↔
        ∃ ts, tokenize source = .ok ts ∧ ∀ t ∈ ts, ¬t.lexeme.IsBeyond) ∧
      (∀ f, tokenize source = .error f → ∃ problem u, f = .lex problem (.behind u) ∧
        (s.handle m r).1 = ⟨422, .json (.object [(text "error", .str f.message),
          (text "code", .str (text "LEX_ERROR")), (text "line", .ofNat (Position.behind u).line),
          (text "column", .ofNat (Position.behind u).column)])⟩) ∧
      ∀ ts, tokenize source = .ok ts →
        ((∀ t ∈ ts, ¬t.lexeme.IsBeyond) → ∃ js, List.Forall₂ Token.IsEntry ts js ∧
          (s.handle m r).1 = ⟨200, .json (.list js)⟩) ∧
        ((∃ t ∈ ts, t.lexeme.IsBeyond) →
          (s.handle m r).1 = .error 500 (text "json: unsupported value: +Inf")) := by
  refine ⟨fun source h => ⟨_, asks_escapedForm h⟩, fun r source h => ?_⟩
  obtain ⟨t, rfl, hhandle⟩ := handle_asksTokens h s m
  rw [hhandle]
  have hfault : ∀ f, tokenize t.source = .error f → ∃ problem u, f = .lex problem (.behind u) := by
    intro f hf
    obtain ⟨ts, -, hok⟩ | ⟨u, -, -, -, problem, -, -, -, herror⟩ := exists_tokenize t.source
    · cases hok.symm.trans hf
    · cases herror.symm.trans hf
      exact ⟨problem, u, rfl⟩
  refine ⟨rfl, ?_, fun f hf => ?_, fun ts hok => ⟨tokens_of_ok hok, tokens_of_beyond hok⟩⟩
  · cases htokens : tokenize t.source with
    | error f =>
      obtain ⟨problem, u, rfl⟩ := hfault f htokens
      rw [tokens_of_fault htokens]
      simp
    | ok ts =>
      by_cases hbeyond : ∃ token ∈ ts, token.lexeme.IsBeyond
      · rw [tokens_of_beyond htokens hbeyond]
        refine iff_of_false (by simp [Response.error]) ?_
        rintro ⟨_, ⟨⟩, hrange⟩
        obtain ⟨token, htoken, hlexeme⟩ := hbeyond
        exact hrange token htoken hlexeme
      · push Not at hbeyond
        obtain ⟨js, -, hanswer⟩ := tokens_of_ok htokens hbeyond
        rw [hanswer]
        exact iff_of_true rfl ⟨ts, rfl, hbeyond⟩
  · obtain ⟨problem, u, rfl⟩ := hfault f hf
    exact ⟨problem, u, rfl, tokens_of_fault hf⟩

/-- A float, a byte that starts no token and a one with 309 zeros, each in a document. -/
theorem tokens_answered_digits :
    let s := plain .initial (text "dev") .none []
    let m : Moment := ⟨.bare, text "1", ⟨2024, 1, 1, 0, 0, 0, 0, 0⟩, 0, Occasion.ample⟩
    let r (source : Bytes) : Request := ⟨text "POST", text "/api/tokens", text "application/json",
      text "\x7b\"source\": \"" ++ source ++ text "\"\x7d"⟩
    let wide : Bytes := 49 :: List.replicate 309 48
    (∃ js, (s.handle m (r (text "2.5"))).1 = ⟨200, .json (.list js)⟩) ∧
      (s.handle m (r (text "$"))).1.status = 422 ∧
      (∃ ts, tokenize wide = .ok ts) ∧
      (s.handle m (r wide)).1 = .error 500 (text "json: unsupported value: +Inf") := by
  intro s m r wide
  have hasks {source : Bytes} (hroute : Route.find? (r source).target.1 = some .tokens)
      (htask : (task false (r source)).toOption.map Task.source = some source) :
      (r source).AsksTokens source := by
    refine ⟨rfl, hroute, ?_⟩
    cases hok : task false (r source) with
    | error response =>
      rw [hok] at htask
      cases htask
    | ok t =>
      rw [hok] at htask
      exact ⟨t, rfl, Option.some.inj htask⟩
  refine ⟨?_, ?_, ?_⟩
  · have hfloat : IsFloat (text "2.5") (text "2") (text "5") :=
      ⟨by decide, by decide, by decide, by decide +kernel⟩
    have hstart : StartsWithDigit (text "2.5") := ⟨50, by decide, by decide⟩
    have hparts : ∀ b ∈ text "2.5", Byte.isNumberPart b = true := List.all_eq_true.mp (by decide)
    have hok := tokenize_numeral hstart hparts (hfloat.number hstart hparts)
    obtain ⟨-, -, -, hanswer⟩ := (tokens_answered s m).2 (r (text "2.5")) (text "2.5")
      (hasks (by decide +kernel) (by decide +kernel))
    have hpoint : ¬Lexeme.IsBeyond (.float (text "2.5") (fractionValue (text "2") (text "5"))) := by
      rintro ⟨_, _, ⟨⟩, hnone, -⟩
      exact hnone (by decide)
    obtain ⟨js, -, hjs⟩ := (hanswer _ hok).1
      (List.forall_mem_cons.mpr ⟨hpoint, List.forall_mem_singleton.mpr nofun⟩)
    exact ⟨js, hjs⟩
  · obtain ⟨-, -, hfault, -⟩ := (tokens_answered s m).2 (r (text "$")) (text "$")
      (hasks (by decide +kernel) (by decide +kernel))
    have hf : tokenize (text "$") = .error (.lex (.unexpectedByte 36) ⟨1, 1⟩) := by
      with_unfolding_all rfl
    obtain ⟨_, _, -, hanswer⟩ := hfault _ hf
    rw [hanswer]
  · obtain ⟨_, _, -, -, -, hl⟩ := isNumeral_infinity
    have hok := tokenize_numeral (r := wide) ⟨49, rfl, by decide⟩
      (List.all_eq_true.mp (by decide +kernel)) hl
    obtain ⟨-, -, -, hanswer⟩ := (tokens_answered s m).2 (r wide) wide
      (hasks (by decide +kernel) (by decide +kernel))
    have hbeyond : Lexeme.IsBeyond (.float wide .infinity) :=
      ⟨wide, _, rfl, by decide +kernel, by decide +kernel⟩
    exact ⟨⟨_, hok⟩, (hanswer _ hok).2 ⟨_, List.mem_cons_self, hbeyond⟩⟩

end Service

end Scriptlet

/-
  Scriptlet.Proofs.Json.Reading

  The text of a document is read back, whatever stands behind it.

  Strings are the hard part. What `renderText` writes is put together from bytes
  that stand for themselves and from escapes, and each of these is read by itself:
  `Spells raw out` says that `raw` neither closes a string nor reaches into what
  follows, and that it is read as `out`. From there a string, a number, an object
  of such fields and a list of what can be read are read where they end
  (`Reads.object`, `Reads.list`).
-/
import Scriptlet.Json.Parser
import Scriptlet.Proofs.Number.Decimal
import Mathlib.Data.List.TakeWhile

namespace Scriptlet

/-! ## Characters -/

/-- Beyond ASCII every byte of a character is beyond ASCII. -/
theorem Utf8.le_of_mem_encode {code : Nat} (hcode : 0x80 ≤ code) {b : UInt8}
    (hb : b ∈ Utf8.encode code) : 0x80 ≤ b.toNat := by
  unfold Utf8.encode at hb
  have hfar : ¬ code < 0x80 := by omega
  rw [if_neg hfar] at hb
  split at hb
  · rcases List.mem_pair.mp hb with rfl | rfl <;> rw [UInt8.toNat_ofNat'] <;> omega
  split at hb
  · simp only [List.mem_cons, List.not_mem_nil, or_false] at hb
    rcases hb with rfl | rfl | rfl <;> decide
  split at hb
  · simp only [List.mem_cons, List.not_mem_nil, or_false] at hb
    rcases hb with rfl | rfl | rfl <;> rw [UInt8.toNat_ofNat'] <;> omega
  · rename_i hvalid _
    -- Nothing above the last character is encoded, so the first byte does not overflow.
    have hlast : code < 0x110000 := by
      simp only [Bool.or_eq_true, decide_eq_true_eq] at hvalid
      omega
    simp only [List.mem_cons, List.not_mem_nil, or_false] at hb
    rcases hb with rfl | rfl | rfl | rfl <;> rw [UInt8.toNat_ofNat'] <;> omega

namespace Json

/-! ## Strings -/

/-- A part of a string is read as `out`: it does not close the string, and what
    follows is read as it would be by itself. -/
structure Spells (raw out : Bytes) : Prop where
  closes : ∀ rest, closing (raw ++ rest) = (closing rest).map fun s => (raw ++ s.1, s.2)
  reads : ∃ es, (∀ rest, elements (raw ++ rest) = (elements rest).map (es ++ ·)) ∧
    ∀ more, assemble (es ++ more) = out ++ assemble more

namespace Spells

variable {raw raw' out out' : Bytes} {b : UInt8}

theorem nil : Spells [] [] where
  closes rest := by simp
  reads := ⟨[], fun rest => by simp, fun more => rfl⟩

theorem append (h : Spells raw out) (h' : Spells raw' out') :
    Spells (raw ++ raw') (out ++ out') where
  closes rest := by
    rw [List.append_assoc, h.closes, h'.closes, Option.map_map]
    congr 1
    funext s
    simp
  reads := by
    obtain ⟨es, hes, hout⟩ := h.reads
    obtain ⟨es', hes', hout'⟩ := h'.reads
    refine ⟨es ++ es', fun rest => ?_, fun more => ?_⟩
    · rw [List.append_assoc, hes, hes', Option.map_map]
      congr 1
      funext more
      simp
    · rw [List.append_assoc, hout, hout', List.append_assoc]

theorem flatMap {α : Type} {f g : α → Bytes} {xs : List α} (h : ∀ x ∈ xs, Spells (f x) (g x)) :
    Spells (xs.flatMap f) (xs.flatMap g) := by
  induction xs with
  | nil => exact .nil
  | cons x xs ih =>
    rw [List.flatMap_cons, List.flatMap_cons]
    have hrest := ih fun y hy => h y (List.mem_cons_of_mem x hy)
    exact (h x List.mem_cons_self).append hrest

/-- A byte that is no control character, no quote and no backslash stands for
    itself. -/
theorem byte (hcontrol : 32 ≤ b.toNat) (hquote : b ≠ 34) (hslash : b ≠ 92) : Spells [b] [b] where
  closes rest := by
    rw [List.singleton_append, closing]
    · rfl
    · exact hquote
    · rintro c more rfl
      exact absurd rfl hslash
  reads := by
    refine ⟨[.byte b], fun rest => ?_, fun more => rfl⟩
    -- What is no control character is compared as a byte here, not as a number.
    have hplain : (b < 32 || b == 92) = false := by
      have hlarge : ¬ b < 32 := by
        rw [UInt8.lt_iff_toNat_lt]
        exact Nat.not_lt_of_le hcontrol
      simp [hlarge, hslash]
    rw [List.singleton_append, elements, if_neg (ne_true_of_eq_false hplain)]
    · rfl
    · rintro x₁ x₂ x₃ x₄ more rfl
      exact absurd rfl hslash
    · rintro c more rfl
      exact absurd rfl hslash

/-- A letter behind a backslash stands for its character. -/
theorem letter {l c : UInt8} (h : ofLetter? l = some c) : Spells [92, l] [c] where
  closes rest := by
    rw [List.cons_append, List.singleton_append, closing]
    rfl
  reads := by
    refine ⟨[.byte c], fun rest => ?_, fun more => rfl⟩
    rw [List.cons_append, List.singleton_append, elements, h]
    · cases elements rest <;> rfl
    · rintro x₁ x₂ x₃ x₄ more rfl
      cases h

theorem hexDigit {n : Nat} (h : hexDigit? b = some n) : Spells [b] [b] := by
  -- Digits and letters are all above the quote, and the backslash is no digit.
  have hlarge : 48 ≤ b.toNat := by
    unfold hexDigit? at h
    simp only [Bytes.isDigit, Bool.and_eq_true, decide_eq_true_eq, UInt8.le_iff_toNat_le] at h
    split at h
    · rename_i hdigit
      exact hdigit.1
    split at h
    · rename_i hletter
      exact Nat.le_trans (by decide) hletter.1
    split at h
    · rename_i hletter
      exact Nat.le_trans (by decide) hletter.1
    · cases h
  refine byte (Nat.le_trans (by decide) hlarge) ?_ ?_
  · rintro rfl
    exact absurd hlarge (by decide)
  · rintro rfl
    have hnone : hexDigit? 92 = none := by decide
    rw [hnone] at h
    cases h

theorem digits_of_hex4? {x₁ x₂ x₃ x₄ : UInt8} {n : Nat} (h : hex4? x₁ x₂ x₃ x₄ = some n) :
    Spells [x₁] [x₁] ∧ Spells [x₂] [x₂] ∧ Spells [x₃] [x₃] ∧ Spells [x₄] [x₄] := by
  simp only [hex4?, Option.bind_eq_bind, Option.bind_eq_some_iff] at h
  obtain ⟨n₁, h₁, n₂, h₂, n₃, h₃, n₄, h₄, -⟩ := h
  exact ⟨hexDigit h₁, hexDigit h₂, hexDigit h₃, hexDigit h₄⟩

/-- An escape by number is read as its character, unless it is half of a pair. -/
theorem hex {x₁ x₂ x₃ x₄ : UInt8} {n : Nat} (h : hex4? x₁ x₂ x₃ x₄ = some n)
    (hlow : isHighSurrogate n = false) :
    Spells [92, 117, x₁, x₂, x₃, x₄] (Utf8.encode n) where
  closes rest := by
    obtain ⟨hx₁, hx₂, hx₃, hx₄⟩ := digits_of_hex4? h
    have hdigits := ((hx₁.append hx₂).append (hx₃.append hx₄)).closes rest
    simp only [List.cons_append, List.nil_append] at hdigits ⊢
    rw [closing, hdigits, Option.map_map]
    rfl
  reads := by
    refine ⟨[.codeUnit n], fun rest => ?_, fun more => ?_⟩
    · simp only [List.cons_append, List.nil_append, elements, h]
      cases elements rest <;> rfl
    · -- Only the first half of a pair looks at what follows it.
      cases more with
      | nil => simp [assemble]
      | cons e more =>
        cases e with
        | byte b => rfl
        | codeUnit low =>
          simp [assemble, hlow]

/-- A part of a string that is closed behind it. -/
theorem stringBody (h : Spells raw out) (rest : Bytes) :
    stringBody (raw ++ 34 :: rest) = some (Utf8.repair out, rest) := by
  obtain ⟨es, hes, hout⟩ := h.reads
  have hclosing : closing (raw ++ 34 :: rest) = some (raw, rest) := by
    rw [h.closes, closing]
    simp
  -- A part that is read in front of anything is read in front of nothing.
  have helements : elements raw = some es := by
    have hend := hes []
    simpa [elements] using hend
  have hassemble : assemble es = out := by
    have hend := hout []
    simpa [assemble] using hend
  simp [Json.stringBody, hclosing, helements, hassemble]

end Spells

/-- Whether the escape by number of a character is read as this character. -/
def readsEscape (code : Nat) : Bool :=
  match text "\\u" ++ Bytes.hex 4 code with
  | [92, 117, x₁, x₂, x₃, x₄] => hex4? x₁ x₂ x₃ x₄ == some code && !isHighSurrogate code
  | _ => false

/-- The characters that are escaped by number. -/
def numbered : List Nat := List.range 32 ++ [0x3C, 0x3E, 0x26, 0x2028, 0x2029]

theorem readsEscape_of_numbered {code : Nat} (h : code ∈ numbered) : readsEscape code = true := by
  have hall : numbered.all readsEscape = true := by decide +kernel
  exact List.all_eq_true.mp hall code h

theorem spells_numbered {code : Nat} (h : code ∈ numbered) :
    Spells (text "\\u" ++ Bytes.hex 4 code) (Utf8.encode code) := by
  have hreads := readsEscape_of_numbered h
  unfold readsEscape at hreads
  split at hreads
  · rename_i heq
    simp only [Bool.and_eq_true, beq_iff_eq, Bool.not_eq_true'] at hreads
    rw [heq]
    exact .hex hreads.1 hreads.2
  · cases hreads

/-- A character that is not escaped stands for itself. -/
theorem spells_encode (code : Nat) (hcontrol : 32 ≤ code) (hquote : code ≠ 34)
    (hslash : code ≠ 92) : Spells (Utf8.encode code) (Utf8.encode code) := by
  have hbytes : ∀ b ∈ Utf8.encode code, Spells [b] [b] := by
    intro b hb
    by_cases hascii : code < 0x80
    · rw [Utf8.encode, if_pos hascii, List.mem_singleton] at hb
      subst hb
      have hb : (UInt8.ofNat code).toNat = code := by
        rw [UInt8.toNat_ofNat']
        omega
      refine .byte (by omega) ?_ ?_
      · intro heq
        rw [heq] at hb
        exact hquote hb.symm
      · intro heq
        rw [heq] at hb
        exact hslash hb.symm
    · have hlarge := Utf8.le_of_mem_encode (Nat.le_of_not_lt hascii) hb
      refine .byte (Nat.le_trans (by decide) hlarge) ?_ ?_
      · rintro rfl
        exact absurd hlarge (by decide)
      · rintro rfl
        exact absurd hlarge (by decide)
  have hall := Spells.flatMap hbytes
  rwa [List.flatMap_singleton'] at hall

theorem spells_escapeChar (code : Nat) : Spells (escapeChar code) (Utf8.encode code) := by
  unfold escapeChar
  split
  · rename_i hmark
    simp only [Bool.or_eq_true, beq_iff_eq] at hmark
    rcases hmark with rfl | rfl
    · exact .letter rfl
    · exact .letter rfl
  rename_i hmark
  split
  · rename_i l hletter
    unfold letter? at hletter
    split at hletter <;> cases hletter <;> exact .letter rfl
  rename_i hletter
  split
  · rename_i hcode
    apply spells_numbered
    simp only [Bool.or_eq_true, decide_eq_true_eq, beq_iff_eq] at hcode
    simp only [numbered, List.mem_append, List.mem_range, List.mem_cons, List.not_mem_nil]
    omega
  · rename_i hcode
    simp only [Bool.or_eq_true, decide_eq_true_eq, beq_iff_eq] at hcode hmark
    exact spells_encode code (by omega) (by omega) (by omega)

/-- What a piece of text is read as: a stray byte is lost. -/
def restored : Utf8.Piece → Bytes
  | .char code _ => Utf8.encode code
  | .stray _ => Utf8.replacement

/-- What a text is read as. -/
def reread (s : Bytes) : Bytes := Utf8.repair ((Utf8.pieces s).flatMap restored)

theorem spells_escapePiece (p : Utf8.Piece) : Spells (escapePiece p) (restored p) := by
  cases p with
  | char code bytes => exact spells_escapeChar code
  | stray b => exact spells_encode 0xFFFD (by decide) (by decide) (by decide)

/-- A text is read back from between its quotes. -/
theorem stringBody_escape (s rest : Bytes) :
    stringBody ((Utf8.pieces s).flatMap escapePiece ++ 34 :: rest) = some (reread s, rest) :=
  (Spells.flatMap fun p _ => spells_escapePiece p).stringBody rest

/-! ## Numbers -/

/-- What follows a number: no digit, and nothing that goes on with a fraction or an
    exponent. -/
def endsNumber (rest : Bytes) : Bool :=
  match rest with
  | [] => true
  | b :: _ => !(Bytes.isDigit b || b == 46 || b == 101 || b == 69)

/-- No digit comes next. -/
def NoDigit (rest : Bytes) : Prop := ∀ b, rest.head? = some b → Bytes.isDigit b = false

theorem noDigit_of_endsNumber {rest : Bytes} (h : endsNumber rest = true) : NoDigit rest := by
  intro b hb
  cases rest with
  | nil => cases hb
  | cons c rest =>
    cases hb
    simp only [endsNumber, Bool.not_eq_true', Bool.or_eq_false_iff] at h
    exact h.1.1.1

theorem digits_append {ds rest : Bytes} (hds : ∀ d ∈ ds, Bytes.isDigit d = true)
    (hrest : NoDigit rest) : digits (ds ++ rest) = (ds, rest) := by
  have hstop : rest.takeWhile Bytes.isDigit = [] ∧ rest.dropWhile Bytes.isDigit = rest := by
    cases rest with
    | nil => exact ⟨rfl, rfl⟩
    | cons b rest =>
      have hb : ¬ Bytes.isDigit b = true := by simp [hrest b rfl]
      exact ⟨List.takeWhile_cons_of_neg hb, List.dropWhile_cons_of_neg hb⟩
  rw [digits, List.takeWhile_append_of_pos hds, List.dropWhile_append_of_pos hds, hstop.1, hstop.2,
    List.append_nil]

/-- Only the numeral of zero starts with a zero. -/
theorem head?_ofNat_ne {n : Nat} (h : 0 < n) : (Bytes.ofNat n).head? ≠ some 48 := by
  fun_induction Bytes.ofNat n with
  | case1 n hn =>
    -- A single digit of zero is the number zero.
    intro hhead
    have hdigit : Bytes.digit n = 48 := by simpa using hhead
    have hvalue := congrArg UInt8.toNat hdigit
    rw [Bytes.toNat_digit hn] at hvalue
    have hzero : (48 : UInt8).toNat = 48 := rfl
    omega
  | case2 n hn ih =>
    rw [List.head?_append_of_ne_nil _ (Bytes.ofNat_ne_nil _)]
    exact ih (by omega)

theorem wholePart_ofNat (taken : Bytes) (n : Nat) {rest : Bytes} (hrest : endsNumber rest = true) :
    wholePart taken (Bytes.ofNat n ++ rest) = some (taken ++ Bytes.ofNat n, rest) := by
  by_cases hn : n = 0
  · subst hn
    have hzero : Bytes.ofNat 0 = [48] := by
      rw [Bytes.ofNat, if_pos (by decide)]
      rfl
    rw [hzero]
    rfl
  · -- A zero in front would be taken as the whole part by itself.
    have hhead := head?_ofNat_ne (Nat.pos_of_ne_zero hn)
    rw [wholePart]
    · rw [someDigits, digits_append (fun d hd => Bytes.isDigit_of_mem_ofNat hd)
        (noDigit_of_endsNumber hrest)]
      simp [Bytes.ofNat_ne_nil]
    · intro more hmore
      rw [← List.head?_append_of_ne_nil _ (Bytes.ofNat_ne_nil n), hmore] at hhead
      exact hhead rfl

theorem fractionPart_of_endsNumber (taken : Bytes) {rest : Bytes} (hrest : endsNumber rest = true) :
    fractionPart taken rest = some (taken, rest) := by
  rw [fractionPart]
  rintro more rfl
  cases hrest

theorem exponentPart_of_endsNumber (taken : Bytes) {rest : Bytes} (hrest : endsNumber rest = true) :
    exponentPart taken rest = some (taken, rest) := by
  cases rest with
  | nil => rfl
  | cons b rest =>
    have hb : (b == 101 || b == 69) = false := by
      simp only [endsNumber, Bool.not_eq_true', Bool.or_eq_false_iff] at hrest
      simp [hrest.1.2, hrest.2]
    unfold exponentPart
    exact if_neg (ne_true_of_eq_false hb)

/-- The numeral of an integer is read where it ends. -/
theorem numeral_ofInt (n : Int) {rest : Bytes} (hrest : endsNumber rest = true) :
    numeral (Bytes.ofInt n ++ rest) = some (Bytes.ofInt n, rest) := by
  by_cases hn : n < 0
  · simp [numeral, Bytes.ofInt, if_pos hn, wholePart_ofNat _ _ hrest,
      fractionPart_of_endsNumber _ hrest, exponentPart_of_endsNumber _ hrest]
  · rw [Bytes.ofInt, if_neg hn, numeral]
    · simp [wholePart_ofNat _ _ hrest, fractionPart_of_endsNumber _ hrest,
        exponentPart_of_endsNumber _ hrest]
    · intro more hmore
      -- Without a sign, the first byte is a digit.
      have hminus : (45 : UInt8) ∈ Bytes.ofNat n.natAbs := by
        have hhead := congrArg List.head? hmore
        rw [List.head?_append_of_ne_nil _ (Bytes.ofNat_ne_nil _)] at hhead
        exact List.mem_of_head? hhead
      exact absurd (Bytes.isDigit_of_mem_ofNat hminus) (by decide)

/-! ## Documents -/

/-- A text is read as a document wherever it stands, `levels` further levels and a
    measure of `need` being left: the reading ends where the text does. -/
def Reads (levels need : Nat) (raw : Bytes) (j : Json) : Prop :=
  ∀ fuel depth rest, need ≤ fuel → depth + levels ≤ maxDepth → endsNumber rest = true →
    value fuel depth (raw ++ rest) = some (j, rest)

theorem skipBlanks_cons {b : UInt8} (hb : isBlank b = false) (rest : Bytes) :
    skipBlanks (b :: rest) = b :: rest :=
  List.dropWhile_cons_of_neg (ne_true_of_eq_false hb)

/-- Blanks in front of a document are nothing. -/
theorem value_congr {bs cs : Bytes} (h : skipBlanks bs = skipBlanks cs) (fuel depth : Nat) :
    value fuel depth bs = value fuel depth cs := by
  cases fuel with
  | zero => rw [value, value]
  | succ fuel => rw [value, value, h]

/-- A list whose items can be read is read: none of them starts with the bracket
    that closes it. -/
theorem value_list {fuel depth : Nat} {bs rest : Bytes} {js : List Json} (hdepth : depth < maxDepth)
    (h : items fuel (depth + 1) bs = some (js, rest)) :
    value (fuel + 1) depth (91 :: bs) = some (.list js, rest) := by
  -- A bracket there would have to be the start of the first item.
  have hitem : ∀ more, skipBlanks bs = 93 :: more → False := by
    intro more hmore
    obtain _ | fuel := fuel
    · rw [items] at h
      cases h
    · -- No document starts with it.
      have hnone : value fuel (depth + 1) bs = none := by
        obtain _ | fuel := fuel
        · rw [value]
        · rw [value, hmore]
          rfl
      rw [items, hnone] at h
      cases h
  have hroom : ¬ maxDepth ≤ depth := by omega
  rw [value, skipBlanks_cons (by decide)]
  have hmark : ((91 : UInt8) == 34) = false := by decide
  simp only [hmark, Bool.false_eq_true, if_false, beq_self_eq_true, if_true, if_neg hroom, h]
  rfl

/-- An object whose fields can be read is read: none of them starts with the brace
    that closes it. -/
theorem value_object {fuel depth : Nat} {bs rest : Bytes} {fs : List (Bytes × Json)}
    (hdepth : depth < maxDepth) (h : fields fuel (depth + 1) bs = some (fs, rest)) :
    value (fuel + 1) depth (123 :: bs) = some (.object fs, rest) := by
  -- A brace there would have to be the start of the first key.
  have hfield : ∀ more, skipBlanks bs = 125 :: more → False := by
    intro more hmore
    obtain _ | fuel := fuel
    · rw [fields] at h
      cases h
    · have hnone : fieldKey bs = none := by
        rw [fieldKey, hmore]
        rfl
      rw [fields, hnone] at h
      cases h
  have hroom : ¬ maxDepth ≤ depth := by omega
  rw [value, skipBlanks_cons (by decide)]
  have hmarks : ((123 : UInt8) == 34) = false ∧ ((123 : UInt8) == 91) = false := by decide
  simp only [hmarks.1, hmarks.2, Bool.false_eq_true, if_false, beq_self_eq_true, if_true,
    if_neg hroom, h]
  rfl

theorem Reads.mono {levels need need' : Nat} {raw : Bytes} {j : Json} (h : Reads levels need raw j)
    (hle : need ≤ need') : Reads levels need' raw j :=
  fun fuel depth rest hfuel => h fuel depth rest (Nat.le_trans hle hfuel)

theorem Reads.str (s : Bytes) : Reads 0 1 (render (.str s)) (.str (reread s)) := by
  intro fuel depth rest hfuel _ _
  obtain ⟨fuel, rfl⟩ := Nat.exists_eq_succ_of_ne_zero (by omega : fuel ≠ 0)
  have hbody := stringBody_escape s rest
  rw [render, renderText, List.cons_append, List.cons_append, List.append_assoc,
    List.singleton_append, value, skipBlanks_cons (by decide)]
  simp [hbody]

theorem ofInt_eq_cons (n : Int) :
    ∃ b ds, Bytes.ofInt n = b :: ds ∧ 45 ≤ b.toNat ∧ b.toNat ≤ 57 := by
  by_cases hn : n < 0
  · exact ⟨45, _, by rw [Bytes.ofInt, if_pos hn], by decide, by decide⟩
  · obtain ⟨d, ds, hds⟩ := List.exists_cons_of_ne_nil (Bytes.ofNat_ne_nil n.natAbs)
    have hdigit : Bytes.isDigit d = true :=
      Bytes.isDigit_of_mem_ofNat (n := n.natAbs) (hds ▸ List.mem_cons_self)
    rw [Bytes.isDigit_iff] at hdigit
    exact ⟨d, ds, by rw [Bytes.ofInt, if_neg hn, hds], by omega, by omega⟩

theorem Reads.ofInt (n : Int) : Reads 0 1 (render (.ofInt n)) (.ofInt n) := by
  intro fuel depth rest hfuel _ hrest
  obtain ⟨fuel, rfl⟩ := Nat.exists_eq_succ_of_ne_zero (by omega : fuel ≠ 0)
  obtain ⟨b, ds, hds, hlow, hhigh⟩ := ofInt_eq_cons n
  -- The first byte says that it is a number.
  have hother : ∀ c : UInt8, c.toNat < 45 ∨ 57 < c.toNat → (b == c) = false := by
    intro c hc
    rw [beq_eq_false_iff_ne]
    rintro rfl
    omega
  have hblank : isBlank b = false := by
    simp [isBlank, hother 32 (by decide), hother 9 (by decide), hother 10 (by decide),
      hother 13 (by decide)]
  have hnumeral := numeral_ofInt n hrest
  rw [Json.ofInt, render, hds, List.cons_append] at *
  rw [value, skipBlanks_cons hblank]
  simp [hnumeral, hother 34 (by decide), hother 91 (by decide), hother 123 (by decide),
    hother 116 (by decide), hother 102 (by decide), hother 110 (by decide)]

/-- What a text or a number is read as. -/
def rereadScalar : Json → Json
  | .str s => .str (reread s)
  | j => j

@[simp]
theorem length_renderFields (fs : List (Bytes × Json)) : (renderFields fs).length = fs.length := by
  induction fs with
  | nil => rfl
  | cons f fs ih => rw [renderFields, List.length_cons, List.length_cons, ih]

theorem fieldKey_renderText (key rest : Bytes) :
    fieldKey (renderText key ++ 58 :: rest) = some (reread key, rest) := by
  have hbody := stringBody_escape key (58 :: rest)
  rw [renderText, List.cons_append, List.cons_append, List.append_assoc,
    List.singleton_append, fieldKey, skipBlanks_cons (by decide)]
  simp [hbody, skipBlanks_cons (b := 58) (by decide)]

/-- The fields of an object are read one by one. -/
theorem fields_render {levels need : Nat} {fs gs : List (Bytes × Json)}
    (h : List.Forall₂ (fun f g => g.1 = reread f.1 ∧ Reads levels need f.2.render g.2) fs gs)
    (hne : fs ≠ []) {fuel depth : Nat} (hfuel : need + fs.length ≤ fuel)
    (hdepth : depth + levels ≤ maxDepth) (rest : Bytes) :
    fields fuel depth (Bytes.join (text ",") (renderFields fs) ++ 125 :: rest) =
      some (gs, rest) := by
  induction h generalizing fuel with
  | nil => exact absurd rfl hne
  | @cons f g fs gs hfield hfields ih =>
    obtain ⟨key, j⟩ := f
    obtain ⟨key', j'⟩ := g
    obtain ⟨rfl, hreads⟩ := hfield
    simp only [List.length_cons] at hfuel
    obtain ⟨fuel, rfl⟩ := Nat.exists_eq_succ_of_ne_zero (by omega : fuel ≠ 0)
    have hcolon : text ":" = [58] := by decide
    have hcomma : text "," = [44] := by decide
    cases hfields with
    -- The last field is read up to the brace.
    | nil =>
      have hvalue := hreads fuel depth (125 :: rest) (by omega) hdepth rfl
      have hjoin : Bytes.join (text ",") (renderFields [(key, j)]) ++ 125 :: rest =
          renderText key ++ 58 :: (j.render ++ 125 :: rest) := by
        simp [renderFields, Bytes.join, hcolon]
      simp only [hjoin, fields, fieldKey_renderText, hvalue]
      rfl
    -- Any other is read up to the comma, and the rest by induction.
    | @cons f₂ g₂ fs gs hfield hfields =>
      have hroom : need + (f₂ :: fs).length ≤ fuel := by omega
      have hmore := ih (List.cons_ne_nil f₂ fs) hroom
      let others := Bytes.join (text ",") (renderFields (f₂ :: fs)) ++ 125 :: rest
      have hvalue := hreads fuel depth (44 :: others) (by omega) hdepth rfl
      have hjoin : Bytes.join (text ",") (renderFields ((key, j) :: f₂ :: fs)) ++ 125 :: rest =
          renderText key ++ 58 :: (j.render ++ 44 :: others) := by
        simp only [others, renderFields, Bytes.join, List.intercalate_cons_cons, hcolon, hcomma]
        simp
      simp only [hjoin, fields, fieldKey_renderText, hvalue]
      rw [skipBlanks_cons (by decide)]
      simp [others, hmore]

theorem Reads.object {levels need : Nat} {fs gs : List (Bytes × Json)}
    (h : List.Forall₂ (fun f g => g.1 = reread f.1 ∧ Reads levels need f.2.render g.2) fs gs)
    (hne : fs ≠ []) :
    Reads (levels + 1) (need + fs.length + 1) (render (.object fs)) (.object gs) := by
  intro fuel depth rest hfuel hdepth _
  obtain ⟨fuel, rfl⟩ := Nat.exists_eq_succ_of_ne_zero (by omega : fuel ≠ 0)
  have hroom : need + fs.length ≤ fuel := by omega
  have hinside : depth + 1 + levels ≤ maxDepth := by omega
  have hfields := fields_render h hne hroom hinside rest
  have hopen : text "\x7b" = [123] := by decide
  have hclose : text "\x7d" = [125] := by decide
  rw [render, hopen, hclose, List.append_assoc, List.append_assoc, List.singleton_append,
    List.singleton_append]
  exact value_object (by omega) hfields

theorem skipBlanks_append {gap : Bytes} (hgap : ∀ b ∈ gap, isBlank b = true) (rest : Bytes) :
    skipBlanks (gap ++ rest) = skipBlanks rest :=
  List.dropWhile_append_of_pos hgap

/-- The items of a list are read one by one; blanks may stand around them. -/
theorem items_join {levels need : Nat} {raws : List Bytes} {js : List Json} {gap : Bytes}
    (h : List.Forall₂ (Reads levels need) raws js) (hne : raws ≠ [])
    (hgap : ∀ b ∈ gap, isBlank b = true) {fuel depth : Nat} (hfuel : need + raws.length ≤ fuel)
    (hdepth : depth + levels ≤ maxDepth) (rest : Bytes) :
    items fuel depth (gap ++ (Bytes.join (44 :: gap) raws ++ 10 :: 93 :: rest)) =
      some (js, rest) := by
  induction h generalizing fuel with
  | nil => exact absurd rfl hne
  | @cons raw j raws js hreads hrest ih =>
    simp only [List.length_cons] at hfuel
    obtain ⟨fuel, rfl⟩ := Nat.exists_eq_succ_of_ne_zero (by omega : fuel ≠ 0)
    -- The value in front of `tail`, whatever blanks are before it.
    have hvalue : ∀ tail, endsNumber tail = true →
        value fuel depth (gap ++ (raw ++ tail)) = some (j, tail) := by
      intro tail htail
      rw [value_congr (skipBlanks_append hgap _)]
      exact hreads fuel depth tail (by omega) hdepth htail
    cases hrest with
    | nil =>
      rw [Bytes.join, List.intercalate_singleton]
      simp only [items, hvalue (10 :: 93 :: rest) rfl]
      rfl
    | @cons raw₂ j₂ raws js hreads₂ hrest =>
      have hroom : need + (raw₂ :: raws).length ≤ fuel := by omega
      have hmore := ih (List.cons_ne_nil raw₂ raws) hroom
      let others := gap ++ (Bytes.join (44 :: gap) (raw₂ :: raws) ++ 10 :: 93 :: rest)
      have hjoin : Bytes.join (44 :: gap) (raw :: raw₂ :: raws) ++ 10 :: 93 :: rest =
          raw ++ 44 :: others := by
        simp [others, Bytes.join]
      rw [hjoin]
      simp only [items, hvalue (44 :: others) rfl]
      rw [skipBlanks_cons (by decide)]
      simp [others, hmore]

theorem Reads.list {levels need : Nat} {raws : List Bytes} {js : List Json} {gap : Bytes}
    (h : List.Forall₂ (Reads levels need) raws js) (hne : raws ≠ [])
    (hgap : ∀ b ∈ gap, isBlank b = true) :
    Reads (levels + 1) (need + raws.length + 1)
      (91 :: (gap ++ Bytes.join (44 :: gap) raws ++ [10, 93])) (.list js) := by
  intro fuel depth rest hfuel hdepth _
  obtain ⟨fuel, rfl⟩ := Nat.exists_eq_succ_of_ne_zero (by omega : fuel ≠ 0)
  have hroom : need + raws.length ≤ fuel := by omega
  have hinside : depth + 1 + levels ≤ maxDepth := by omega
  have hitems := items_join h hne hgap hroom hinside rest
  rw [List.cons_append, List.append_assoc, List.append_assoc]
  exact value_list (by omega) hitems

/-- White space does not go on with a number. -/
theorem endsNumber_blanks {gap : Bytes} (hgap : ∀ b ∈ gap, isBlank b = true) {rest : Bytes}
    (hrest : endsNumber rest = true) : endsNumber (gap ++ rest) = true := by
  cases gap with
  | nil => exact hrest
  | cons b gap =>
    -- White space is one of four bytes, and no number goes on with one of them.
    have hb := hgap b List.mem_cons_self
    simp only [isBlank, Bool.or_eq_true, beq_iff_eq] at hb
    rcases hb with ((rfl | rfl) | rfl) | rfl <;> rfl

/-- A text with blanks behind it is the text of a document. -/
theorem Reads.parse {levels need : Nat} {raw rest : Bytes} {j : Json} (h : Reads levels need raw j)
    (hlevels : levels ≤ maxDepth) (hneed : need ≤ 2 * (raw ++ rest).length + 2)
    (hrest : ∀ b ∈ rest, isBlank b = true) : parse (raw ++ rest) = some j := by
  have hends : endsNumber rest = true := by
    simpa using endsNumber_blanks hrest (show endsNumber [] = true from rfl)
  have hend : skipBlanks rest = [] := List.dropWhile_eq_nil_iff.mpr hrest
  rw [Json.parse, h _ 0 rest hneed (by omega) hends]
  simp [hend]

end Json

end Scriptlet

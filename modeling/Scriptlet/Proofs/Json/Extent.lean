/-
  Scriptlet.Proofs.Json.Extent

  What a reading takes of a text.

  A document is read from the start of a text and ends at a byte that tells so, except
  for a number, which ends where something else follows. So the part that was taken is
  read in the same way in front of anything that does not go on with a number, and with
  any measure that its length bounds (`ReadsAt`); its last byte is never white space
  (`endsDocument`). Lists and objects are made of documents, so this is one induction on
  the measure for the three readers (`Measured`), with one lemma for each. Of the items
  of a list it says more: whatever stands behind the last one goes on from there
  (`ReadsItems`), which is how a list grows at its end.
-/
import Scriptlet.Proofs.Json.Reading

namespace Scriptlet

namespace Json

/-! ## Blanks -/

/-- White space between documents. -/
def Blanks (gap : Bytes) : Prop := ∀ b ∈ gap, isBlank b = true

theorem Blanks.bracket_not_mem {gap : Bytes} (hgap : Blanks gap) : (93 : UInt8) ∉ gap := by
  intro hmem
  exact absurd (hgap 93 hmem) (by decide)

/-- Blanks are skipped up to a byte that is none. -/
theorem exists_of_skipBlanks {bs rest : Bytes} {b : UInt8} (h : skipBlanks bs = b :: rest) :
    ∃ lead, Blanks lead ∧ bs = lead ++ b :: rest ∧ isBlank b = false := by
  refine ⟨bs.takeWhile isBlank, fun c hc => List.mem_takeWhile_imp hc, ?_, ?_⟩
  · rw [← h]
    exact List.takeWhile_append_dropWhile.symm
  · have hhead := List.head?_dropWhile_not isBlank bs
    rw [show bs.dropWhile isBlank = b :: rest from h] at hhead
    simpa using hhead

theorem skipBlanks_gap {gap : Bytes} (hgap : Blanks gap) {b : UInt8} (hb : isBlank b = false)
    (rest : Bytes) : skipBlanks (gap ++ b :: rest) = b :: rest := by
  rw [skipBlanks_append hgap, skipBlanks_cons hb]

/-! ## Numbers -/

/-- The last byte is one of these. -/
def EndsIn (p : UInt8 → Bool) (bs : Bytes) : Prop := ∃ front b, bs = front ++ [b] ∧ p b = true

namespace EndsIn

variable {p q : UInt8 → Bool} {bs : Bytes}

theorem append_left (h : EndsIn p bs) (front : Bytes) : EndsIn p (front ++ bs) := by
  obtain ⟨init, b, rfl, hb⟩ := h
  exact ⟨front ++ init, b, by rw [List.append_assoc], hb⟩

theorem of_all (hne : bs ≠ []) (h : ∀ b ∈ bs, p b = true) : EndsIn p bs :=
  ⟨bs.dropLast, bs.getLast hne, (List.dropLast_append_getLast hne).symm,
    h _ (List.getLast_mem hne)⟩

theorem mono (h : EndsIn p bs) (hpq : ∀ b, p b = true → q b = true) : EndsIn q bs := by
  obtain ⟨init, b, rfl, hb⟩ := h
  exact ⟨init, b, rfl, hpq b hb⟩

theorem ne_nil (h : EndsIn p bs) : bs ≠ [] := by
  obtain ⟨init, b, rfl, -⟩ := h
  simp

end EndsIn

theorem exists_of_someDigits {taken bs t rest : Bytes} (h : someDigits taken bs = some (t, rest)) :
    ∃ ds, ds ≠ [] ∧ (∀ d ∈ ds, Bytes.isDigit d = true) ∧ bs = ds ++ rest ∧ t = taken ++ ds := by
  let ds := bs.takeWhile Bytes.isDigit
  have hread : someDigits taken bs =
      if ds = [] then none else some (taken ++ ds, bs.dropWhile Bytes.isDigit) := by
    simp [someDigits, digits, ds]
  rw [hread] at h
  split at h
  · cases h
  · rename_i hne
    cases h
    exact ⟨ds, hne, fun d hd => List.mem_takeWhile_imp hd,
      List.takeWhile_append_dropWhile.symm, rfl⟩

theorem someDigits_append (taken : Bytes) {ds rest : Bytes} (hne : ds ≠ [])
    (hds : ∀ d ∈ ds, Bytes.isDigit d = true) (hrest : NoDigit rest) :
    someDigits taken (ds ++ rest) = some (taken ++ ds, rest) := by
  simp [someDigits, digits_append hds hrest, hne]

/-- What the whole part of a number takes is read in front of anything but a digit. -/
theorem exists_of_wholePart {taken bs t rest : Bytes} (h : wholePart taken bs = some (t, rest)) :
    ∃ part, EndsIn Bytes.isDigit part ∧ bs = part ++ rest ∧ t = taken ++ part ∧
      ∀ rest', NoDigit rest' → wholePart taken (part ++ rest') = some (taken ++ part, rest') := by
  unfold wholePart at h
  split at h
  · cases h
    exact ⟨[48], ⟨[], 48, rfl, by decide⟩, rfl, rfl, fun rest' _ => rfl⟩
  · rename_i hzero
    obtain ⟨ds, hne, hds, rfl, rfl⟩ := exists_of_someDigits h
    refine ⟨ds, EndsIn.of_all hne hds, rfl, rfl, fun rest' hrest' => ?_⟩
    -- The digits do not start with a zero, in front of whatever they stand.
    rw [wholePart, someDigits_append taken hne hds hrest']
    intro more hmore
    obtain ⟨d, ds, rfl⟩ := List.exists_cons_of_ne_nil hne
    exact hzero _ (by rw [List.cons_append, (List.cons.inj hmore).1])

theorem exists_of_fractionPart {taken bs t rest : Bytes}
    (h : fractionPart taken bs = some (t, rest)) :
    ∃ part, (part = [] ∨ part.head? = some 46 ∧ EndsIn Bytes.isDigit part) ∧ bs = part ++ rest ∧
      t = taken ++ part ∧ ∀ rest', NoDigit rest' → rest'.head? ≠ some 46 →
        fractionPart taken (part ++ rest') = some (taken ++ part, rest') := by
  unfold fractionPart at h
  split at h
  · obtain ⟨ds, hne, hds, rfl, rfl⟩ := exists_of_someDigits h
    refine ⟨46 :: ds, .inr ⟨rfl, (EndsIn.of_all hne hds).append_left [46]⟩, rfl, by simp,
      fun rest' hrest' _ => ?_⟩
    rw [List.cons_append, fractionPart, someDigits_append _ hne hds hrest']
    simp
  · cases h
    -- Nothing was taken; a point behind it would be taken now.
    refine ⟨[], .inl rfl, rfl, by simp, fun rest' _ hpoint => ?_⟩
    rw [List.nil_append, fractionPart, List.append_nil]
    rintro more rfl
    exact hpoint rfl

/-- The digits of an exponent are read behind its letter and its sign, if it has one. -/
theorem exponentPart_digits {b : UInt8} (hmark : (b == 101 || b == 69) = true) {sign : Bytes}
    (hsign : sign = [43] ∨ sign = [45] ∨ sign = []) (taken : Bytes) {ds rest : Bytes}
    (hne : ds ≠ []) (hds : ∀ d ∈ ds, Bytes.isDigit d = true) (hrest : NoDigit rest) :
    exponentPart taken (b :: (sign ++ (ds ++ rest))) =
      some (taken ++ b :: (sign ++ ds), rest) := by
  have hdigits := fun taken => someDigits_append taken hne hds hrest
  rcases hsign with rfl | rfl | rfl
  · simp only [List.cons_append, List.nil_append, exponentPart, if_pos hmark, hdigits]
    simp
  · simp only [List.cons_append, List.nil_append, exponentPart, if_pos hmark, hdigits]
    simp
  · -- The first digit is no sign.
    obtain ⟨d, ds, rfl⟩ := List.exists_cons_of_ne_nil hne
    have hd := hds d List.mem_cons_self
    simp only [List.nil_append, List.cons_append, exponentPart, if_pos hmark] at hdigits ⊢
    split
    · rename_i hplus
      rw [(List.cons.inj hplus).1] at hd
      cases hd
    · rename_i hminus
      rw [(List.cons.inj hminus).1] at hd
      cases hd
    · simp [hdigits]

/-- What the exponent of a number takes, which may be nothing, is read in front of anything that
ends a number. -/
theorem exists_of_exponentPart {taken bs t rest : Bytes}
    (h : exponentPart taken bs = some (t, rest)) :
    ∃ part, (part = [] ∨
      (part.head? = some 101 ∨ part.head? = some 69) ∧ EndsIn Bytes.isDigit part) ∧
      bs = part ++ rest ∧ t = taken ++ part ∧ ∀ rest', endsNumber rest' = true →
        exponentPart taken (part ++ rest') = some (taken ++ part, rest') := by
  have hnothing : ∀ rest', endsNumber rest' = true →
      exponentPart taken ([] ++ rest') = some (taken ++ [], rest') := fun rest' hrest' => by
    rw [List.nil_append, List.append_nil, exponentPart_of_endsNumber _ hrest']
  cases bs with
  | nil =>
    cases h
    exact ⟨[], .inl rfl, rfl, by simp, hnothing⟩
  | cons b bs =>
    simp only [exponentPart] at h
    split at h
    · rename_i hmark
      obtain ⟨sign, more, hsign, rfl, hmore⟩ : ∃ sign more,
          (sign = [43] ∨ sign = [45] ∨ sign = []) ∧ bs = sign ++ more ∧
            someDigits (taken ++ b :: sign) more = some (t, rest) := by
        split at h
        · exact ⟨[43], _, .inl rfl, rfl, h⟩
        · exact ⟨[45], _, .inr (.inl rfl), rfl, h⟩
        · exact ⟨[], _, .inr (.inr rfl), rfl, h⟩
      obtain ⟨ds, hne, hds, rfl, rfl⟩ := exists_of_someDigits hmore
      refine ⟨b :: (sign ++ ds), .inr ⟨by simpa using hmark,
        (EndsIn.of_all hne hds).append_left (b :: sign)⟩, by simp, by simp, fun rest' hrest' => ?_⟩
      simpa using exponentPart_digits hmark hsign taken hne hds (noDigit_of_endsNumber hrest')
    · cases h
      exact ⟨[], .inl rfl, rfl, by simp, hnothing⟩

/-- What stands behind the whole part of a number is no digit, nor is what stands behind
    its fraction. -/
theorem noDigit_part {part rest : Bytes} {b : UInt8} (hb : Bytes.isDigit b = false)
    (hpart : part.head? = some b) : NoDigit (part ++ rest) := by
  intro c hc
  rw [List.head?_append, hpart, Option.some_or, Option.some.injEq] at hc
  rwa [← hc]

/-- The sign of a number, if there is one, and what follows. -/
def signPart (bs : Bytes) : Bytes × Bytes :=
  match bs with
  | 45 :: rest => ([45], rest)
  | _ => ([], bs)

theorem signPart_append (bs : Bytes) : (signPart bs).1 ++ (signPart bs).2 = bs := by
  unfold signPart
  split <;> rfl

/-- The sign is read by its own byte, or by the first of the whole part. -/
theorem signPart_congr {bs whole rest : Bytes} (h : (signPart bs).2 = whole ++ rest)
    (hne : whole ≠ []) (rest' : Bytes) :
    signPart ((signPart bs).1 ++ (whole ++ rest')) = ((signPart bs).1, whole ++ rest') := by
  unfold signPart at h ⊢
  split at h
  · rfl
  · rename_i hsign
    obtain ⟨b, whole, rfl⟩ := List.exists_cons_of_ne_nil hne
    split
    · rename_i heq
      exact absurd (h.trans (by rw [List.cons_append, (List.cons.inj heq).1])) (hsign _)
    · rfl

theorem numeral_eq (bs : Bytes) :
    numeral bs = (wholePart (signPart bs).1 (signPart bs).2).bind fun whole =>
      (fractionPart whole.1 whole.2).bind fun fraction =>
        exponentPart fraction.1 fraction.2 := by
  -- The reader matches on the sign alone, so there are two cases.
  by_cases hminus : ∃ rest, bs = 45 :: rest
  · obtain ⟨rest, rfl⟩ := hminus
    rfl
  · have hsign : signPart bs = ([], bs) := by
      unfold signPart
      split
      · exact absurd ⟨_, rfl⟩ hminus
      · rfl
    rw [hsign, numeral]
    · rfl
    · rintro rest rfl
      exact hminus ⟨rest, rfl⟩

/-- A number is read in front of anything that does not go on with it. -/
theorem exists_of_numeral {bs n rest : Bytes} (h : numeral bs = some (n, rest)) :
    EndsIn Bytes.isDigit n ∧ bs = n ++ rest ∧
      ∀ rest', endsNumber rest' = true → numeral (n ++ rest') = some (n, rest') := by
  rw [numeral_eq] at h
  obtain ⟨⟨t₁, rest₁⟩, hwhole, h⟩ := Option.bind_eq_some_iff.mp h
  obtain ⟨⟨t₂, rest₂⟩, hfraction, hexponent⟩ := Option.bind_eq_some_iff.mp h
  obtain ⟨whole, hends₁, hsplit, rfl, hreads₁⟩ := exists_of_wholePart hwhole
  obtain ⟨fraction, hends₂, rfl, rfl, hreads₂⟩ := exists_of_fractionPart hfraction
  obtain ⟨exponent, hends₃, rfl, rfl, hreads₃⟩ := exists_of_exponentPart hexponent
  refine ⟨?_, ?_, fun rest' hrest' => ?_⟩
  · -- The last part that is there ends in a digit.
    rcases hends₃ with rfl | ⟨-, hdigit⟩
    · rcases hends₂ with rfl | ⟨-, hdigit⟩
      · simpa using hends₁.append_left (signPart bs).1
      · simpa using hdigit.append_left ((signPart bs).1 ++ whole)
    · exact hdigit.append_left _
  · have hparts := signPart_append bs
    rw [hsplit] at hparts
    simpa using hparts.symm
  · -- What stands behind a part starts with the mark of the next part, or ends the number.
    have hexponent' : NoDigit (exponent ++ rest') ∧ (exponent ++ rest').head? ≠ some 46 := by
      rcases hends₃ with rfl | ⟨hmark, -⟩
      · refine ⟨noDigit_of_endsNumber hrest', ?_⟩
        intro hpoint
        obtain ⟨more, rfl⟩ := List.head?_eq_some_iff.mp hpoint
        cases hrest'
      · rcases hmark with hmark | hmark
        · exact ⟨noDigit_part (by decide) hmark, by simp [List.head?_append, hmark]⟩
        · exact ⟨noDigit_part (by decide) hmark, by simp [List.head?_append, hmark]⟩
    have hfraction' : NoDigit (fraction ++ (exponent ++ rest')) := by
      rcases hends₂ with rfl | ⟨hpoint, -⟩
      · exact hexponent'.1
      · exact noDigit_part (by decide) hpoint
    have hsign := signPart_congr hsplit hends₁.ne_nil (fraction ++ (exponent ++ rest'))
    simp only [List.append_assoc] at hsign hreads₁ hreads₂ hreads₃ ⊢
    rw [numeral_eq, hsign, hreads₁ _ hfraction', Option.bind_some,
      hreads₂ _ hexponent'.1 hexponent'.2, Option.bind_some, hreads₃ _ hrest']

/-! ## Strings -/

/-- A string is closed at the same quote, whatever stands behind it. -/
theorem exists_of_closing {bs raw rest : Bytes} (h : closing bs = some (raw, rest)) :
    bs = raw ++ 34 :: rest ∧ ∀ rest', closing (raw ++ 34 :: rest') = some (raw, rest') := by
  fun_induction closing bs generalizing raw with
  | case1 => cases h
  | case2 rest₁ =>
    cases h
    exact ⟨rfl, fun rest' => rfl⟩
  | case3 b bs ih =>
    obtain ⟨⟨s, more⟩, hs, heq⟩ := Option.map_eq_some_iff.mp h
    cases heq
    obtain ⟨rfl, hreads⟩ := ih hs
    refine ⟨rfl, fun rest' => ?_⟩
    rw [List.cons_append, List.cons_append, closing, hreads]
    rfl
  | case4 b bs hquote hslash ih =>
    obtain ⟨⟨s, more⟩, hs, heq⟩ := Option.map_eq_some_iff.mp h
    cases heq
    obtain ⟨rfl, hreads⟩ := ih hs
    refine ⟨rfl, fun rest' => ?_⟩
    rw [List.cons_append, closing, hreads]
    · rfl
    · exact hquote
    · -- A byte stands behind `b` in both texts, so that `b` is no backslash in either.
      rintro c tail rfl htail
      cases s with
      | nil => exact hslash _ _ rfl rfl
      | cons d s => exact hslash _ _ rfl rfl

/-- What the reading of a string takes ends in the closing quote. -/
theorem exists_of_stringBody {bs s rest : Bytes} (h : stringBody bs = some (s, rest)) :
    ∃ raw, bs = raw ++ 34 :: rest ∧
      ∀ rest', stringBody (raw ++ 34 :: rest') = some (s, rest') := by
  simp only [stringBody, Option.bind_eq_bind, Option.bind_eq_some_iff] at h
  obtain ⟨⟨raw, more⟩, hclosing, es, helements, hs⟩ := h
  cases hs
  obtain ⟨rfl, hreads⟩ := exists_of_closing hclosing
  exact ⟨raw, rfl, fun rest' => by simp [stringBody, hreads, helements]⟩

/-- What the reading of a key takes ends in the colon. -/
theorem exists_of_fieldKey {bs key rest : Bytes} (h : fieldKey bs = some (key, rest)) :
    ∃ raw, bs = raw ++ 58 :: rest ∧
      ∀ rest', fieldKey (raw ++ 58 :: rest') = some (key, rest') := by
  unfold fieldKey at h
  split at h
  · rename_i inner hquote
    obtain ⟨lead, hlead, rfl, -⟩ := exists_of_skipBlanks hquote
    split at h
    · cases h
    · rename_i key' more hbody
      split at h
      · rename_i hcolon
        cases h
        obtain ⟨raw, rfl, hreads⟩ := exists_of_stringBody hbody
        obtain ⟨gap, hgap, rfl, -⟩ := exists_of_skipBlanks hcolon
        -- The blanks around the key are taken as well.
        refine ⟨lead ++ 34 :: (raw ++ 34 :: gap), by simp, fun rest' => ?_⟩
        have htext : lead ++ 34 :: (raw ++ 34 :: gap) ++ 58 :: rest' =
            lead ++ 34 :: (raw ++ 34 :: (gap ++ 58 :: rest')) := by simp
        rw [htext, fieldKey, skipBlanks_gap hlead (by decide)]
        simp only [hreads, skipBlanks_gap hgap (show isBlank 58 = false by decide)]
      · cases h
  · cases h

/-! ## Documents -/

/-- The bytes that something other than a number starts with. -/
def marks : Bytes := [32, 9, 10, 13, 34, 91, 123, 116, 102, 110]

/-- The documents that are words. -/
def words : List (Bytes × Json) :=
  [(text "true", .bool true), (text "false", .bool false), (text "null", .null)]

/-- A document at the very start of a text, by its first byte, and what stands behind
    it. -/
inductive Opens (fuel depth : Nat) : Bytes → Json → Bytes → Prop
  | str {bs s rest : Bytes} (h : stringBody bs = some (s, rest)) :
    Opens fuel depth (34 :: bs) (.str s) rest
  | noItems {gap : Bytes} (hdepth : depth < maxDepth) (hgap : Blanks gap) (rest : Bytes) :
    Opens fuel depth (91 :: (gap ++ 93 :: rest)) (.list []) rest
  | list {bs rest : Bytes} {js : List Json} (hdepth : depth < maxDepth)
    (h : items fuel (depth + 1) bs = some (js, rest)) : Opens fuel depth (91 :: bs) (.list js) rest
  | noFields {gap : Bytes} (hdepth : depth < maxDepth) (hgap : Blanks gap) (rest : Bytes) :
    Opens fuel depth (123 :: (gap ++ 125 :: rest)) (.object []) rest
  | object {bs rest : Bytes} {fs : List (Bytes × Json)} (hdepth : depth < maxDepth)
    (h : fields fuel (depth + 1) bs = some (fs, rest)) :
    Opens fuel depth (123 :: bs) (.object fs) rest
  | word {w : Bytes} {j : Json} (h : (w, j) ∈ words) (rest : Bytes) :
    Opens fuel depth (w ++ rest) j rest
  | number {b : UInt8} {bs n rest : Bytes} (hb : b ∉ marks)
    (h : numeral (b :: bs) = some (n, rest)) :
    Opens fuel depth (b :: bs) (.number n) rest

theorem literal_append (w : Bytes) (j : Json) (rest : Bytes) :
    literal w j (w ++ rest) = some (j, rest) := by
  have hstart : (w ++ rest).startsWith w = true := by simp [Bytes.startsWith]
  rw [literal, if_pos hstart, List.drop_left]

theorem exists_of_literal {w bs rest : Bytes} {j j' : Json} (h : literal w j bs = some (j', rest)) :
    j' = j ∧ bs = w ++ rest := by
  unfold literal at h
  split at h
  · rename_i hstart
    cases h
    obtain ⟨rest, rfl⟩ := List.isPrefixOf_iff_prefix.mp hstart
    exact ⟨rfl, by rw [List.drop_left]⟩
  · cases h

section

variable {fuel depth : Nat} {bs rest : Bytes} {j : Json}

/-- What opens a text is what is read. -/
theorem Opens.value_eq (h : Opens fuel depth bs j rest) :
    value (fuel + 1) depth bs = some (j, rest) := by
  cases h with
  | str h =>
    rw [value, skipBlanks_cons (by decide)]
    simp [h]
  | noItems hdepth hgap rest =>
    have hroom : ¬ maxDepth ≤ depth := by omega
    rw [value, skipBlanks_cons (by decide)]
    simp [hroom, skipBlanks_gap hgap (b := 93) (by decide)]
  | list hdepth h => exact value_list hdepth h
  | noFields hdepth hgap rest =>
    have hroom : ¬ maxDepth ≤ depth := by omega
    rw [value, skipBlanks_cons (by decide)]
    simp [hroom, skipBlanks_gap hgap (b := 125) (by decide)]
  | object hdepth h => exact value_object hdepth h
  | @word w j h rest =>
    have hword := literal_append w j rest
    simp only [words, List.mem_cons, List.not_mem_nil, or_false, Prod.mk.injEq] at h
    rcases h with ⟨rfl, rfl⟩ | ⟨rfl, rfl⟩ | ⟨rfl, rfl⟩ <;> exact hword
  | number hb h =>
    -- A number is what is left where no mark was found.
    simp only [marks, List.mem_cons, List.not_mem_nil, or_false, not_or] at hb
    obtain ⟨h32, h9, h10, h13, h34, h91, h123, h116, h102, h110⟩ := hb
    rw [value, skipBlanks_cons (by simp [isBlank, h32, h9, h10, h13])]
    simp [h, h34, h91, h123, h116, h102, h110]

/-- What is read opens the text, blanks in front of it apart. -/
theorem exists_opens (h : value (fuel + 1) depth bs = some (j, rest)) :
    ∃ lead more, bs = lead ++ more ∧ Blanks lead ∧ Opens fuel depth more j rest := by
  rw [value] at h
  split at h
  · cases h
  rename_i b more hskip
  obtain ⟨lead, hlead, rfl, hb⟩ := exists_of_skipBlanks hskip
  refine ⟨lead, b :: more, rfl, hlead, ?_⟩
  split at h
  · -- A string.
    rename_i hmark
    cases eq_of_beq hmark
    obtain ⟨⟨s, rest⟩, hs, heq⟩ := Option.map_eq_some_iff.mp h
    cases heq
    exact .str hs
  split at h
  · -- A list, which may be empty.
    rename_i hmark
    cases eq_of_beq hmark
    split at h
    · cases h
    rename_i hroom
    split at h
    · rename_i hclose
      cases h
      obtain ⟨gap, hgap, rfl, -⟩ := exists_of_skipBlanks hclose
      exact .noItems (by omega) hgap _
    · obtain ⟨⟨js, rest⟩, hjs, heq⟩ := Option.map_eq_some_iff.mp h
      cases heq
      exact .list (by omega) hjs
  split at h
  · -- An object, which may be empty.
    rename_i hmark
    cases eq_of_beq hmark
    split at h
    · cases h
    rename_i hroom
    split at h
    · rename_i hclose
      cases h
      obtain ⟨gap, hgap, rfl, -⟩ := exists_of_skipBlanks hclose
      exact .noFields (by omega) hgap _
    · obtain ⟨⟨fs, rest⟩, hfs, heq⟩ := Option.map_eq_some_iff.mp h
      cases heq
      exact .object (by omega) hfs
  -- A word is tested by its first letter, and then as a whole.
  have hword : ∀ {w i}, (w, i) ∈ words → literal w i (b :: more) = some (j, rest) →
      Opens fuel depth (b :: more) j rest := by
    intro w i hmem hliteral
    obtain ⟨rfl, hmore⟩ := exists_of_literal hliteral
    rw [hmore]
    exact .word hmem rest
  split at h
  · exact hword (by simp [words]) h
  split at h
  · exact hword (by simp [words]) h
  split at h
  · exact hword (by simp [words]) h
  -- Only a number is left, and every mark was tested for.
  obtain ⟨⟨n, rest⟩, hn, heq⟩ := Option.map_eq_some_iff.mp h
  cases heq
  refine .number ?_ hn
  simp only [isBlank, Bool.or_eq_false_iff, beq_eq_false_iff_ne] at hb
  simp only [beq_iff_eq] at *
  simp only [marks, List.mem_cons, List.not_mem_nil, or_false, not_or]
  tauto

end

/-! ## What is taken -/

/-- The last byte of a document: a digit, a quote, a bracket, a brace, or the last letter
    of a word. -/
def endsDocument (b : UInt8) : Bool :=
  Bytes.isDigit b || b == 34 || b == 93 || b == 125 || b == 101 || b == 108

theorem endsIn_concat (front : Bytes) {b : UInt8} (hb : endsDocument b = true) :
    EndsIn endsDocument (front ++ [b]) :=
  ⟨front, b, rfl, hb⟩

/-- A text is read as a document in front of anything that does not go on with a number. -/
def ReadsAt (depth : Nat) (raw : Bytes) (j : Json) : Prop :=
  ∀ fuel rest, 2 * raw.length ≤ fuel + 1 → endsNumber rest = true →
    value fuel depth (raw ++ rest) = some (j, rest)

/-- How the reading of a list goes on behind these items. -/
def itemsAfter (fuel depth : Nat) (js : List Json) (tail : Bytes) : Option (List Json × Bytes) :=
  match skipBlanks tail with
  | 93 :: rest => some (js, rest)
  | 44 :: rest => (items fuel depth rest).map fun (more, rest) => (js ++ more, rest)
  | _ => none

/-- A text is read as items of a list; what stands behind it says how the list goes on. -/
structure ReadsItems (depth : Nat) (body : Bytes) (js : List Json) : Prop where
  count : js.length ≤ body.length
  reads : ∀ fuel tail, 2 * body.length ≤ fuel + js.length → endsNumber tail = true →
    items (fuel + js.length) depth (body ++ tail) = itemsAfter fuel depth js tail

/-- A text is read as the fields of an object that is closed behind it. -/
def ReadsFields (depth : Nat) (raw : Bytes) (fs : List (Bytes × Json)) : Prop :=
  ∀ fuel rest, 2 * raw.length ≤ fuel → fields fuel depth (raw ++ 125 :: rest) = some (fs, rest)

/-- With this measure, whatever is read could be read elsewhere as well. -/
structure Measured (fuel : Nat) : Prop where
  document : ∀ {depth bs j rest}, value fuel depth bs = some (j, rest) →
    ∃ raw, bs = raw ++ rest ∧ EndsIn endsDocument raw ∧ ReadsAt depth raw j
  list : ∀ {depth bs js rest}, items fuel depth bs = some (js, rest) →
    ∃ body gap, bs = body ++ (gap ++ 93 :: rest) ∧ Blanks gap ∧ EndsIn endsDocument body ∧
      ReadsItems depth body js
  object : ∀ {depth bs fs rest}, fields fuel depth bs = some (fs, rest) →
    ∃ raw, bs = raw ++ 125 :: rest ∧ ReadsFields depth raw fs

section

variable {fuel depth : Nat} {bs rest : Bytes}

theorem ReadsAt.of_opens {lead raw : Bytes} {j : Json} (hlead : Blanks lead) (hne : raw ≠ [])
    (h : ∀ fuel rest, 2 * raw.length ≤ fuel + 2 → endsNumber rest = true →
      Opens fuel depth (raw ++ rest) j rest) : ReadsAt depth (lead ++ raw) j := by
  intro fuel rest hfuel hrest
  have hlength := List.length_pos_of_ne_nil hne
  rw [List.length_append] at hfuel
  -- A document is not empty, so its measure is not used up.
  obtain ⟨fuel, rfl⟩ := Nat.exists_eq_succ_of_ne_zero (by omega : fuel ≠ 0)
  rw [List.append_assoc, value_congr (skipBlanks_append hlead _)]
  exact (h fuel rest (by omega) hrest).value_eq

/-- A document is opened again by what it took. -/
theorem Opens.exists_raw (hmeasured : Measured fuel) {j : Json}
    (h : Opens fuel depth bs j rest) :
    ∃ raw, bs = raw ++ rest ∧ EndsIn endsDocument raw ∧
      ∀ fuel rest, 2 * raw.length ≤ fuel + 2 → endsNumber rest = true →
        Opens fuel depth (raw ++ rest) j rest := by
  cases h with
  | str h =>
    obtain ⟨raw, rfl, hreads⟩ := exists_of_stringBody h
    refine ⟨34 :: raw ++ [34], by simp, endsIn_concat _ rfl, fun fuel rest _ _ => ?_⟩
    rw [List.append_assoc, List.cons_append]
    exact .str (hreads rest)
  | @noItems gap hdepth hgap rest =>
    refine ⟨91 :: gap ++ [93], by simp, endsIn_concat _ rfl, fun fuel rest _ _ => ?_⟩
    rw [List.append_assoc, List.cons_append]
    exact .noItems hdepth hgap rest
  | @list bs rest js hdepth h =>
    obtain ⟨body, gap, rfl, hgap, -, hreads⟩ := hmeasured.list h
    refine ⟨91 :: (body ++ gap) ++ [93], by simp, endsIn_concat _ rfl,
      fun fuel rest hfuel _ => ?_⟩
    -- Each item has a byte of its own, so the measure lasts for all of them.
    simp only [List.length_append, List.length_cons, List.length_nil] at hfuel
    have hcount := hreads.count
    obtain ⟨left, rfl⟩ := Nat.exists_eq_add_of_le' (by omega : js.length ≤ fuel)
    have hitems := hreads.reads left (gap ++ 93 :: rest) (by omega) (endsNumber_blanks hgap rfl)
    rw [itemsAfter, skipBlanks_gap hgap (by decide)] at hitems
    simp only [List.append_assoc, List.cons_append, List.nil_append]
    exact .list hdepth hitems
  | @noFields gap hdepth hgap rest =>
    refine ⟨123 :: gap ++ [125], by simp, endsIn_concat _ rfl, fun fuel rest _ _ => ?_⟩
    rw [List.append_assoc, List.cons_append]
    exact .noFields hdepth hgap rest
  | object hdepth h =>
    obtain ⟨raw, rfl, hreads⟩ := hmeasured.object h
    refine ⟨123 :: raw ++ [125], by simp, endsIn_concat _ rfl, fun fuel rest hfuel _ => ?_⟩
    simp only [List.length_append, List.length_cons, List.length_nil] at hfuel
    rw [List.append_assoc, List.cons_append]
    exact .object hdepth (hreads fuel rest (by omega))
  | @word w j h rest =>
    refine ⟨w, rfl, ?_, fun fuel rest _ _ => .word h rest⟩
    simp only [words, List.mem_cons, List.not_mem_nil, or_false, Prod.mk.injEq] at h
    rcases h with ⟨rfl, rfl⟩ | ⟨rfl, rfl⟩ | ⟨rfl, rfl⟩
    · exact endsIn_concat (text "tru") rfl
    · exact endsIn_concat (text "fals") rfl
    · exact endsIn_concat (text "nul") rfl
  | @number b bs n rest hb h =>
    obtain ⟨hends, hsplit, hreads⟩ := exists_of_numeral h
    refine ⟨n, hsplit, hends.mono fun d hd => by simp [endsDocument, hd],
      fun fuel rest' _ hrest' => ?_⟩
    -- The first byte of the number is still no mark.
    obtain ⟨c, ds, rfl⟩ := List.exists_cons_of_ne_nil hends.ne_nil
    cases (List.cons.inj hsplit).1
    exact .number hb (hreads rest' hrest')

theorem Measured.value_succ (hmeasured : Measured fuel) {j : Json}
    (h : value (fuel + 1) depth bs = some (j, rest)) :
    ∃ raw, bs = raw ++ rest ∧ EndsIn endsDocument raw ∧ ReadsAt depth raw j := by
  obtain ⟨lead, more, rfl, hlead, hopens⟩ := exists_opens h
  obtain ⟨raw, rfl, hends, hraw⟩ := hopens.exists_raw hmeasured
  exact ⟨lead ++ raw, by rw [List.append_assoc], hends.append_left lead,
    .of_opens hlead hends.ne_nil hraw⟩

/-- One item. -/
theorem ReadsAt.readsItems {raw : Bytes} {j : Json} (hne : raw ≠ []) (h : ReadsAt depth raw j) :
    ReadsItems depth raw [j] where
  count := List.length_pos_of_ne_nil hne
  reads fuel tail hfuel htail := by
    simp only [List.length_singleton] at hfuel ⊢
    simp only [items, h fuel tail hfuel htail]
    rfl

/-- One item in front of others. -/
theorem ReadsAt.readsItems_cons {raw gap body : Bytes} {j : Json} {js : List Json}
    (h : ReadsAt depth raw j) (hgap : Blanks gap) (hbody : ReadsItems depth body js) :
    ReadsItems depth (raw ++ (gap ++ 44 :: body)) (j :: js) where
  count := by
    have hcount := hbody.count
    simp only [List.length_append, List.length_cons]
    omega
  reads fuel tail hfuel htail := by
    simp only [List.length_append, List.length_cons] at hfuel
    have hvalue := h (fuel + js.length) (gap ++ 44 :: (body ++ tail)) (by omega)
      (endsNumber_blanks hgap rfl)
    have hmore := hbody.reads fuel tail (by omega) htail
    have htext : raw ++ (gap ++ 44 :: body) ++ tail = raw ++ (gap ++ 44 :: (body ++ tail)) := by
      simp
    rw [htext, List.length_cons, ← Nat.add_assoc]
    simp only [items, hvalue, skipBlanks_gap hgap (show isBlank 44 = false by decide), hmore,
      itemsAfter]
    split
    · rfl
    · rw [Option.map_map]
      rfl
    · rfl

theorem Measured.items_succ (hmeasured : Measured fuel) {js : List Json}
    (h : items (fuel + 1) depth bs = some (js, rest)) :
    ∃ body gap, bs = body ++ (gap ++ 93 :: rest) ∧ Blanks gap ∧ EndsIn endsDocument body ∧
      ReadsItems depth body js := by
  rw [items] at h
  split at h
  · cases h
  rename_i j more hvalue
  obtain ⟨raw, rfl, hends, hreads⟩ := hmeasured.document hvalue
  split at h
  · -- The last item.
    rename_i hclose
    cases h
    obtain ⟨gap, hgap, rfl, -⟩ := exists_of_skipBlanks hclose
    exact ⟨raw, gap, rfl, hgap, hends, hreads.readsItems hends.ne_nil⟩
  · -- An item in front of others.
    rename_i hcomma
    obtain ⟨⟨js, rest⟩, hjs, heq⟩ := Option.map_eq_some_iff.mp h
    cases heq
    obtain ⟨gap, hgap, rfl, -⟩ := exists_of_skipBlanks hcomma
    obtain ⟨body, gap', rfl, hgap', hends', hreads'⟩ := hmeasured.list hjs
    refine ⟨raw ++ (gap ++ 44 :: body), gap', by simp, hgap', ?_,
      hreads.readsItems_cons hgap hreads'⟩
    exact ((hends'.append_left [44]).append_left gap).append_left raw
  · cases h

theorem Measured.fields_succ (hmeasured : Measured fuel) {fs : List (Bytes × Json)}
    (h : fields (fuel + 1) depth bs = some (fs, rest)) :
    ∃ raw, bs = raw ++ 125 :: rest ∧ ReadsFields depth raw fs := by
  rw [fields] at h
  split at h
  · cases h
  rename_i key more hkey
  obtain ⟨name, rfl, hname⟩ := exists_of_fieldKey hkey
  split at h
  · cases h
  rename_i j more hvalue
  obtain ⟨raw, rfl, -, hreads⟩ := hmeasured.document hvalue
  split at h
  · -- The last field.
    rename_i hclose
    cases h
    obtain ⟨gap, hgap, rfl, -⟩ := exists_of_skipBlanks hclose
    refine ⟨name ++ 58 :: (raw ++ gap), by simp, fun fuel rest hfuel => ?_⟩
    simp only [List.length_append, List.length_cons] at hfuel
    obtain ⟨fuel, rfl⟩ := Nat.exists_eq_succ_of_ne_zero (by omega : fuel ≠ 0)
    have hvalue := hreads fuel (gap ++ 125 :: rest) (by omega) (endsNumber_blanks hgap rfl)
    simp only [List.append_assoc, List.cons_append, fields, hname, hvalue,
      skipBlanks_gap hgap (show isBlank 125 = false by decide)]
  · -- A field in front of others.
    rename_i hcomma
    obtain ⟨⟨fs, rest⟩, hfs, heq⟩ := Option.map_eq_some_iff.mp h
    cases heq
    obtain ⟨gap, hgap, rfl, -⟩ := exists_of_skipBlanks hcomma
    obtain ⟨others, rfl, hothers⟩ := hmeasured.object hfs
    refine ⟨name ++ 58 :: (raw ++ (gap ++ 44 :: others)), by simp, fun fuel rest hfuel => ?_⟩
    simp only [List.length_append, List.length_cons] at hfuel
    obtain ⟨fuel, rfl⟩ := Nat.exists_eq_succ_of_ne_zero (by omega : fuel ≠ 0)
    have hvalue := hreads fuel (gap ++ 44 :: (others ++ 125 :: rest)) (by omega)
      (endsNumber_blanks hgap rfl)
    have hmore := hothers fuel rest (by omega)
    simp only [List.append_assoc, List.cons_append, fields, hname, hvalue,
      skipBlanks_gap hgap (show isBlank 44 = false by decide), hmore]
    rfl
  · cases h

end

theorem measured (fuel : Nat) : Measured fuel := by
  -- The three readers call each other with less fuel, so they are measured together.
  induction fuel with
  | zero =>
    refine ⟨?_, ?_, ?_⟩
    · intro depth bs j rest h
      rw [value] at h
      cases h
    · intro depth bs js rest h
      rw [items] at h
      cases h
    · intro depth bs fs rest h
      rw [fields] at h
      cases h
  | succ fuel ih => exact ⟨ih.value_succ, ih.items_succ, ih.fields_succ⟩

/-! ## Whole texts -/

theorem parse_eq_some_iff {content : Bytes} {j : Json} :
    parse content = some j ↔
      ∃ rest, value (2 * content.length + 2) 0 content = some (j, rest) ∧ Blanks rest := by
  -- What stands behind a document is empty once its blanks are skipped.
  have hblanks : ∀ rest : Bytes, (skipBlanks rest).isEmpty = true ↔ Blanks rest := by
    intro rest
    rw [List.isEmpty_iff]
    exact List.dropWhile_eq_nil_iff
  unfold parse
  split
  · rename_i i rest hvalue
    rw [hvalue]
    constructor
    · intro h
      split at h
      · rename_i hrest
        cases h
        exact ⟨rest, rfl, (hblanks rest).mp hrest⟩
      · cases h
    · rintro ⟨rest', heq, hrest⟩
      cases heq
      exact if_pos ((hblanks rest).mpr hrest)
  · rename_i hvalue
    simp [hvalue]

/-- Blanks may stand at both ends. -/
theorem parse_of_value {lead more rest : Bytes} {j : Json} (hlead : Blanks lead)
    (h : value (2 * (lead ++ more).length + 2) 0 more = some (j, rest)) (hrest : Blanks rest) :
    parse (lead ++ more) = some j := by
  rw [parse_eq_some_iff]
  exact ⟨rest, by rwa [value_congr (skipBlanks_append hlead more)], hrest⟩

/-- The word null holds no bracket. -/
theorem bracket_not_mem_of_parse_null {content : Bytes} (h : parse content = some .null) :
    (93 : UInt8) ∉ content := by
  obtain ⟨rest, hvalue, hrest⟩ := parse_eq_some_iff.mp h
  obtain ⟨lead, more, rfl, hlead, hopens⟩ := exists_opens hvalue
  cases hopens with
  | @word w j hword rest =>
    simp only [words, List.mem_cons, List.not_mem_nil, or_false, Prod.mk.injEq, reduceCtorEq,
      and_false, and_true, false_or] at hword
    subst hword
    have hnull : (93 : UInt8) ∉ text "null" := by decide
    simp [hlead.bracket_not_mem, hrest.bracket_not_mem, hnull]

/-- The text of a list up to its last item, or up to its bracket when it has none. -/
inductive ListStart : Bytes → List Json → Prop
  | bracket {lead : Bytes} (hlead : Blanks lead) : ListStart (lead ++ [91]) []
  | items {lead body : Bytes} {js : List Json} (hlead : Blanks lead)
    (hends : EndsIn endsDocument body) (hreads : ReadsItems 1 body js) :
    ListStart (lead ++ 91 :: body) js

/-- What is read as a list is the start of it, and the bracket that closes it. -/
theorem exists_of_parse_list {content : Bytes} {js : List Json}
    (h : parse content = some (.list js)) :
    ∃ start gap tail, content = start ++ (gap ++ 93 :: tail) ∧ Blanks gap ∧ Blanks tail ∧
      ListStart start js := by
  obtain ⟨tail, hvalue, htail⟩ := parse_eq_some_iff.mp h
  obtain ⟨lead, more, rfl, hlead, hopens⟩ := exists_opens hvalue
  cases hopens with
  | @noItems gap hdepth hgap tail =>
    exact ⟨lead ++ [91], gap, tail, by simp, hgap, htail, .bracket hlead⟩
  | list hdepth hitems =>
    obtain ⟨body, gap, rfl, hgap, hends, hreads⟩ := (measured _).list hitems
    exact ⟨lead ++ 91 :: body, gap, tail, by simp, hgap, htail, .items hlead hends hreads⟩
  | word hword => simp [words] at hword

section

variable {lead gap element tail : Bytes} {need : Nat} {j : Json}

/-- One item up to the bracket. -/
theorem items_singleton (hgap : Blanks gap) (helement : Reads 1 need element j) {fuel : Nat}
    (hfuel : need + 1 ≤ fuel) (tail : Bytes) :
    items fuel 1 (gap ++ (element ++ 10 :: 93 :: tail)) = some ([j], tail) := by
  have hjoin := items_join (.cons helement .nil) (List.cons_ne_nil element []) hgap hfuel
    (by decide : 1 + 1 ≤ maxDepth) tail
  rwa [Bytes.join, List.intercalate_singleton] at hjoin

/-- An item can be put into a list that has none. -/
theorem parse_singleton (hlead : Blanks lead) (hgap : Blanks gap)
    (helement : Reads 1 need element j) (hneed : need ≤ 2 * (gap ++ element).length + 6)
    (htail : Blanks tail) :
    parse (lead ++ 91 :: (gap ++ (element ++ 10 :: 93 :: tail))) = some (.list [j]) := by
  refine parse_of_value hlead (value_list (by decide) ?_) htail
  refine items_singleton hgap helement ?_ tail
  simp only [List.length_append, List.length_cons] at hneed ⊢
  omega

/-- An item can be put behind the last one. -/
theorem parse_concat {body : Bytes} {js : List Json} (hlead : Blanks lead)
    (hbody : ReadsItems 1 body js) (hgap : Blanks gap) (helement : Reads 1 need element j)
    (hneed : need ≤ 2 * (gap ++ element).length + 6) (htail : Blanks tail) :
    parse (lead ++ 91 :: (body ++ 44 :: (gap ++ (element ++ 10 :: 93 :: tail)))) =
      some (.list (js ++ [j])) := by
  let more := gap ++ (element ++ 10 :: 93 :: tail)
  let length := (lead ++ 91 :: (body ++ 44 :: more)).length
  have hlength : length = lead.length + body.length + gap.length + element.length +
      tail.length + 4 := by
    simp only [length, more, List.length_append, List.length_cons]
    omega
  have hcount := hbody.count
  obtain ⟨fuel, hfuel⟩ : ∃ fuel, 2 * length + 1 = fuel + js.length :=
    Nat.exists_eq_add_of_le' (by omega)
  have hitems : items (2 * length + 1) 1 (body ++ 44 :: more) = some (js ++ [j], tail) := by
    rw [List.length_append] at hneed
    have hmore : items fuel 1 more = some ([j], tail) :=
      items_singleton hgap helement (by omega) tail
    rw [hfuel, hbody.reads fuel _ (by omega) rfl, itemsAfter, skipBlanks_cons (by decide)]
    simp only [hmore, Option.map_some]
  exact parse_of_value hlead (value_list (by decide) hitems) htail

end

end Json

end Scriptlet

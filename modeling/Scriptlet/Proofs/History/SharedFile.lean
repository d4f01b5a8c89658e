/-
  Scriptlet.Proofs.History.SharedFile

  One file under several stores.

  Every append splices a record into the file as it then is, by its bytes alone: the
  store that does it may know nothing of the records that others have written.
  The file is still the list of all records in the order of the appends
  (`HistoryFile.written`), each store has what it loaded and what it appended
  itself, and a store that is opened later has the last records of all
  (`sharedFile_holds_all`).
-/
import Scriptlet.Proofs.History.CappedLog
import Scriptlet.Proofs.Json.Extent

namespace Scriptlet

/-! ## Text that is not blank -/

/-- Behind the first byte of a character every byte is beyond ASCII. -/
theorem Utf8.le_of_mem_take_multibyte {c : UInt8} {rest : Bytes} {code len : Nat}
    (h : multibyte c rest = some (code, len)) {b : UInt8} (hb : b ∈ rest.take (len - 1)) :
    0x80 ≤ b := by
  have hcontinues : ∀ {lo hi d : UInt8}, 0x80 ≤ lo → (lo ≤ d && d ≤ hi) = true → 0x80 ≤ d := by
    intro lo hi d hlo hd
    rw [Bool.and_eq_true, decide_eq_true_eq] at hd
    exact UInt8.le_trans hlo hd.1
  -- The range of the second byte depends on the first one, but is beyond ASCII in any case.
  have hsecond : ∀ {p q : Prop} [Decidable p] [Decidable q] {lo lo' hi hi' d : UInt8}, 0x80 ≤ lo →
      0x80 ≤ lo' → (if p then (lo ≤ d && d ≤ hi : Bool) else if q then (lo' ≤ d && d ≤ hi' : Bool)
        else (0x80 ≤ d && d ≤ 0xBF : Bool)) = true → 0x80 ≤ d := by
    intro p q _ _ lo lo' hi hi' d hlo hlo' hd
    split at hd
    · exact hcontinues hlo hd
    split at hd
    · exact hcontinues hlo' hd
    · exact hcontinues (by decide) hd
  obtain _ | ⟨b₁, more⟩ := rest
  · cases h
  -- Two bytes, then three, then four, each tried in turn.
  rcases ite_eq_iff.mp h with ⟨hpair, hlen⟩ | ⟨-, h⟩
  · cases hlen
    rw [List.mem_singleton.mp hb]
    exact hcontinues (by decide) (Bool.and_eq_true_iff.mp hpair).2
  obtain _ | ⟨b₂, more⟩ := more
  · cases h
  rcases ite_eq_iff.mp h with ⟨htriple, hlen⟩ | ⟨-, h⟩
  · cases hlen
    simp only [Bool.and_eq_true] at htriple
    rcases List.mem_pair.mp hb with rfl | rfl
    · exact hsecond (by decide) (by decide) htriple.1.2
    · exact hcontinues (by decide) htriple.2
  obtain _ | ⟨b₃, more⟩ := more
  · cases h
  rcases ite_eq_iff.mp h with ⟨hquadruple, hlen⟩ | ⟨-, h⟩
  · cases hlen
    simp only [Bool.and_eq_true] at hquadruple
    have hmem : b ∈ [b₁, b₂, b₃] := hb
    simp only [List.mem_cons, List.not_mem_nil, or_false] at hmem
    rcases hmem with rfl | rfl | rfl
    · exact hsecond (by decide) (by decide) hquadruple.1.1.2
    · exact hcontinues (by decide) hquadruple.1.2
    · exact hcontinues (by decide) hquadruple.2
  · cases h

/-- A character of ASCII is a piece of its own. -/
theorem Utf8.char_mem_pieces {b : UInt8} (hascii : b < 0x80) {bs : Bytes} (h : b ∈ bs) :
    .char b.toNat [b] ∈ pieces bs := by
  fun_induction pieces bs with
  | case1 => cases h
  | case2 c rest ih =>
    -- A character of one byte, or a longer one that the byte cannot be in.
    by_cases hfirst : c < 0x80
    · have hnext : next c rest = (.char c.toNat [c], rest) := if_pos hfirst
      rw [hnext] at ih ⊢
      rcases List.mem_cons.mp h with rfl | hrest
      · exact List.mem_cons_self
      · exact List.mem_cons_of_mem _ (ih hrest)
    · have hrest : b ∈ rest := by
        rcases List.mem_cons.mp h with rfl | hrest
        · exact absurd hascii hfirst
        · exact hrest
      refine List.mem_cons_of_mem _ (ih ?_)
      unfold next
      rw [if_neg hfirst]
      split
      · rename_i code len hchar
        rw [← List.take_append_drop (len - 1) rest, List.mem_append] at hrest
        rcases hrest with hmem | hmem
        · have hlarge := le_of_mem_take_multibyte hchar hmem
          exact absurd hascii (UInt8.not_lt.mpr hlarge)
        · exact hmem
      · exact hrest

/-- White space at the ends of a text is all that is trimmed. -/
theorem Blank.trim_ne_nil {b : UInt8} (hascii : b < 0x80) (hb : isBlank b.toNat = false)
    {bs : Bytes} (h : b ∈ bs) : trim bs ≠ [] := by
  let piece : Utf8.Piece := .char b.toNat [b]
  have hsolid : ¬ isBlankPiece piece = true := by simp [piece, isBlankPiece, hb]
  -- What is dropped at an end is white space, so the piece stays.
  have hkept : ∀ {ps : List Utf8.Piece}, piece ∈ ps → piece ∈ ps.dropWhile isBlankPiece := by
    intro ps hps
    rw [← List.takeWhile_append_dropWhile (p := isBlankPiece) (l := ps), List.mem_append] at hps
    rcases hps with hps | hps
    · exact absurd (List.mem_takeWhile_imp hps) hsolid
    · exact hps
  have hfront := hkept (Utf8.char_mem_pieces hascii h)
  have hmem := List.mem_reverse.mpr (hkept (List.mem_reverse.mpr hfront))
  intro hnil
  rw [trim, List.flatMap_eq_nil_iff] at hnil
  exact absurd (hnil piece hmem) (List.cons_ne_nil b [])

namespace HistoryFile

/-! ## The text of a file -/

/-- The text of a file that holds these elements. -/
def written (elements : List Bytes) : Bytes :=
  text "[\n  " ++ Bytes.join (text ",\n  ") elements ++ closing

theorem written_ne_nil (elements : List Bytes) : written elements ≠ [] := by
  have hclosing : closing ≠ [] := by decide
  simp [written, hclosing]

theorem join_concat (sep : Bytes) {xs : List Bytes} (h : xs ≠ []) (x : Bytes) :
    Bytes.join sep (xs ++ [x]) = Bytes.join sep xs ++ sep ++ x := by
  induction xs with
  | nil => exact absurd rfl h
  | cons y ys ih =>
    cases ys with
    | nil => simp [Bytes.join]
    | cons z zs =>
      have hrest := ih (List.cons_ne_nil z zs)
      simp only [Bytes.join, List.cons_append, List.intercalate_cons_cons] at hrest ⊢
      rw [hrest]
      simp only [List.append_assoc]

theorem length_le_length_join {sep : Bytes} (hsep : sep ≠ []) {xs : List Bytes} (h : xs ≠ []) :
    xs.length ≤ (Bytes.join sep xs).length + 1 := by
  induction xs with
  | nil => exact absurd rfl h
  | cons y ys ih =>
    cases ys with
    | nil => simp
    | cons z zs =>
      have hrest := ih (List.cons_ne_nil z zs)
      have hgap := List.length_pos_of_ne_nil hsep
      simp only [Bytes.join, List.intercalate_cons_cons, List.length_append,
        List.length_cons] at hrest ⊢
      omega

theorem lastIndexOf_append {b : UInt8} (xs : Bytes) {ys : Bytes} (h : b ∉ ys) :
    Bytes.lastIndexOf b (xs ++ b :: ys) = some xs.length := by
  have htail : (xs ++ b :: ys).reverse.takeWhile (· != b) = ys.reverse := by
    have hother : ∀ c ∈ ys.reverse, (c != b) = true := by
      intro c hc
      rw [bne_iff_ne]
      rintro rfl
      exact h (List.mem_reverse.mp hc)
    rw [List.reverse_append, List.reverse_cons, List.append_assoc,
      List.takeWhile_append_of_pos hother, List.singleton_append,
      List.takeWhile_cons_of_neg (by simp), List.append_nil]
  unfold Bytes.lastIndexOf
  simp only [htail, List.length_append, List.length_cons, List.length_reverse]
  rw [if_pos (by omega)]
  congr 1
  omega

theorem lastIndexOf_eq_none {b : UInt8} {xs : Bytes} (h : b ∉ xs) :
    Bytes.lastIndexOf b xs = none := by
  have hother : ∀ c ∈ xs.reverse, (c != b) = true := by
    intro c hc
    rw [bne_iff_ne]
    rintro rfl
    exact h (List.mem_reverse.mp hc)
  unfold Bytes.lastIndexOf
  simp only [List.takeWhile_eq_self_iff.mpr hother, List.length_reverse]
  exact if_neg (Nat.lt_irrefl _)

/-! ## Splicing -/

/-- What stands between the last element and a new one: a comma, unless the last
    byte opens the list. -/
def separator (last : UInt8) : Bytes := if last == 91 then text "\n  " else text ",\n  "

/-- Without a bracket in the window there is no place for a record. -/
theorem splice_of_no_bracket {content : Bytes} (hne : content ≠ [])
    (h : (93 : UInt8) ∉ content.drop (content.length - window)) (element : Bytes) :
    splice content element = .error .missingBracket := by
  unfold splice
  rw [if_neg (by simpa using hne)]
  simp only [lastIndexOf_eq_none h]

/-- The bracket is in the window: what is left of the window in front of it, without
    the white space at its end, says where the record goes. -/
theorem splice_of_bracket {front tail : Bytes} (htail : (93 : UInt8) ∉ tail)
    (hwindow : tail.length < window) {offset : Nat}
    (hoffset : (front ++ 93 :: tail).length - window = offset) (element : Bytes) :
    splice (front ++ 93 :: tail) element =
      match (front.drop offset).reverse.dropWhile fun b => Blank.isBlank b.toNat with
      | [] => .error .nothingBeforeBracket
      | b :: kept =>
        .ok (front.take (offset + (kept.length + 1)) ++ separator b ++ element ++ closing) := by
  have hle : offset ≤ front.length := by
    simp only [List.length_append, List.length_cons] at hoffset
    omega
  -- The window starts in front of the bracket.
  have hseen : (front ++ 93 :: tail).drop offset = front.drop offset ++ 93 :: tail :=
    List.drop_append_of_le_length hle
  unfold splice
  rw [if_neg (by simp)]
  simp only [hoffset, hseen, lastIndexOf_append _ htail, List.take_left]
  cases hkept : (front.drop offset).reverse.dropWhile fun b => Blank.isBlank b.toNat with
  | nil => rfl
  -- What is kept of the window lies in the text, so taking stops there.
  | cons b kept =>
    have hlength : offset + (kept.length + 1) ≤ front.length := by
      have hle := (List.dropWhile_suffix (fun b : UInt8 => Blank.isBlank b.toNat)
        (l := (front.drop offset).reverse)).length_le
      rw [hkept, List.length_cons, List.length_reverse, List.length_drop] at hle
      omega
    simp only [List.length_cons, List.take_append_of_le_length hlength]
    rfl

/-- A record is put between the last byte in front of the bracket that is no white space
    and what closes the list, if this byte is in the window, however long the text in
    front is. -/
theorem splice_bracket (front : Bytes) {b : UInt8} (hb : Blank.isBlank b.toNat = false)
    {gap tail : Bytes} (hgap : ∀ c ∈ gap, Blank.isBlank c.toNat = true)
    (htail : (93 : UInt8) ∉ tail) (element : Bytes) :
    splice (front ++ b :: (gap ++ 93 :: tail)) element =
      if window ≤ tail.length then .error .missingBracket
      else if window ≤ gap.length + tail.length + 1 then .error .nothingBeforeBracket
      else .ok (front ++ b :: (separator b ++ element ++ closing)) := by
  have hcontent : front ++ b :: (gap ++ 93 :: tail) = (front ++ b :: gap) ++ 93 :: tail := by simp
  split
  · rename_i hfar
    refine splice_of_no_bracket (by simp) ?_ element
    -- Only the end of the tail is seen.
    have hseen : (front ++ b :: gap ++ [93]).length ≤
        (front ++ b :: (gap ++ 93 :: tail)).length - window := by
      simp only [List.length_append, List.length_cons, List.length_nil]
      omega
    have hlist : front ++ b :: (gap ++ 93 :: tail) = (front ++ b :: gap ++ [93]) ++ tail := by simp
    obtain ⟨k, hk⟩ := Nat.exists_eq_add_of_le hseen
    rw [hk, hlist, List.drop_length_add_append]
    exact fun hmem => htail (List.mem_of_mem_drop hmem)
  rename_i hnear
  obtain ⟨offset, hoffset⟩ : ∃ offset, (front ++ b :: gap ++ 93 :: tail).length - window = offset :=
    ⟨_, rfl⟩
  rw [hcontent, splice_of_bracket htail (by omega) hoffset]
  simp only [List.length_append, List.length_cons] at hoffset
  -- The window has nothing but white space in front of the bracket, or more.
  by_cases hfar : window ≤ gap.length + tail.length + 1
  · rw [if_pos hfar]
    have hbefore : (front ++ [b]).length ≤ offset := by
      rw [List.length_append, List.length_singleton]
      omega
    obtain ⟨k, hk⟩ := Nat.exists_eq_add_of_le hbefore
    have hblank : ((front ++ b :: gap).drop offset).reverse.dropWhile
        (fun c => Blank.isBlank c.toNat) = [] := by
      rw [hk, List.append_cons front b gap, List.drop_length_add_append, List.dropWhile_eq_nil_iff]
      intro c hc
      exact hgap c (List.mem_of_mem_drop (List.mem_reverse.mp hc))
    rw [hblank]
  · rw [if_neg hfar]
    have hkept : ((front ++ b :: gap).drop offset).reverse.dropWhile
        (fun c => Blank.isBlank c.toNat) = b :: (front.drop offset).reverse := by
      rw [List.drop_append_of_le_length (by omega), List.reverse_append, List.reverse_cons,
        List.append_assoc, List.singleton_append,
        List.dropWhile_append_of_pos fun c hc => hgap c (List.mem_reverse.mp hc),
        List.dropWhile_cons_of_neg (by simp [hb])]
    -- The text is kept up to the byte that is no white space.
    have htake : (front ++ b :: gap).take (offset + ((front.drop offset).reverse.length + 1)) =
        front ++ [b] := by
      have hlength : offset + ((front.drop offset).reverse.length + 1) = (front ++ [b]).length := by
        simp only [List.length_append, List.length_reverse, List.length_drop, List.length_singleton]
        omega
      rw [hlength, List.append_cons front b gap, List.take_left]
    simp only [hkept, htake]
    simp

/-- In what a splice leaves there is a place for the next one. -/
theorem splice_closing (front : Bytes) {b : UInt8} (hb : Blank.isBlank b.toNat = false)
    (element : Bytes) :
    splice (front ++ b :: closing) element =
      .ok (front ++ b :: (separator b ++ element ++ closing)) := by
  have hclosing : closing = [10] ++ 93 :: [10] := by decide
  have hgap : ∀ c ∈ ([10] : Bytes), Blank.isBlank c.toNat = true :=
    List.all_eq_true.mp (by decide)
  have hsplice := splice_bracket front hb hgap (by decide : (93 : UInt8) ∉ [10]) element
  rw [if_neg (by decide), if_neg (by decide), ← hclosing] at hsplice
  exact hsplice

/-- A text that ends in a brace. -/
def EndsInBrace (element : Bytes) : Prop := ∃ front, element = front ++ [125]

theorem endsInBrace_join (sep : Bytes) {elements : List Bytes} (hne : elements ≠ [])
    (h : ∀ e ∈ elements, EndsInBrace e) : EndsInBrace (Bytes.join sep elements) := by
  obtain ⟨init, last, rfl⟩ : ∃ init last, elements = init ++ [last] :=
    ⟨_, _, (List.dropLast_append_getLast hne).symm⟩
  obtain ⟨front, hfront⟩ := h last (by simp)
  -- A single element is the text itself, and otherwise the last one ends it.
  by_cases hinit : init = []
  · subst hinit
    exact ⟨front, by simpa [Bytes.join] using hfront⟩
  · refine ⟨Bytes.join sep init ++ sep ++ front, ?_⟩
    rw [join_concat sep hinit, hfront, List.append_assoc _ front]

/-- The first record makes a list of one. -/
theorem splice_nil (element : Bytes) : splice [] element = .ok (written [element]) := by
  simp [splice, written, Bytes.join]

/-- Another record stands behind those that are there. -/
theorem splice_written {elements : List Bytes} (hne : elements ≠ [])
    (h : ∀ e ∈ elements, EndsInBrace e) (element : Bytes) :
    splice (written elements) element = .ok (written (elements ++ [element])) := by
  obtain ⟨front, hfront⟩ := endsInBrace_join (text ",\n  ") hne h
  have hsplice := splice_closing (text "[\n  " ++ front) (b := 125) (by decide) element
  -- The last byte is the brace of a record, so a comma comes next.
  have hseparator : separator 125 = text ",\n  " := rfl
  rw [hseparator] at hsplice
  unfold written
  rw [join_concat _ hne, hfront]
  simp only [List.append_assoc, List.cons_append, List.nil_append] at hsplice ⊢
  exact hsplice

/-! ## Reading a file -/

/-- The list of elements that can be read is read. -/
theorem parse_written {elements : List Bytes} {js : List Json}
    (h : List.Forall₂ (Json.Reads 1 11) elements js) (hne : elements ≠ []) :
    Json.parse (written elements) = some (.list js) := by
  let gap : Bytes := [10, 32, 32]
  have hgap : ∀ b ∈ gap, Json.isBlank b = true := List.all_eq_true.mp (by decide)
  have hwritten : written elements =
      (91 :: (gap ++ Bytes.join (44 :: gap) elements ++ [10, 93])) ++ [10] := by
    have hopen : text "[\n  " = 91 :: gap := by decide
    have hcomma : text ",\n  " = 44 :: gap := by decide
    have hclosing : closing = [10, 93] ++ [10] := by decide
    rw [written, hopen, hcomma, hclosing]
    simp
  have hlength := length_le_length_join (List.cons_ne_nil 44 gap) hne
  have hfuel : 11 + elements.length + 1 ≤ 2 * (written elements).length + 2 := by
    rw [hwritten]
    simp only [gap, List.length_append, List.length_cons, List.length_nil] at hlength ⊢
    omega
  rw [hwritten] at hfuel ⊢
  exact (Json.Reads.list h hne hgap).parse (by decide) hfuel (List.all_eq_true.mp (by decide))

end HistoryFile

/-! ## Records -/

namespace Record

/-- The record that a text holds. -/
def decode? (bs : Bytes) : Option Record := (Json.parse bs).bind ofJson?

/-- A record whose text is read as the record. -/
def ReadsBack (r : Record) : Prop := decode? r.encode = some r

instance (r : Record) : Decidable r.ReadsBack :=
  inferInstanceAs (Decidable (decode? r.encode = some r))

theorem endsInBrace_encode (r : Record) : HistoryFile.EndsInBrace r.encode := ⟨_, rfl⟩

/-- A field that is left out when it is empty is at most one text. -/
theorem optional_text (key : String) (s : Bytes) :
    (optional key s).length ≤ 1 ∧ ∀ f ∈ optional key s, ∃ s, f.2 = .str s := by
  unfold optional
  split
  · simp
  · simp

/-- The fields of a record are texts and numbers. -/
theorem exists_toJson (r : Record) :
    ∃ fs : List (Bytes × Json), r.toJson = .object fs ∧ fs ≠ [] ∧ fs.length ≤ 9 ∧
      ∀ f ∈ fs, (∃ s, f.2 = .str s) ∨ ∃ n, f.2 = .ofInt n := by
  obtain ⟨hresult, htext₁⟩ := optional_text "result" r.result
  obtain ⟨houtput, htext₂⟩ := optional_text "output" r.output
  obtain ⟨herror, htext₃⟩ := optional_text "error" r.error
  obtain ⟨hcode, htext₄⟩ := optional_text "code" r.code
  refine ⟨_, rfl, by simp, ?_, ?_⟩
  · simp only [List.length_append, List.length_cons, List.length_nil]
    omega
  · intro f hf
    simp only [List.mem_append, List.mem_cons, List.not_mem_nil, or_false] at hf
    -- The three texts in front, four that may be left out, and two at the end.
    rcases hf with ((((hf | hf) | hf) | hf) | hf) | (rfl | rfl)
    · rcases hf with rfl | rfl | rfl <;> exact .inl ⟨_, rfl⟩
    · exact .inl (htext₁ f hf)
    · exact .inl (htext₂ f hf)
    · exact .inl (htext₃ f hf)
    · exact .inl (htext₄ f hf)
    · exact .inl ⟨_, rfl⟩
    · exact .inr ⟨_, rfl⟩

/-- The text of a record is read as a document wherever it stands. -/
theorem exists_reads (r : Record) :
    ∃ j, Json.Reads 1 11 r.encode j ∧ Json.parse r.encode = some j := by
  obtain ⟨fs, hfs, hne, hcount, hscalar⟩ := r.exists_toJson
  have hfields : List.Forall₂
      (fun f g => g.1 = Json.reread f.1 ∧ Json.Reads 0 1 f.2.render g.2) fs
      (fs.map fun f => (Json.reread f.1, f.2.rereadScalar)) := by
    rw [List.forall₂_map_right_iff, List.forall₂_same]
    intro f hf
    refine ⟨rfl, ?_⟩
    rcases hscalar f hf with ⟨s, hs⟩ | ⟨n, hn⟩
    · rw [hs]
      exact .str s
    · rw [hn]
      exact .ofInt n
  have hreads := Json.Reads.object hfields hne
  rw [← hfs, show r.toJson.render = r.encode from rfl] at hreads
  -- The fields are fewer than the bytes, so there is fuel to read them.
  have hlong : fs.length ≤ r.encode.length := by
    have hcomma : text "," ≠ [] := by decide
    have hsome : Json.renderFields fs ≠ [] := by simpa [← List.length_eq_zero_iff] using hne
    have hjoin := HistoryFile.length_le_length_join hcomma hsome
    rw [Json.length_renderFields] at hjoin
    rw [encode, hfs, Json.render, List.length_append, List.length_append]
    have hbraces : (text "\x7b").length = 1 := by decide
    omega
  refine ⟨_, hreads.mono (by omega), ?_⟩
  have hneed : 1 + fs.length + 1 ≤ 2 * (r.encode ++ []).length + 2 := by
    rw [List.append_nil]
    omega
  have hparse := hreads.parse (by decide) hneed (by simp)
  rwa [List.append_nil] at hparse

theorem ReadsBack.exists_reads {r : Record} (h : r.ReadsBack) :
    ∃ j, Json.Reads 1 11 r.encode j ∧ ofJson? j = some r := by
  obtain ⟨j, hj, hparse⟩ := Record.exists_reads r
  have hdecode : (Json.parse r.encode).bind ofJson? = some r := h
  rw [hparse, Option.bind_some] at hdecode
  exact ⟨j, hj, hdecode⟩

end Record

/-- A list of records is a history. -/
theorem HistoryFile.load_of_parse {content : Bytes} {js : List Json} {rs : List Record}
    (h : Json.parse content = some (.list js)) (hrs : js.mapM Record.ofJson? = some rs) :
    load content = .ok rs := by
  obtain ⟨start, gap, tail, hcontent, -⟩ := Json.exists_of_parse_list h
  have hbracket : (93 : UInt8) ∈ content := by simp [hcontent]
  -- A list has a bracket, so the text is not blank.
  have hsolid := Blank.trim_ne_nil (by decide : (93 : UInt8) < 0x80) (by decide) hbracket
  rw [load, if_neg (by simpa using hsolid), h]
  simp [Record.listOfJson?, hrs]

theorem HistoryFile.load_written {rs : List Record} (hne : rs ≠ []) (h : ∀ r ∈ rs, r.ReadsBack) :
    load (written (rs.map Record.encode)) = .ok rs := by
  obtain ⟨js, hjs, hrecords⟩ : ∃ js, List.Forall₂ (Json.Reads 1 11) (rs.map Record.encode) js ∧
      js.mapM Record.ofJson? = some rs := by
    clear hne
    induction rs with
    | nil => exact ⟨[], .nil, rfl⟩
    | cons r rs ih =>
      obtain ⟨js, hjs, hrecords⟩ := ih fun x hx => h x (List.mem_cons_of_mem r hx)
      obtain ⟨j, hj, hr⟩ := (h r List.mem_cons_self).exists_reads
      refine ⟨j :: js, .cons hj hjs, ?_⟩
      simp [hr, hrecords]
  exact load_of_parse (parse_written hjs (by simpa using hne)) hrecords

/-- The file of a log: nothing for the empty one. -/
def HistoryFile.ofLog (log : List Record) : Bytes :=
  if log = [] then [] else written (log.map Record.encode)

/-- An append to the file of a log gives the file of the longer log. -/
theorem HistoryFile.splice_ofLog (log : List Record) (r : Record) :
    splice (ofLog log) r.encode = .ok (ofLog (log ++ [r])) := by
  have hlonger : ofLog (log ++ [r]) = written ((log ++ [r]).map Record.encode) :=
    if_neg (by simp)
  rw [hlonger, ofLog]
  -- The first record makes the list, all others go into it.
  by_cases hlog : log = []
  · subst hlog
    exact splice_nil r.encode
  · rw [if_neg hlog, List.map_append]
    refine splice_written (by simpa using hlog) ?_ r.encode
    intro e he
    obtain ⟨x, -, rfl⟩ := List.mem_map.mp he
    exact x.endsInBrace_encode

theorem HistoryFile.load_nil : load [] = .ok [] := by
  simp [load, Blank.trim, Utf8.pieces]

theorem HistoryFile.load_ofLog {log : List Record} (h : ∀ r ∈ log, r.ReadsBack) :
    load (ofLog log) = .ok log := by
  unfold ofLog
  by_cases hlog : log = []
  · rw [if_pos hlog, hlog]
    exact load_nil
  · rw [if_neg hlog]
    exact load_written hlog h

theorem Journal.openWith_file {content : Option Bytes} {cap : Int} {loaded : List Record}
    (h : HistoryFile.load (content.getD []) = .ok loaded) :
    openWith (.file content) cap = .ok ⟨.ofRecords cap loaded, .file content⟩ := by
  cases content with
  | none =>
    rw [Option.getD_none, HistoryFile.load_nil] at h
    cases h
    rfl
  | some content =>
    rw [Option.getD_some] at h
    simp only [openWith, h]

/-! ## Stores that share a file -/

/-- A store that was opened on the file, the records that it loaded then, and those
    that were appended through it. -/
structure Session where
  store : Store
  cap : Int
  loaded : List Record
  own : List Record

/-- The file, the stores that are open on it, and the records that were appended, in
    order. -/
structure Sharing where
  content : Option Bytes
  sessions : List Session
  log : List Record

/-- A call on the file: to open a store with a cap, or to append a record through one
    of the stores, with the id that is fresh at that time. -/
inductive SharedCall where
  | opens (cap : Int)
  | appends (i : Nat) (fresh : Bytes) (r : Record)

namespace Sharing

/-- The content of a file. -/
def contentOf : Storage → Option Bytes
  | .memory => none
  | .file content => content

/-- One call. A call that fails does what it does to the file. -/
def step (s : Sharing) : SharedCall → Sharing
  | .opens cap =>
    match HistoryFile.load (s.content.getD []), Journal.openWith (.file s.content) cap with
    | .ok loaded, .ok j => { s with sessions := s.sessions ++ [⟨j.store, cap, loaded, []⟩] }
    | _, _ => s
  | .appends i fresh r =>
    match s.sessions[i]? with
    | none => s
    | some x =>
      let (answer, j) := Journal.append ⟨x.store, .file s.content⟩ fresh r
      let own := Journal.accepted [answer]
      ⟨contentOf j.storage, s.sessions.set i { x with store := j.store, own := x.own ++ own },
        s.log ++ own⟩

/-- The calls in order. -/
def run (s : Sharing) (calls : List SharedCall) : Sharing := calls.foldl step s

/-- The file holds the log, every store what it loaded and its own records, and what
    it loaded was the log of that time. -/
structure Sound (s : Sharing) : Prop where
  file : s.content.getD [] = HistoryFile.ofLog s.log
  holds : ∀ x ∈ s.sessions, x.store.Holds x.cap (x.loaded ++ x.own)
  loaded : (∀ r ∈ s.log, r.ReadsBack) → ∀ x ∈ s.sessions, x.loaded <+: s.log

variable {s : Sharing}

theorem sound_unused {content : Option Bytes} (h : content.getD [] = []) :
    Sound ⟨content, [], []⟩ where
  file := h
  holds := by simp
  loaded := by simp

theorem Sound.opens (h : s.Sound) (cap : Int) : (s.step (.opens cap)).Sound := by
  cases hload : HistoryFile.load (s.content.getD []) with
  | error problem =>
    simp only [step, hload]
    exact h
  | ok loaded =>
    simp only [step, hload, Journal.openWith_file hload]
    refine ⟨h.file, ?_, ?_⟩
    · intro x hx
      rcases List.mem_append.mp hx with hx | hx
      · exact h.holds x hx
      · rw [List.mem_singleton.mp hx, List.append_nil]
        exact .ofRecords cap loaded
    · intro hlog x hx
      rcases List.mem_append.mp hx with hx | hx
      · exact h.loaded hlog x hx
      · -- What is read back is the whole log of this time.
        have hall := HistoryFile.load_ofLog hlog
        rw [← h.file, hload, Except.ok.injEq] at hall
        rw [List.mem_singleton.mp hx]
        exact hall ▸ List.prefix_rfl

/-- An append to the file of a log succeeds, if the record has a status and can be
    written, and leaves the file of the longer log. -/
theorem append_ofLog {store : Store} {content : Option Bytes} {log : List Record}
    (h : content.getD [] = HistoryFile.ofLog log) {fresh : Bytes} {r : Record}
    (hstatus : r.status ≠ []) (hwritable : (r.identified fresh).isWritable = true) :
    Journal.append ⟨store, .file content⟩ fresh r =
      (.ok (r.identified fresh), ⟨store.add (r.identified fresh),
        .file (some (HistoryFile.ofLog (log ++ [r.identified fresh])))⟩) := by
  rw [Journal.append_file hstatus rfl, Journal.stored, h, if_pos hwritable,
    HistoryFile.splice_ofLog]

/-- What an append does to the file of a log: it is the file of the log with what was
    accepted. -/
theorem content_append {store : Store} (content : Option Bytes) (fresh : Bytes) (r : Record)
    {log : List Record} (h : content.getD [] = HistoryFile.ofLog log) :
    let (answer, j) := Journal.append ⟨store, .file content⟩ fresh r
    (contentOf j.storage).getD [] = HistoryFile.ofLog (log ++ Journal.accepted [answer]) := by
  by_cases hstatus : r.status = []
  · rw [Journal.append_of_no_status hstatus]
    simpa [contentOf] using h
  -- A record that cannot be written is refused before the file is touched.
  by_cases hwritable : (r.identified fresh).isWritable = true
  · rw [append_ofLog h hstatus hwritable]
    simp [contentOf, Journal.accepted, Except.toOption]
  · rw [Journal.append_file hstatus rfl, Journal.stored, h, if_neg hwritable]
    simp [contentOf]

theorem Sound.appends (h : s.Sound) (i : Nat) (fresh : Bytes) (r : Record) :
    (s.step (.appends i fresh r)).Sound := by
  cases hx : s.sessions[i]? with
  | none =>
    simp only [step, hx]
    exact h
  | some x =>
    have hmem := List.mem_of_getElem? hx
    simp only [step, hx]
    refine ⟨content_append s.content fresh r h.file, ?_, ?_⟩
    · intro y hy
      -- Only the store that appends gets the record; the log is longer for all.
      rcases List.mem_or_eq_of_mem_set hy with hy | rfl
      · exact h.holds y hy
      · show Store.Holds _ x.cap (x.loaded ++ (x.own ++ _))
        rw [← List.append_assoc]
        exact Journal.holds_append (j := ⟨x.store, .file s.content⟩) (h.holds x hmem) fresh r
    · intro hlog y hy
      have hbefore := h.loaded fun r hr => hlog r (List.mem_append_left _ hr)
      rcases List.mem_or_eq_of_mem_set hy with hy | rfl
      · exact (hbefore y hy).trans (List.prefix_append _ _)
      · exact (hbefore x hmem).trans (List.prefix_append _ _)

/-- A record that has a status and can be written is accepted, by whichever store. -/
theorem Sound.log_appends (h : s.Sound) {i : Nat} (hi : i < s.sessions.length) {fresh : Bytes}
    {r : Record} (hstatus : r.status ≠ [])
    (hwritable : (r.identified fresh).isWritable = true) :
    (s.step (.appends i fresh r)).log = s.log ++ [r.identified fresh] := by
  simp only [step, List.getElem?_eq_getElem hi, append_ofLog h.file hstatus hwritable]
  rfl

theorem Sound.run (h : s.Sound) (calls : List SharedCall) : (s.run calls).Sound := by
  induction calls generalizing s with
  | nil => exact h
  | cons call calls ih =>
    cases call with
    | opens cap => exact ih (h.opens cap)
    | appends i fresh r => exact ih (h.appends i fresh r)

end Sharing

/-- No record is lost, whoever writes it. Let stores be opened on a file that is absent
    or empty, and records be appended through them, in any order. Once a record was
    accepted, the file is the list of the texts of all that were, in order. Every store has
    what it loaded and then its own records, as far as its cap goes. If the texts of
    the records are read as the records, what a store loaded is the log of that time,
    and a store that is opened now has the last records of the log. A record that has a
    status and can be written is accepted at any time. -/
theorem sharedFile_holds_all (content : Option Bytes) (hunused : content.getD [] = [])
    (calls : List SharedCall) :
    let s := Sharing.run ⟨content, [], []⟩ calls
    (s.log ≠ [] → s.content = some (text "[\n  " ++
      Bytes.join (text ",\n  ") (s.log.map Record.encode) ++ text "\n]\n")) ∧
    (∀ x ∈ s.sessions, x.store.records = Store.kept x.cap (x.loaded ++ x.own)) ∧
    ((∀ r ∈ s.log, r.ReadsBack) →
      (∀ x ∈ s.sessions, x.loaded <+: s.log) ∧
      ∀ cap, ∃ j, Journal.openWith (.file s.content) cap = .ok j ∧
        j.store.records = Store.kept cap s.log) ∧
    (∀ i fresh r, i < s.sessions.length → r.status ≠ [] →
      (r.identified fresh).isWritable = true →
      (s.step (.appends i fresh r)).log = s.log ++ [r.identified fresh]) := by
  intro s
  have hsound : s.Sound := (Sharing.sound_unused hunused).run calls
  refine ⟨?_, fun x hx => (hsound.holds x hx).records, ?_,
    fun i fresh r hi hstatus hwritable => hsound.log_appends hi hstatus hwritable⟩
  · intro hlog
    have hfile := hsound.file
    rw [HistoryFile.ofLog, if_neg hlog] at hfile
    -- A log that is not empty is written, so the file is there.
    cases hcontent : s.content with
    | none =>
      rw [hcontent, Option.getD_none] at hfile
      exact absurd hfile.symm (HistoryFile.written_ne_nil _)
    | some content =>
      rw [hcontent, Option.getD_some] at hfile
      rw [hfile]
      rfl
  · intro hlog
    refine ⟨hsound.loaded hlog, fun cap => ?_⟩
    have hload := HistoryFile.load_ofLog hlog
    rw [← hsound.file] at hload
    exact ⟨_, Journal.openWith_file hload, (Store.Holds.ofRecords cap s.log).records⟩

/-- Three appends through two stores, the second of which keeps one record. A bracket
    stands in one of the texts. -/
def SharedCall.inTurn : List SharedCall :=
  [.opens 0, .opens 1,
    .appends 0 (text "a") { Record.blank with status := text "ok", output := text "[1]" },
    .appends 1 (text "b") { Record.blank with status := text "ok" },
    .appends 0 (text "c") { Record.blank with status := text "ok" }]

theorem sharedFile_holds_all_inTurn :
    let s := Sharing.run ⟨none, [], []⟩ SharedCall.inTurn
    s.log.map Record.id = [text "a", text "b", text "c"] ∧ (∀ r ∈ s.log, r.ReadsBack) ∧
      ∃ j, Journal.openWith (.file s.content) 2 = .ok j ∧
        j.store.records = Store.kept 2 s.log := by
  intro s
  have hreads : ∀ r ∈ s.log, r.ReadsBack := by decide +kernel
  have hshared := sharedFile_holds_all none rfl SharedCall.inTurn
  exact ⟨by decide +kernel, hreads, (hshared.2.2.1 hreads).2 2⟩

end Scriptlet

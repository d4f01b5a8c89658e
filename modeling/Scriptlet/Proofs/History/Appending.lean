/-
  Scriptlet.Proofs.History.Appending

  Which files that can be read can be appended to.

  A file is opened by reading it as a whole, and appended to by a look at its end. The
  two agree on what is a list: the bracket that the reading takes for the last one is the
  last one in the bytes, and a record that is put in front of it is read behind the
  others (`HistoryFile.load_splice`). They do not agree on what is a history. The reading
  takes a blank file and the word null for one without records, where there is no
  bracket; and white space may be as long as it likes, while the bracket and what stands
  in front of it are looked for in a window (`HistoryFile.Appendable`).
-/
import Scriptlet.Proofs.History.SharedFile

namespace Scriptlet

namespace HistoryFile

/-- The end of a list, from the last byte in front of its bracket that is no white space,
    is in the window. -/
def InSight (content : Bytes) : Prop :=
  ∃ front b gap tail, content = front ++ b :: (gap ++ 93 :: tail) ∧
    Blank.isBlank b.toNat = false ∧ Json.Blanks gap ∧ Json.Blanks tail ∧
    gap.length + tail.length + 2 ≤ window

/-- There is a place for a record: the file is empty, or it shows the end of a list. -/
def Appendable (content : Bytes) : Prop := content = [] ∨ InSight content

/-! ## White space -/

/-- White space of documents is white space of bytes. -/
theorem isBlank_of_blanks {gap : Bytes} (hgap : Json.Blanks gap) :
    ∀ b ∈ gap, Blank.isBlank b.toNat = true := by
  intro b hb
  have hblank := hgap b hb
  simp only [Json.isBlank, Bool.or_eq_true, beq_iff_eq] at hblank
  rcases hblank with ((rfl | rfl) | rfl) | rfl <;> decide

/-- A document does not end in white space, nor in the bracket that opens a list. -/
theorem solid_of_endsDocument {b : UInt8} (h : Json.endsDocument b = true) :
    Blank.isBlank b.toNat = false ∧ b ≠ 91 := by
  simp only [Json.endsDocument, Bool.or_eq_true, beq_iff_eq] at h
  -- A digit, or one of the last bytes of the other documents.
  rcases h with ((((hdigit | rfl) | rfl) | rfl) | rfl) | rfl
  · rw [Bytes.isDigit_iff] at hdigit
    refine ⟨?_, ?_⟩
    · rw [Bool.eq_false_iff]
      intro hblank
      simp [Blank.isBlank, Blank.ranges] at hblank
      omega
    · rintro rfl
      exact absurd hdigit (by decide)
  all_goals decide

/-! ## Splicing -/

theorem splice_of_inSight {content : Bytes} (h : InSight content) (element : Bytes) :
    ∃ longer, splice content element = .ok longer := by
  obtain ⟨front, b, gap, tail, rfl, hb, hgap, htail, hwindow⟩ := h
  rw [splice_bracket front hb (isBlank_of_blanks hgap) htail.bracket_not_mem element,
    if_neg (by omega), if_neg (by omega)]
  exact ⟨_, rfl⟩

/-- A splice fails for want of the bracket or of something in front of it. -/
theorem splice_error {content element : Bytes} {problem : HistoryProblem}
    (h : splice content element = .error problem) :
    problem = .missingBracket ∨ problem = .nothingBeforeBracket := by
  unfold splice at h
  split at h
  · cases h
  simp only at h
  split at h
  · cases h
    exact .inl rfl
  split at h
  · cases h
    exact .inr rfl
  · cases h

/-- What a splice leaves shows the end of its list. -/
theorem inSight_closing (front : Bytes) {element : Bytes} (helement : EndsInBrace element) :
    InSight (front ++ (element ++ closing)) := by
  obtain ⟨init, rfl⟩ := helement
  have hclosing : closing = [10] ++ 93 :: [10] := by decide
  have hblanks : Json.Blanks [10] := List.all_eq_true.mp (by decide)
  exact ⟨front ++ init, 125, [10], [10], by simp [hclosing], by decide, hblanks, hblanks, by decide⟩

/-! ## Lists of records -/

/-- The text of a list goes on behind its last byte, with a comma if that ends an item. -/
theorem exists_of_listStart {start : Bytes} {js : List Json} (h : Json.ListStart start js) :
    ∃ front b, start = front ++ [b] ∧ Blank.isBlank b.toNat = false ∧
      ∀ element j, Json.Reads 1 11 element j →
        Json.parse (front ++ b :: (separator b ++ element ++ closing)) =
          some (.list (js ++ [j])) := by
  let gap : Bytes := [10, 32, 32]
  have hgap : Json.Blanks gap := List.all_eq_true.mp (by decide)
  have htail : Json.Blanks [10] := List.all_eq_true.mp (by decide)
  have hclosing : closing = 10 :: 93 :: [10] := by decide
  have hneed : ∀ element : Bytes, 11 ≤ 2 * (gap ++ element).length + 6 := by
    intro element
    simp only [gap, List.length_append, List.length_cons, List.length_nil]
    omega
  cases h with
  | @bracket lead hlead =>
    refine ⟨lead, 91, rfl, by decide, fun element j helement => ?_⟩
    have hseparator : separator 91 = gap := by decide
    rw [hseparator, hclosing, List.append_assoc]
    exact Json.parse_singleton hlead hgap helement (hneed element) htail
  | @items lead body js hlead hends hreads =>
    -- An item never ends in the bracket that would be taken for an empty list.
    obtain ⟨init, b, rfl, hb⟩ := hends
    obtain ⟨hsolid, hopen⟩ := solid_of_endsDocument hb
    refine ⟨lead ++ 91 :: init, b, by simp, hsolid, fun element j helement => ?_⟩
    have hseparator : separator b = 44 :: gap := by
      rw [separator, if_neg (by simpa using hopen)]
      decide
    have hparse := Json.parse_concat hlead hreads hgap helement (hneed element) htail
    rw [hseparator, hclosing]
    simp only [List.append_assoc, List.cons_append, List.nil_append] at hparse ⊢
    exact hparse

/-- What is read as a history without a bracket has no records; else it is a list. -/
theorem load_cases {content : Bytes} {loaded : List Record} (h : load content = .ok loaded) :
    (loaded = [] ∧ (93 : UInt8) ∉ content) ∨
      ∃ js, Json.parse content = some (.list js) ∧ js.mapM Record.ofJson? = some loaded := by
  unfold load at h
  split at h
  · rename_i hblank
    cases h
    refine .inl ⟨rfl, fun hmem => ?_⟩
    have hsolid := Blank.trim_ne_nil (by decide : (93 : UInt8) < 0x80) (by decide) hmem
    exact hsolid (List.isEmpty_iff.mp hblank)
  split at h
  · rename_i rs hrecords
    cases h
    obtain ⟨document, hparse, hlist⟩ := Option.bind_eq_some_iff.mp hrecords
    unfold Record.listOfJson? at hlist
    split at hlist
    · cases hlist
      exact .inl ⟨rfl, Json.bracket_not_mem_of_parse_null hparse⟩
    · -- A list is all that is left, for the rest is no history.
      exact .inr ⟨_, hparse, hlist⟩
    · cases hlist
  · cases h

/-- Where an element is put into a history: the file is empty, or it goes behind the last
    item of a list that ends in the window. -/
theorem exists_of_splice {content element longer : Bytes} {loaded : List Record}
    (h : load content = .ok loaded) (hsplice : splice content element = .ok longer) :
    (content = [] ∧ loaded = [] ∧ longer = written [element]) ∨
    (InSight content ∧ ∃ front, longer = front ++ (element ++ closing) ∧
      ∃ js, js.mapM Record.ofJson? = some loaded ∧
        ∀ j, Json.Reads 1 11 element j → Json.parse longer = some (.list (js ++ [j]))) := by
  rcases load_cases h with ⟨hloaded, hbracket⟩ | ⟨js, hparse, hloaded⟩
  · by_cases hne : content = []
    · rw [hne, splice_nil, Except.ok.injEq] at hsplice
      exact .inl ⟨hne, hloaded, hsplice.symm⟩
    · rw [splice_of_no_bracket hne fun hmem => hbracket (List.mem_of_mem_drop hmem)] at hsplice
      cases hsplice
  · -- The splice looks at the bytes that the reading took for the end of the list.
    obtain ⟨start, gap, tail, rfl, hgap, htail, hstart⟩ := Json.exists_of_parse_list hparse
    obtain ⟨front, b, rfl, hb, hconcat⟩ := exists_of_listStart hstart
    rw [List.append_assoc, List.singleton_append,
      splice_bracket front hb (isBlank_of_blanks hgap) htail.bracket_not_mem] at hsplice
    split at hsplice
    · cases hsplice
    split at hsplice
    · cases hsplice
    rename_i hnear
    rw [Except.ok.injEq] at hsplice
    subst hsplice
    refine .inr ⟨⟨front, b, gap, tail, by simp, hb, hgap, htail, by omega⟩,
      front ++ b :: separator b, by simp, js, hloaded, hconcat element⟩

/-- A history can be appended to where its file shows a place. -/
theorem splice_ok_iff {content : Bytes} {loaded : List Record} (h : load content = .ok loaded)
    (element : Bytes) : (∃ longer, splice content element = .ok longer) ↔ Appendable content := by
  constructor
  · rintro ⟨longer, hsplice⟩
    -- A splice that succeeds says where the record went.
    rcases exists_of_splice h hsplice with ⟨hempty, -⟩ | ⟨hseen, -⟩
    · exact .inl hempty
    · exact .inr hseen
  · rintro (rfl | hseen)
    · exact ⟨_, splice_nil element⟩
    · exact splice_of_inSight hseen element

/-- A record that is spliced into a history is read behind the others, and the next one
    has its place. -/
theorem load_splice {content longer : Bytes} {loaded : List Record} (h : load content = .ok loaded)
    {r : Record} (hr : r.ReadsBack) (hsplice : splice content r.encode = .ok longer) :
    load longer = .ok (loaded ++ [r]) ∧ InSight longer := by
  rcases exists_of_splice h hsplice with
    ⟨-, rfl, rfl⟩ | ⟨-, front, hlonger, js, hloaded, hparse⟩
  · -- The empty file becomes the list of the one record.
    have hload := load_written (List.cons_ne_nil r []) (by simpa using hr)
    rw [List.map_singleton] at hload
    have hseen := inSight_closing (text "[\n  ") r.endsInBrace_encode
    rw [← List.append_assoc] at hseen
    rw [List.nil_append]
    refine ⟨hload, ?_⟩
    rwa [written, Bytes.join, List.intercalate_singleton]
  · obtain ⟨j, hj, hrecord⟩ := hr.exists_reads
    refine ⟨load_of_parse (hparse j hj) (by simp [hloaded, hrecord]), ?_⟩
    rw [hlonger]
    exact inSight_closing front r.endsInBrace_encode

end HistoryFile

/-! ## Appending -/

/-- Let a file be read as the history of some records. It is opened, and a record with a
    status whose text is read as the record can be appended if and only if the file is
    empty, or the last bracket and something in front of it are in the last bytes of the
    file. Then whoever opens the file has the records and this one behind them, and the
    file shows the place for the next. Otherwise the append says that the bracket is
    missing or has nothing in front, and the store and the file are what they were. -/
theorem Journal.append_opened {content : Option Bytes} {loaded : List Record}
    (hload : HistoryFile.load (content.getD []) = .ok loaded) (cap : Int) {fresh : Bytes}
    {r : Record} (hstatus : r.status ≠ []) (hwritable : (r.identified fresh).isWritable = true)
    (hreads : (r.identified fresh).ReadsBack) :
    ∃ j, openWith (.file content) cap = .ok j ∧
      (HistoryFile.Appendable (content.getD []) →
        ∃ longer, j.append fresh r = (.ok (r.identified fresh),
            ⟨j.store.add (r.identified fresh), .file (some longer)⟩) ∧
          HistoryFile.InSight longer ∧
          ∀ cap', openWith (.file (some longer)) cap' =
            .ok ⟨.ofRecords cap' (loaded ++ [r.identified fresh]), .file (some longer)⟩) ∧
      (¬ HistoryFile.Appendable (content.getD []) →
        ∃ problem, j.append fresh r = (.error problem, j) ∧
          (problem = .missingBracket ∨ problem = .nothingBeforeBracket)) := by
  refine ⟨⟨.ofRecords cap loaded, .file content⟩, openWith_file hload, ?_, ?_⟩
  · intro hplace
    -- The place is there, so the splice finds it.
    obtain ⟨longer, hsplice⟩ := (HistoryFile.splice_ok_iff hload _).mpr hplace
    obtain ⟨hlonger, hseen⟩ := HistoryFile.load_splice hload hreads hsplice
    refine ⟨longer, ?_, hseen, fun cap' => openWith_file hlonger⟩
    rw [append_file hstatus rfl, stored, if_pos hwritable, hsplice]
  · intro hplace
    cases hsplice : HistoryFile.splice (content.getD []) (r.identified fresh).encode with
    | ok longer => exact absurd ((HistoryFile.splice_ok_iff hload _).mp ⟨longer, hsplice⟩) hplace
    | error problem =>
      refine ⟨problem, ?_, HistoryFile.splice_error hsplice⟩
      -- A file that is not there is empty, and there is a place in it.
      cases content with
      | none => exact absurd (.inl rfl) hplace
      | some content =>
        rw [append_file hstatus rfl, stored, if_pos hwritable, hsplice]
        rfl

/-- A file with nothing but a line feed is a history without records, to which nothing
    can be appended. -/
theorem Journal.append_opened_blank :
    let blank := text "\n"
    let r : Record := { Record.blank with id := text "a", status := Record.succeeded }
    (HistoryFile.load blank = .ok [] ∧ r.isWritable = true ∧ r.ReadsBack) ∧
      ∃ j problem, openWith (.file (some blank)) 0 = .ok j ∧
        j.append [] r = (.error problem, j) := by
  intro blank r
  have hload : HistoryFile.load blank = .ok [] := by decide +kernel
  have hwritable : r.isWritable = true := by decide +kernel
  have hreads : r.ReadsBack := by decide +kernel
  have hplace : ¬ HistoryFile.Appendable blank := by
    rintro (hnil | ⟨front, b, gap, tail, hblank, -⟩)
    · exact absurd hnil (by decide)
    · have hbracket : (93 : UInt8) ∈ blank := by simp [hblank]
      exact absurd hbracket (by decide)
  obtain ⟨j, hopen, -, hfails⟩ :=
    @append_opened (some blank) [] hload 0 [] r (by decide) hwritable hreads
  obtain ⟨problem, happend, -⟩ := hfails hplace
  exact ⟨⟨hload, hwritable, hreads⟩, j, problem, hopen, happend⟩

end Scriptlet

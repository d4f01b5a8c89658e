/-
  Scriptlet.Proofs.Names

  One notion of a name. The host tests a name byte by byte before it registers a builtin or
  defines a global (`isVariableName`), the lexer scans a word and looks it up among the
  keywords, and the parser takes an identifier for an atom. They agree on every text: what
  lexes to one identifier of its own (`isVariableName_iff_tokenize`), what parses to it
  (`isVariableName_iff_parse`) and what some program mentions
  (`isVariableName_iff_mentioned`) are the names that the host may define, and a script that
  is such a name reads what was defined.
-/
import Scriptlet.Proofs.FrontEnds
import Scriptlet.Proofs.Grammar.Conservation
import Scriptlet.Proofs.Render.Proper

namespace Scriptlet

variable {name : Name}

/-! ## Names in texts -/

theorem isVariableName_iff_tokenize : isVariableName name = true ↔
    ∃ ts, tokenize name = .ok ts ∧ ts.map Token.lexeme = [.identifier name, .separator] := by
  refine ⟨exists_tokenize_name, ?_⟩
  rintro ⟨ts, hts, hlexemes⟩
  exact isValid_of_tokenize hts (.identifier name) (by rw [hlexemes]; exact List.mem_cons_self)

theorem isVariableName_iff_parse :
    isVariableName name = true ↔ parse name = .ok ⟨[.ident name]⟩ := by
  refine ⟨parse_name, fun h => ?_⟩
  -- A tree that is parsed is proper, so its names are those of variables.
  cases proper_of_parse h with
  | cons hx _ =>
    cases hx with
    | ident hname => exact hname

/-- Only an identifier leaves an identifier in a tree. -/
theorem Lexeme.identifier_mem_visible {ls : List Lexeme} :
    .identifier name ∈ visible ls ↔ .identifier name ∈ ls := by
  rw [visible, List.mem_map]
  constructor
  · rintro ⟨l, hl, hdecoded⟩
    cases l <;> cases hdecoded
    exact (List.mem_filter.mp hl).1
  · exact fun h => ⟨.identifier name, List.mem_filter.mpr ⟨h, rfl⟩, rfl⟩

/-- What the trees of programs mention, be it read, called, assigned to or declared, are
    just the variable names. -/
theorem isVariableName_iff_mentioned : isVariableName name = true ↔
    ∃ source p, parse source = .ok p ∧ .identifier name ∈ p.flatten := by
  constructor
  · exact fun h => ⟨name, _, parse_name h, List.mem_cons_self⟩
  · rintro ⟨source, p, hp, hmem⟩
    obtain ⟨ts, hts, d⟩ := parse_derives hp
    -- The derivation keeps every lexeme, so the identifier is one of the source.
    rw [← d.visible_eq, Lexeme.identifier_mem_visible] at hmem
    exact isValid_of_tokenize hts _ hmem

/-! ## Names that the host defines -/

/-- A value that scripts can hold is defined under the variable names. -/
theorem Interpreter.defineGlobals_singleton_iff (i : Interpreter) {h : HostValue}
    (hscalar : h.isScalar = true) :
    (∃ j, i.defineGlobals [(name, h)] = .ok j) ↔ isVariableName name = true := by
  rw [defineGlobals_iff, List.forall_mem_singleton, isDefinable, hscalar, Bool.and_true]

/-- A function is registered under the variable names, where the registry takes it. -/
theorem Registry.register_iff {r : Registry} {bytes : Bytes} (f : HostFunction)
    (hthawed : r.frozen = false) (hfree : Blank.trim bytes ∈ r.names → r.allowOverride = true) :
    (∃ r', r.register bytes (some f) = .ok r') ↔ isVariableName (Blank.trim bytes) = true := by
  constructor
  · rintro ⟨r', hr'⟩
    -- Whatever is registered was admitted, and so its name is valid.
    obtain ⟨-, -, hadmits, -⟩ := register_eq_ok.mp hr'
    exact hadmits.valid
  · exact fun hvalid => ⟨_, register_eq_ok.mpr ⟨f, rfl, ⟨hvalid, hthawed, hfree⟩, rfl⟩⟩

namespace Interpreter

/-- In a new interpreter, the name of a global is a script that reads it. -/
theorem New.run_global {i j : Interpreter} (hi : i.New) {globals : List (Bytes × HostValue)}
    (hdistinct : DistinctNames globals) (hj : i.defineGlobals globals = .ok j) {h : HostValue}
    (hmem : (name, h) ∈ globals) :
    ∃ identity v, h.toValue identity = .ok v ∧ ∀ o : Occasion, 3 ≤ o.fuel →
      (j.run o name).outcome = .value (v.named name).unwrap.unwrap ∧
        (j.run o name).output = [] := by
  obtain ⟨identity, v, hv, hlookup⟩ := hi.lookup?_defineGlobals hdistinct hj hmem
  have hdefinable := defineGlobals_iff.mp ⟨j, hj⟩ (name, h) hmem
  rw [isDefinable, Bool.and_eq_true] at hdefinable
  -- A new interpreter has no cache, and globals do not give it one.
  have hcache : j.cache = none := (cache_of_defineGlobals hj).trans hi.cache
  refine ⟨identity, v, hv, fun o hfuel => ?_⟩
  exact run_name hdefinable.1 (by simp [hcache]) hfuel hlookup

/-- In a new interpreter, the name of a builtin is a script that reads it. -/
theorem run_builtin {r : Registry} (hr : r.Sound) {f : HostFunction}
    (hf : r.table.lookup name = some f) :
    ∃ identity, ∀ o : Occasion, 3 ≤ o.fuel →
      ((ofRegistry r).run o name).outcome = .value (.builtin identity name f) ∧
        ((ofRegistry r).run o name).output = [] := by
  obtain ⟨identity, hlookup⟩ := (Registry.shown_ofRegistry hr).builtin name f hf
  have hname : isVariableName name = true :=
    hr.valid name (Registry.lookup_isSome_iff.mp (by rw [hf]; rfl))
  have hcache : (ofRegistry r).cache = none := rfl
  exact ⟨identity, fun o hfuel => run_name hname (by simp [hcache]) hfuel hlookup⟩

end Interpreter

/-! ## All names -/

/-- For every text:

    - it passes the test for the names of builtins and globals exactly if it is one
      identifier and the separator to the lexer, exactly if it is that identifier to the
      parser, and exactly if some program mentions it;
    - a global can be defined under it, with any value that scripts can hold, exactly if it
      passes, and a builtin can be registered, where the registry takes the name, exactly if
      it passes without the white space around it;
    - where it names a global or a builtin of a new interpreter, it is a script that has the
      value of that and writes nothing. -/
theorem names_agree (s : Bytes) :
    (isVariableName s = true ↔
      ∃ ts, tokenize s = .ok ts ∧ ts.map Token.lexeme = [.identifier s, .separator]) ∧
    (isVariableName s = true ↔ parse s = .ok ⟨[.ident s]⟩) ∧
    (isVariableName s = true ↔
      ∃ source p, parse source = .ok p ∧ .identifier s ∈ p.flatten) ∧
    (∀ (i : Interpreter) (h : HostValue), h.isScalar = true →
      ((∃ j, i.defineGlobals [(s, h)] = .ok j) ↔ isVariableName s = true)) ∧
    (∀ (r : Registry) (f : HostFunction), r.frozen = false →
      (Blank.trim s ∈ r.names → r.allowOverride = true) →
      ((∃ r', r.register s (some f) = .ok r') ↔ isVariableName (Blank.trim s) = true)) ∧
    (∀ (i j : Interpreter) (globals : List (Bytes × HostValue)) (h : HostValue), i.New →
      DistinctNames globals → i.defineGlobals globals = .ok j → (s, h) ∈ globals →
      ∃ identity v, h.toValue identity = .ok v ∧ ∀ o : Occasion, 3 ≤ o.fuel →
        (j.run o s).outcome = .value (v.named s).unwrap.unwrap ∧ (j.run o s).output = []) ∧
    (∀ (r : Registry) (f : HostFunction), r.Sound → r.table.lookup s = some f →
      ∃ identity, ∀ o : Occasion, 3 ≤ o.fuel →
        ((Interpreter.ofRegistry r).run o s).outcome = .value (.builtin identity s f) ∧
          ((Interpreter.ofRegistry r).run o s).output = []) := by
  -- One lemma for each place that looks at names.
  refine ⟨isVariableName_iff_tokenize, isVariableName_iff_parse, isVariableName_iff_mentioned,
    fun i h => i.defineGlobals_singleton_iff, fun r f => Registry.register_iff f,
    fun i j globals h hi hdistinct hj hmem => hi.run_global hdistinct hj hmem,
    fun r f hr hf => Interpreter.run_builtin hr hf⟩

/-- A name that starts like a keyword can be registered, and can be read as a global and as
    a builtin. -/
theorem names_agree_endless :
    let name := text "endless"
    let r : Registry := ⟨[(name, .out)], false, false⟩
    parse name = .ok ⟨[.ident name]⟩ ∧ (∃ r', Registry.initial.register name (some .out) = .ok r') ∧
      (∃ j, (Interpreter.ofRegistry .initial).defineGlobals [(name, .int 7)] = .ok j ∧
        (j.run (.plain .bare) name).outcome = .value (.int 7)) ∧
      ∃ identity, ((Interpreter.ofRegistry r).run (.plain .bare) name).outcome =
        .value (.builtin identity name .out) := by
  intro name r
  have hname : isVariableName name = true := by decide
  have hfuel : 3 ≤ (Occasion.plain .bare).fuel := by decide
  have hnew := Interpreter.new_ofRegistry Registry.sound_initial
  have htrim : Blank.trim name = name := Blank.trim_of_identifier (by decide)
  have hunknown : name ∉ Registry.initial.names := by
    rw [Registry.mem_names]
    decide
  have hsound : r.Sound := ⟨by decide, by decide⟩
  obtain ⟨-, hparse, -, hglobal, hregister, hread, hbuiltin⟩ := names_agree name
  obtain ⟨j, hj⟩ := (hglobal (.ofRegistry .initial) (.int 7) rfl).mpr hname
  obtain ⟨_, v, hv, hrun⟩ := hread (.ofRegistry .initial) j [(name, .int 7)] (.int 7) hnew
    (List.nodup_singleton _) hj List.mem_cons_self
  cases hv
  obtain ⟨identity, hbuilt⟩ := hbuiltin r .out hsound (by decide)
  rw [htrim] at hregister
  exact ⟨hparse.mp hname, (hregister .initial .out rfl fun h => absurd h hunknown).mpr hname,
    ⟨j, hj, (hrun _ hfuel).1⟩, identity, (hbuilt _ hfuel).1⟩

end Scriptlet

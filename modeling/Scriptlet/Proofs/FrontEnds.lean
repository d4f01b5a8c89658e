/-
  Scriptlet.Proofs.FrontEnds

  One configuration on the command line and in a service.

  Both define the globals of the configuration in a new interpreter and run the script
  there. The log and the cache of an interpreter have no part in what comes of a run
  (`Interpreter.attempt_equipped`), and no request changes what the next one starts from
  (`Service.RunsOn.after`). One difference is left: a service defines the normal globals,
  with integers for whole numbers, and the command line those that were loaded
  (`CommandLine.perform_eq`, `Service.RunsOn.perform_eq`). A script that is just the name of
  a global shows it, since loaded globals have distinct names (`Config.distinct_of_ofText`).
-/
import Scriptlet.Proofs.Globals
import Scriptlet.Proofs.Grammar.Pieces
import Scriptlet.Proofs.Registry
import Scriptlet.Proofs.Service

namespace Scriptlet

/-! ## Names of loaded globals -/

/-- No two globals have the same name. -/
def DistinctNames (globals : List (Bytes × HostValue)) : Prop := (globals.map Prod.fst).Nodup

section DistinctNames

variable {globals : List (Bytes × HostValue)}

theorem distinctNames_nil : DistinctNames [] := List.nodup_nil

/-- A global in the place of all others of its name. -/
theorem DistinctNames.replaced (h : DistinctNames globals) (name : Bytes) (v : HostValue) :
    DistinctNames (globals.filter (fun e => e.1 != name) ++ [(name, v)]) := by
  rw [DistinctNames, List.map_append, List.map_singleton, List.nodup_append]
  refine ⟨h.sublist (List.filter_sublist.map Prod.fst), List.nodup_singleton _, ?_⟩
  -- The filter has taken the name out, so what is left does not have it.
  intro a ha b hb
  obtain ⟨e, he, rfl⟩ := List.mem_map.mp ha
  rw [List.mem_singleton.mp hb]
  simpa using (List.mem_filter.mp he).2

theorem DistinctNames.normal (h : DistinctNames globals) :
    DistinctNames (normalGlobals globals) := by
  rw [DistinctNames, normalGlobals, List.map_map]
  exact h

theorem DistinctNames.sort (h : DistinctNames globals) : DistinctNames (sortGlobals globals) :=
  ((List.mergeSort_perm globals _).map Prod.fst).nodup_iff.mpr h

/-- What every step keeps, a fold keeps that comes to an end. -/
theorem foldlM_keeps {α β : Type} {P : α → Prop} {step : α → β → Option α}
    (hstep : ∀ a x b, P a → step a x = some b → P b) {xs : List β} {a b : α} (ha : P a)
    (h : xs.foldlM step a = some b) : P b := by
  induction xs generalizing a with
  | nil =>
    cases h
    exact ha
  | cons x xs ih =>
    rw [List.foldlM_cons] at h
    obtain ⟨c, hc, hrest⟩ := Option.bind_eq_some_iff.mp h
    exact ih (hstep a x c ha hc) hrest

end DistinctNames

namespace Config.Reader

/-- Documents of this kind are taken apart field by field, and the names of their globals
    stay distinct. -/
structure Lawful {δ : Type} (r : Reader δ) : Prop where
  fields : ∀ {α : Type} {P : α → Prop} {step : Bytes → δ → α → Option α},
    (∀ key d a b, P a → step key d a = some b → P b) →
    ∀ {d a b}, P a → r.fields step d a = some b → P b
  globals : ∀ {former d globals}, DistinctNames former → r.globals former d = some globals →
    DistinctNames globals

theorem lawful_json : json.Lawful where
  fields {α P step} hstep d a b ha h := by
    replace h : Json.foldFields step d a = some b := h
    unfold Json.foldFields at h
    split at h
    · cases h
      exact ha
    · exact foldlM_keeps (fun a field b => hstep _ _ a b) ha h
    · cases h
  globals {former d globals} hformer h := by
    replace h : d.toHostFields? former = some globals := h
    unfold Json.toHostFields? at h
    split at h
    · cases h
      exact distinctNames_nil
    · -- Each field replaces an earlier one of its name.
      refine foldlM_keeps (fun acc field acc' hacc hstep => ?_) hformer h
      obtain ⟨v, -, rfl⟩ := Option.map_eq_some_iff.mp hstep
      exact hacc.replaced field.1 v
    · cases h

theorem foldEntries_keeps {α : Type} {P : α → Prop} {step : Bytes → Yaml → α → Option α}
    (hstep : ∀ key y a b, P a → step key y a = some b → P b) {y : Yaml} {a b : α} (ha : P a)
    (h : y.foldEntries step a = some b) : P b := by
  unfold Yaml.foldEntries at h
  split at h
  · cases h
    exact ha
  · obtain ⟨entries, -, hfold⟩ := Option.bind_eq_some_iff.mp h
    exact foldlM_keeps (fun a e b => hstep _ _ a b) ha hfold

theorem lawful_yaml : yaml.Lawful where
  fields hstep _ _ _ ha h := foldEntries_keeps hstep ha h
  globals {former d globals} _ h := by
    replace h : d.toHostFields? = some globals := h
    refine foldEntries_keeps (fun key y acc acc' hacc hstep => ?_) distinctNames_nil h
    obtain ⟨v, -, rfl⟩ := Option.map_eq_some_iff.mp hstep
    exact hacc.replaced key v

variable {δ : Type} {r : Reader δ} {key : Bytes} {d : δ} {c c' : Config}

/-- The other sections leave the globals alone. -/
theorem globals_of_section {step : Bytes → δ → Config → Option Config}
    (hstep : step = r.runtime ∨ step = r.cache ∨ step = r.server ∨ step = r.history)
    (h : step key d c = some c') : c'.globals = c.globals := by
  rcases hstep with rfl | rfl | rfl | rfl
  all_goals
    simp only [runtime, cache, server, history] at h
    repeat' split at h
    -- Each section sets fields of its own, or nothing.
    all_goals first
      | cases h; rfl
      | obtain ⟨_, -, rfl⟩ := Option.map_eq_some_iff.mp h; rfl

theorem Lawful.distinct_of_topLevel (hr : r.Lawful) (hc : DistinctNames c.globals)
    (h : r.topLevel key d c = some c') : DistinctNames c'.globals := by
  have hother {step : Bytes → δ → Config → Option Config}
      (hstep : step = r.runtime ∨ step = r.cache ∨ step = r.server ∨ step = r.history)
      (hfields : r.fields step d c = some c') : DistinctNames c'.globals := by
    refine hr.fields (P := fun c => DistinctNames c.globals) (fun _ _ a b ha hb => ?_) hc hfields
    rwa [globals_of_section hstep hb]
  unfold topLevel at h
  repeat' split at h
  · exact hother (.inl rfl) h
  · exact hother (.inr (.inl rfl)) h
  · exact hother (.inr (.inr (.inl rfl))) h
  · exact hother (.inr (.inr (.inr rfl))) h
  · -- The section of the globals is the one that matters.
    obtain ⟨globals, hglobals, rfl⟩ := Option.map_eq_some_iff.mp h
    exact hr.globals hc hglobals
  · cases h
    exact hc

theorem Lawful.distinct_of_read (hr : r.Lawful) (h : r.read d = some c) :
    DistinctNames c.globals :=
  hr.fields (P := fun c => DistinctNames c.globals)
    (fun _ _ _ _ => hr.distinct_of_topLevel) distinctNames_nil h

end Config.Reader

/-- The globals of a configuration that loads have distinct names, in every format. -/
theorem Config.distinct_of_ofText {environment : Bytes → Bytes} {format content : Bytes}
    {bcl : Decoder} {c : Config} (h : ofText environment format content bcl = .ok c) :
    DistinctNames c.globals := by
  unfold ofText decodeValid at h
  repeat' split at h
  all_goals first | cases h | skip
  rename_i f _ _ c₀ hdecode
  obtain ⟨rfl, -⟩ := not_isKeyword_of_validate h
  cases f with
  | json =>
    obtain ⟨_, -, hread⟩ := Option.bind_eq_some_iff.mp hdecode
    exact Reader.lawful_json.distinct_of_read hread
  | yaml =>
    obtain ⟨_, -, hread⟩ := Option.bind_eq_some_iff.mp hdecode
    exact Reader.lawful_yaml.distinct_of_read hread
  | bcl => exact bcl.distinct hdecode

/-! ## The value of a global -/

section Defining

variable {i : ScopeId} {globals : List (Bytes × HostValue)} {g : Bytes × HostValue}
  {s t : Scopes} {k k' : Nat}

/-- The first global is bound, and then the others are. -/
theorem defineAll_cons_ok (h : defineAll i (g :: globals) s k = .ok (t, k')) :
    ∃ v, g.2.toValue k = .ok v ∧
      defineAll i globals (s.define i g.1 (v.named g.1)) (k + 1) = .ok (t, k') := by
  obtain ⟨name, x⟩ := g
  unfold defineAll at h
  split at h
  · cases h
  · split at h
    · cases h
    · rename_i v hv
      exact ⟨v, hv, h⟩

/-- What every binding of one of the names keeps, binding them all keeps. -/
theorem defineAll_keeps {P : Scopes → Prop}
    (hdefine : ∀ s, ∀ g ∈ globals, ∀ v, P s → P (s.define i g.1 v)) (hs : P s)
    (h : defineAll i globals s k = .ok (t, k')) : P t := by
  induction globals generalizing s k with
  | nil =>
    cases h
    exact hs
  | cons g globals ih =>
    obtain ⟨v, -, hrest⟩ := defineAll_cons_ok h
    exact ih (fun s x hx => hdefine s x (List.mem_cons_of_mem g hx))
      (hdefine s g List.mem_cons_self _ hs) hrest

theorem size_defineAll (h : defineAll i globals s k = .ok (t, k')) : t.size = s.size :=
  defineAll_keeps (P := fun u => u.size = s.size) (fun _ _ _ _ => Scopes.size_define.trans) rfl h

theorem outer?_defineAll (h : defineAll i globals s k = .ok (t, k')) (j : ScopeId) :
    t.outer? j = s.outer? j :=
  defineAll_keeps (P := fun u => u.outer? j = s.outer? j)
    (fun _ _ _ _ => Scopes.outer?_define.trans) rfl h

theorem own?_defineAll_of_not_mem {name : Name} (h : defineAll i globals s k = .ok (t, k'))
    (hname : name ∉ globals.map Prod.fst) : t.own? i name = s.own? i name := by
  refine defineAll_keeps (P := fun u => u.own? i name = s.own? i name) ?_ rfl h
  intro u g hg v hu
  -- The name bound is that of a global, so it is another one.
  have hne : name ≠ g.1 := fun heq => hname (List.mem_map.mpr ⟨g, hg, heq.symm⟩)
  rw [Scopes.own?_define_ne hne, hu]

/-- A global is bound to the value that its host value stands for. -/
theorem own?_defineAll (hi : i < s.size) (h : defineAll i globals s k = .ok (t, k'))
    (hdistinct : DistinctNames globals) (hg : g ∈ globals) :
    ∃ identity v, g.2.toValue identity = .ok v ∧ t.own? i g.1 = some (v.named g.1) := by
  induction globals generalizing s k with
  | nil => cases hg
  | cons x globals ih =>
    obtain ⟨hnew, hrest⟩ := List.nodup_cons.mp hdistinct
    obtain ⟨v, hv, hdefine⟩ := defineAll_cons_ok h
    rcases List.mem_cons.mp hg with rfl | hg
    · -- No later global has its name.
      refine ⟨k, v, hv, ?_⟩
      rw [own?_defineAll_of_not_mem hdefine hnew, Scopes.own?_define_self hi]
    · exact ih (by rwa [Scopes.size_define]) hdefine hrest hg

end Defining

namespace Interpreter

variable {i j : Interpreter} {globals : List (Bytes × HostValue)} {g : Bytes × HostValue}

/-- The interpreter is new: its global scope is a root, and it has no cache. -/
structure New (i : Interpreter) : Prop where
  size : globalScope < i.scopes.size
  root : i.scopes.outer? globalScope = none
  cache : i.cache = none

theorem new_ofRegistry {r : Registry} (h : r.Sound) : (ofRegistry r).New where
  size := Scopes.lt_size_of_get? (Registry.get?_pushGlobal h Scopes.empty 0).1
  root := (Registry.shown_ofRegistry h).root
  cache := rfl

/-- In a new interpreter, a global has the value that its host value stands for. -/
theorem New.lookup?_defineGlobals (hi : i.New) (hdistinct : DistinctNames globals)
    (h : i.defineGlobals globals = .ok j) (hg : g ∈ globals) :
    ∃ identity v, g.2.toValue identity = .ok v ∧
      j.scopes.lookup? globalScope g.1 = some (v.named g.1) := by
  unfold defineGlobals at h
  split at h
  · rename_i scopes identities hdefine
    cases h
    -- Globals are defined in the order of their names, which are distinct in any order.
    obtain ⟨identity, v, hv, hown⟩ := own?_defineAll hi.size hdefine hdistinct.sort
      (List.mem_mergeSort.mpr hg)
    refine ⟨identity, v, hv, ?_⟩
    rw [Scopes.lookup?_of_root, hown]
    · rw [size_defineAll hdefine]
      exact hi.size
    · rw [outer?_defineAll hdefine, hi.root]
  · cases h

end Interpreter

/-! ## Scripts that are a name -/

/-- A variable name is one token of its own. -/
theorem exists_tokenize_name {name : Name} (h : isVariableName name = true) :
    ∃ ts, tokenize name = .ok ts ∧ ts.map Token.lexeme = [.identifier name, .separator] := by
  rw [isVariableName, Bool.and_eq_true, Bool.not_eq_true'] at h
  obtain ⟨hname, hkeyword⟩ := h
  -- A name does not end in a line break, so the reader adds one.
  have hcompleted : completed name = name ++ [10] := by
    have hlast := not_mem_getLast? (isIdentifierPart_of_mem hname) (by decide)
    rw [completed, if_neg (by simpa using hlast)]
  refine exists_tokenize_iff.mpr ⟨true, ?_⟩
  have hword : Lexeme.word name = .identifier name := by simp [Lexeme.word, hkeyword]
  rw [hcompleted, ← hword]
  exact .word hname (stops_cons.mpr (by decide)) (.newline .stop)

theorem parse_name {name : Name} (h : isVariableName name = true) :
    parse name = .ok ⟨[.ident name]⟩ := by
  obtain ⟨ts, hts, hlexemes⟩ := exists_tokenize_name h
  refine parse_of_derives hts ?_
  rw [hlexemes]
  exact .line rfl (.expression (.atom .ident (.uncalled (by decide))) (.climbed trivial)) .finished

namespace Interpreter

variable {i : Interpreter} {o : Occasion} {globals : List (Bytes × HostValue)}

/-- A script that is the name of a global has its value and writes nothing. The value loses
    the mark of a return on its way out of the program and of the run. -/
theorem run_name {name : Name} {v : Value} (hname : isVariableName name = true)
    (hcache : ∀ c, i.cache = some c → c.Sound) (hfuel : 3 ≤ o.fuel)
    (hlookup : i.scopes.lookup? globalScope name = some v) :
    (i.run o name).outcome = .value v.unwrap.unwrap ∧ (i.run o name).output = [] := by
  obtain ⟨j, hparse, hsame, -⟩ := parse_of_sound hcache name
  rw [parse_name hname] at hparse
  have hscopes : j.withoutCache.scopes = i.withoutCache.scopes := by rw [hsame]
  -- One unit of fuel each for the program, its statement and the end of the statements.
  obtain ⟨n, hn⟩ := Nat.exists_eq_add_of_le' hfuel
  have ho : o = { o with fuel := n + 2 + 1 } := by
    rw [← hn]
  have heval : evalSequence (j.setting o) (n + 2) 0 globalScope [.ident name] (.bool false)
      j.initial = ⟨.value v, j.initial⟩ := by
    have hread : j.initial.read globalScope name = ⟨.value v, j.initial⟩ := by
      have hscope : j.initial.scopes = i.scopes := hscopes
      rw [State.read, hscope, hlookup]
    simp only [evalSequence, eval, hread, Result.andThen, ite_self]
  rw [ho, run_succ hparse, heval]
  exact ⟨rfl, rfl⟩

/-! ## Runs in a new interpreter -/

/-- The outcome and the output of a script in an interpreter that may not have come about. -/
def attempt (x : Except Fault Interpreter) (o : Occasion) (source : Bytes) : Outcome × Bytes :=
  match x with
  | .error f => (.fault f, [])
  | .ok i =>
    let report := i.run o source
    (report.outcome, report.output)

/-- A log and a sound cache make no difference to a run. -/
theorem run_equipped (hi : i.cache = none) (hasLogger : Bool) {cache : Option ProgramCache}
    (hcache : ∀ c, cache = some c → c.Sound) (o : Occasion) (source : Bytes) :
    (({ i with hasLogger, cache } : Interpreter).run o source).outcome = (i.run o source).outcome ∧
      (({ i with hasLogger, cache } : Interpreter).run o source).output =
        (i.run o source).output := by
  obtain ⟨j, hparse, hsame, -⟩ :=
    parse_of_sound (i := { i with hasLogger, cache }) hcache source
  have hj : j = { i with hasLogger, cache := j.cache } := by
    -- The interpreter after reading differs in its cache only.
    obtain ⟨scopes, identities, sink, limits, logger, cache'⟩ := j
    obtain ⟨⟩ := i
    cases hsame
    rfl
  rw [run_eq_reportOn hparse, run_eq_reportOn (parse_uncached hi), hj]
  cases Scriptlet.parse source with
  | error f => exact ⟨rfl, rfl⟩
  | ok p => exact ⟨rfl, rfl⟩

theorem attempt_equipped {x : Except Fault Interpreter} (hx : ∀ i, x = .ok i → i.cache = none)
    (hasLogger : Bool) {cache : Option ProgramCache} (hcache : ∀ c, cache = some c → c.Sound)
    (o : Occasion) (source : Bytes) :
    attempt (x.map fun i => { i with hasLogger, cache }) o source = attempt x o source := by
  cases x with
  | error f => rfl
  | ok i =>
    obtain ⟨houtcome, houtput⟩ := run_equipped (hx i rfl) hasLogger hcache o source
    exact Prod.ext houtcome houtput

theorem defineGlobals_nil (i : Interpreter) : i.defineGlobals [] = .ok i := by
  simp [defineGlobals, sortGlobals, defineAll]

/-- In a new interpreter with globals, the name of a number is a script with this number as
    its value. -/
theorem New.attempt_name (hi : i.New) {name : Name} {h : HostValue} {v : Value}
    (hglobals : ∀ g ∈ globals, isDefinable g = true) (hdistinct : DistinctNames globals)
    (hmem : (name, h) ∈ globals) (hv : ∀ identity, h.toValue identity = .ok v)
    (hnumber : v.isNumber = true) (hfuel : 3 ≤ o.fuel) :
    attempt (i.defineGlobals globals) o name = (.value v, []) := by
  -- All globals are defined, and the interpreter is otherwise as it was.
  obtain ⟨j, hj⟩ := (defineGlobals_iff (j := i)).mpr hglobals
  obtain ⟨identity, w, hw, hlookup⟩ := hi.lookup?_defineGlobals hdistinct hj hmem
  cases (hv identity).symm.trans hw
  have hname : isVariableName name = true := by
    have hdefinable := hglobals (name, h) hmem
    rw [isDefinable, Bool.and_eq_true] at hdefinable
    exact hdefinable.1
  -- A number has no name of its own and carries no mark.
  have hplain : v.named name = v ∧ v.unwrap.unwrap = v := by
    cases v <;> first | exact ⟨rfl, rfl⟩ | cases hnumber
  have hcache : j.cache = none := (cache_of_defineGlobals hj).trans hi.cache
  rw [hplain.1] at hlookup
  obtain ⟨houtcome, houtput⟩ := run_name hname (by simp [hcache]) hfuel hlookup
  rw [hplain.2] at houtcome
  rw [hj]
  exact Prod.ext houtcome houtput

end Interpreter

/-! ## What a service runs on -/

namespace Service

variable {s : Service} {terms : Terms} {v : Visit}

/-- The service has these terms, and the programs in its cache are parses. The history may
    be anything. -/
structure RunsOn (s : Service) (terms : Terms) : Prop where
  registry : s.registry = terms.registry
  limits : s.limits = terms.limits
  globals : s.globals = normalGlobals terms.globals
  cache : ∀ c, s.cache = some c → c.Sound

theorem runsOn_ofConfig {registry : Registry} {c : Config} {storage : Storage}
    (h : ofConfig registry c storage = .ok s) : s.RunsOn ⟨registry, c.limits, c.globals⟩ := by
  unfold ofConfig ProgramCache.ofCapacity at h
  repeat' split at h
  all_goals cases h
  · -- With a cache of programs, which is empty at first.
    rename_i hcache
    split at hcache
    · cases hcache
    · cases hcache
      exact ⟨rfl, rfl, rfl, by rintro _ ⟨⟩; exact nofun⟩
  · exact ⟨rfl, rfl, rfl, nofun⟩

theorem Terms.new_fresh (h : terms.registry.Sound) : terms.fresh.New :=
  have hnew := Interpreter.new_ofRegistry h
  ⟨hnew.size, hnew.root, hnew.cache⟩

namespace RunsOn

/-- Without its history the service is one that has kept it in memory. -/
theorem stands (h : s.RunsOn terms) :
    ({ s with journal := Journal.inMemory } : Service).Stands terms 0 [] where
  registry := h.registry
  limits := h.limits
  globals := h.globals
  cache := h.cache
  memory := rfl
  history := .empty 0

/-- The history has no part in a run. -/
theorem execute (h : s.RunsOn terms) (m : Moment) (t : Task) :
    ∃ cache, s.execute m t = ((terms.run m t).1, (terms.run m t).2, cache) ∧
      ∀ c, cache = some c → c.Sound :=
  execute_eq h.stands m t

theorem run (h : s.RunsOn terms) (m : Moment) (t : Task) : (s.run m t).2.RunsOn terms := by
  obtain ⟨cache, hexecute, hcache⟩ := h.execute m t
  rw [Service.run, hexecute]
  dsimp only
  split
  · exact ⟨h.registry, h.limits, h.globals, hcache⟩
  · exact ⟨h.registry, h.limits, h.globals, hcache⟩

theorem forget (h : s.RunsOn terms) (keeps : Bytes × Program → Bool) :
    (s.forget keeps).RunsOn terms where
  registry := h.registry
  limits := h.limits
  globals := h.globals
  cache := (h.stands.forget keeps).cache

/-- No request changes what runs start from. -/
theorem answer (h : s.RunsOn terms) (v : Visit) : (s.answer v).2.RunsOn terms := by
  have hforget := h.forget v.keeps
  cases htask : v.task? with
  | some t =>
    rw [Service.answer, handle_of_task htask]
    exact hforget.run v.moment t
  | none =>
    rw [Service.answer, handle_of_no_task htask]
    exact hforget

theorem after (h : s.RunsOn terms) (visits : List Visit) : (s.after visits).RunsOn terms := by
  induction visits generalizing s with
  | nil => exact h
  | cons v visits ih => exact ih (h.answer v)

end RunsOn

/-- The outcome and the output of a script that the service runs on its own globals. -/
def perform (s : Service) (m : Moment) (source : Bytes) : Outcome × Bytes :=
  let (outcome, output, _) := s.execute m ⟨source, []⟩
  (outcome, output)

theorem RunsOn.perform_eq (h : s.RunsOn terms) (m : Moment) (source : Bytes) :
    s.perform m source = Interpreter.attempt
      (terms.fresh.defineGlobals (normalGlobals terms.globals))
      { Occasion.plain m.host with fuel := m.fuel } source := by
  have hinterpreter : terms.interpreter ⟨source, []⟩ =
      terms.fresh.defineGlobals (normalGlobals terms.globals) := by
    rw [Terms.interpreter]
    cases terms.fresh.defineGlobals (normalGlobals terms.globals) with
    | error f => rfl
    | ok i => exact i.defineGlobals_nil
  obtain ⟨cache, hexecute, -⟩ := h.execute m ⟨source, []⟩
  rw [perform, hexecute, ← hinterpreter]
  rfl

end Service

/-! ## What the command line runs -/

namespace CommandLine

variable {p : Platform}

/-- The outcome and the output of a script that is run with a configuration. -/
def perform (p : Platform) (c : Config) (o : RunOptions) (source : Bytes) : Outcome × Bytes :=
  Interpreter.attempt (interpreter .initial c o) (.plain (.bare p.clock)) source

/-- What is printed about a run tells its outcome and its output. -/
theorem runScript_eq_conclude {w : Surroundings} {o : RunOptions} {c : Config}
    {source name : Bytes} (hsource : o.source.read w = .ok (source, name))
    (hconfig : loadConfig p w o.config = .ok c) :
    ∃ log, runScript p w o =
      conclude o name (perform p c o source).1 (perform p c o source).2 log := by
  unfold runScript perform Interpreter.attempt
  rw [hsource]
  simp only [hconfig]
  -- Globals that cannot be defined end the command before the script is run.
  cases interpreter .initial c o with
  | error f => exact ⟨[], rfl⟩
  | ok i => exact ⟨_, rfl⟩

theorem perform_eq {c : Config} {o : RunOptions} (htimeout : o.timeout = none)
    (hdepth : o.maxDepth = none) (source : Bytes) :
    perform p c o source = Interpreter.attempt
      ((Service.Terms.fresh ⟨.initial, c.limits, c.globals⟩).defineGlobals c.globals)
      (.plain (.bare p.clock)) source := by
  have hlimits : c.limits.replaced ⟨o.timeout, o.maxDepth, none⟩ = c.limits := by
    rw [htimeout, hdepth]
    rfl
  rw [perform, interpreter, hlimits]
  -- The interpreter of the command line has a log and perhaps a cache besides.
  let equip (i : Interpreter) : Interpreter :=
    { i with hasLogger := true, cache := if c.cacheEnabled then some .empty else none }
  have hequipped := Interpreter.defineGlobals_map (f := equip) (fun _ _ _ => rfl)
    (Service.Terms.fresh ⟨.initial, c.limits, c.globals⟩) c.globals
  refine (congrArg (Interpreter.attempt · (.plain (.bare p.clock)) source) hequipped).trans ?_
  refine Interpreter.attempt_equipped (fun i hi => Interpreter.cache_of_defineGlobals hi) true
    (fun cache hcache => ?_) _ source
  split at hcache
  · cases hcache
    exact nofun
  · cases hcache

end CommandLine

/-! ## Both -/

/-- A host value is normal, or it is a whole number that becomes an integer. -/
theorem HostValue.normal_cases (h : HostValue) :
    h.normal = h ∨ ∃ d n, h = .double d ∧ d.toInt? = some n ∧ h.normal = .int (Int64.ofInt n) := by
  cases h with
  | double d =>
    rw [normal]
    cases hn : d.toInt? with
    | none => exact .inl rfl
    | some n =>
      dsimp only
      -- A whole number may be too large for a word.
      split
      · exact .inr ⟨d, n, rfl, hn, rfl⟩
      · exact .inl rfl
  | _ => exact .inl rfl

theorem normalGlobals_of_normal {globals : List (Bytes × HostValue)}
    (h : ∀ g ∈ globals, g.2.normal = g.2) : normalGlobals globals = globals := by
  conv_rhs => rw [← List.map_id globals]
  exact List.map_congr_left fun g hg => Prod.ext rfl (h g hg)

namespace Config

/-- For a configuration that loads and has globals that can be defined, every script has the
    same outcome and output from the command line and from a service built from it, whatever
    requests that has answered, exactly if all globals are normal. Where a global is not, it
    is a whole number that is a float on the command line and an integer in the service, and
    its name is a script that tells them apart. What the command line prints about a script
    is about this outcome and this output. -/
theorem perform_eq_iff_normal {environment : Bytes → Bytes} {format content : Bytes} {c : Config}
    {p : Platform} (hload : ofText environment format content p.bcl = .ok c)
    (hglobals : ∀ g ∈ c.globals, isIdentifier g.1 = true ∧ g.2.isScalar = true)
    {o : CommandLine.RunOptions} (htimeout : o.timeout = none) (hdepth : o.maxDepth = none)
    {storage : Storage} {s : Service} (hs : Service.ofConfig .initial c storage = .ok s)
    (visits : List Service.Visit) {m : Moment} (hhost : m.host = .bare p.clock)
    (hfuel : m.fuel = Occasion.ample) :
    ((∀ source, (s.after visits).perform m source = CommandLine.perform p c o source) ↔
      ∀ g ∈ c.globals, g.2.normal = g.2) ∧
    (∀ g ∈ c.globals, g.2.normal ≠ g.2 → ∃ d n, g.2 = .double d ∧ d.toInt? = some n ∧
      CommandLine.perform p c o g.1 = (.value (.float d), []) ∧
      (s.after visits).perform m g.1 = (.value (.int (Int64.ofInt n)), [])) ∧
    ∀ w source name, o.source.read w = .ok (source, name) →
      CommandLine.loadConfig p w o.config = .ok c →
      ∃ log, CommandLine.runScript p w o = CommandLine.conclude o name
        (CommandLine.perform p c o source).1 (CommandLine.perform p c o source).2 log := by
  let fresh := Service.Terms.fresh ⟨.initial, c.limits, c.globals⟩
  have hline (source : Bytes) : CommandLine.perform p c o source =
      Interpreter.attempt (fresh.defineGlobals c.globals) (.plain (.bare p.clock)) source :=
    CommandLine.perform_eq htimeout hdepth source
  have hservice (source : Bytes) : (s.after visits).perform m source =
      Interpreter.attempt (fresh.defineGlobals (normalGlobals c.globals))
        (.plain (.bare p.clock)) source := by
    -- No visit changes what the service defines and runs.
    have hafter := (Service.runsOn_ofConfig hs).after visits
    rw [hafter.perform_eq, hhost, hfuel]
    rfl
  have hdefinable : ∀ g ∈ c.globals, isDefinable g = true := by
    intro g hg
    simp [isDefinable, isVariableName, hglobals g hg, not_isKeyword_of_ofText hload g hg]
  have hnormal : ∀ g ∈ normalGlobals c.globals, isDefinable g = true := by
    rw [← firstRefusal?_eq_none_iff, firstRefusal?_normal, firstRefusal?_eq_none_iff]
    exact hdefinable
  have hdistinct := distinct_of_ofText hload
  have hfresh : fresh.New := Service.Terms.new_fresh Registry.sound_initial
  have hample : 3 ≤ (Occasion.plain (.bare p.clock)).fuel := show 3 ≤ Occasion.ample by decide
  -- The script that is the name of a global finds what each side has defined it as.
  have hdiffers : ∀ g ∈ c.globals, g.2.normal ≠ g.2 → ∃ d n, g.2 = .double d ∧
      d.toInt? = some n ∧ CommandLine.perform p c o g.1 = (.value (.float d), []) ∧
      (s.after visits).perform m g.1 = (.value (.int (Int64.ofInt n)), []) := by
    intro g hg hne
    obtain ⟨d, n, hdouble, hn, hint⟩ := g.2.normal_cases.resolve_left hne
    refine ⟨d, n, hdouble, hn, ?_, ?_⟩
    · rw [hline]
      refine hfresh.attempt_name hdefinable hdistinct hg (fun identity => ?_) rfl hample
      rw [hdouble, HostValue.toValue]
    · rw [hservice]
      have hmem : (g.1, g.2.normal) ∈ normalGlobals c.globals := List.mem_map.mpr ⟨g, hg, rfl⟩
      refine hfresh.attempt_name hnormal hdistinct.normal hmem (fun identity => ?_) rfl hample
      rw [hint, HostValue.toValue]
  refine ⟨⟨fun hsame g hg => ?_, fun hall source => ?_⟩, hdiffers,
    fun w source name => CommandLine.runScript_eq_conclude⟩
  · -- The name of a global that is not normal is a script that differs.
    by_contra hne
    obtain ⟨d, n, -, -, hfloat, hinteger⟩ := hdiffers g hg hne
    cases hfloat.symm.trans ((hsame g.1).symm.trans hinteger)
  · rw [hline, hservice, normalGlobals_of_normal hall]

/-- The text of a configuration with a whole number. -/
def million : Bytes := text "\x7b\"globals\": \x7b\"x\": 1000000\x7d\x7d"

/-- The script `x` is a float from the command line, and an integer in a service. -/
theorem perform_million :
    let o : CommandLine.RunOptions :=
      ⟨⟨text "x", [], []⟩, text "c.json", false, true, none, none⟩
    let m : Moment := ⟨.bare, text "1", ⟨2024, 1, 1, 0, 0, 0, 0, 0⟩, 0, Occasion.ample⟩
    ∃ c s d, ofText (fun _ => []) (text "json") million = .ok c ∧
      Service.ofConfig .initial c .memory = .ok s ∧
      CommandLine.perform .plain c o (text "x") = (.value (.float d), []) ∧
      s.perform m (text "x") = (.value (.int 1000000), []) := by
  intro o m
  have hfacts : (ofText (fun _ => []) (text "json") million).toOption.map
      (fun c => (c.cacheEnabled, decide (c.maxPrograms ≤ 0), c.globals.map fun g =>
        (g.1, ((g.2.toValue 0).toOption.all fun v => v.kind != text "integer") &&
          (g.2.normal.toValue 0).toOption.any fun v =>
            v.kind == text "integer" && v.equal (.int 1000000)))) =
      some (true, false, [(text "x", true)]) := by
    decide +kernel
  cases hload : ofText (fun _ => []) (text "json") million with
  | error problem =>
    rw [hload] at hfacts
    cases hfacts
  | ok c =>
    rw [hload] at hfacts
    obtain ⟨hcache, hrest⟩ := Prod.mk.inj (Option.some.inj hfacts)
    obtain ⟨hprograms, hglobals⟩ := Prod.mk.inj hrest
    obtain ⟨⟨name, h⟩, hc, hg⟩ := List.map_eq_singleton_iff.mp hglobals
    obtain ⟨rfl, hvalues⟩ := Prod.mk.inj hg
    obtain ⟨hloaded, hnormal⟩ := Bool.and_eq_true_iff.mp hvalues
    obtain ⟨v, hv, hinteger⟩ := (Option.any_eq_true _ _).mp hnormal
    obtain ⟨hkind, hmillion⟩ := Bool.and_eq_true_iff.mp hinteger
    have hne : h.normal ≠ h := by
      intro heq
      rw [← heq, hv] at hloaded
      simp [eq_of_beq hkind] at hloaded
    -- The normal value is the integer that the script finds.
    obtain ⟨d, n, rfl, hn, hint⟩ := h.normal_cases.resolve_left hne
    rw [hint] at hv
    cases hv
    have hword : Int64.ofInt n = 1000000 := eq_of_beq hmillion
    obtain ⟨s, hs⟩ : ∃ s, Service.ofConfig .initial c .memory = .ok s := by
      simp [Service.ofConfig, Journal.openWith, ProgramCache.ofCapacity, hcache,
        of_decide_eq_false hprograms]
    have hdefinable : ∀ g ∈ c.globals, isIdentifier g.1 = true ∧ g.2.isScalar = true := by
      rw [hc]
      exact List.forall_mem_singleton.mpr ⟨show isIdentifier (text "x") = true by decide, rfl⟩
    obtain ⟨d', n', hdouble, hn', hfloat, hperformed⟩ :=
      (perform_eq_iff_normal (p := .plain) (o := o) (m := m) hload hdefinable rfl rfl hs [] rfl
        rfl).2.1
        (text "x", .double d) (by simp [hc]) hne
    cases hdouble
    cases hn.symm.trans hn'
    rw [hword] at hperformed
    exact ⟨c, s, d, rfl, hs, hfloat, hperformed⟩

end Config

end Scriptlet

/-
  Scriptlet.Proofs.Globals

  Which globals can be defined. Whether a global is refused, and how, depends on its
  name and its value alone (`refusal?`), and the first one that is refused, by name,
  decides for all (`defineGlobals_refused`, `defineGlobals_accepted`).

  A configuration that loads has no global with the name of a keyword, and nothing else
  is known of its globals (`loaded_globals_iff`).
-/
import Scriptlet.CommandLine
import Mathlib.Tactic.Common

namespace Scriptlet

/-! ## Definable globals -/

/-- Whether the host value is one that scripts can hold. -/
def HostValue.isScalar : HostValue → Bool
  | .unsupported _ => false
  | _ => true

/-- Whether a global can be defined. -/
def isDefinable (g : Bytes × HostValue) : Bool := isVariableName g.1 && g.2.isScalar

/-- The fault of a global that cannot be defined. -/
def refusal? (g : Bytes × HostValue) : Option Fault :=
  if isVariableName g.1 then
    match g.2 with
    | .unsupported typeName =>
      some (.within (text "global " ++ g.1) (.global (.unsupported typeName)))
    | _ => none
  else some (.global (.invalidName g.1))

theorem refusal?_eq_none_iff {g : Bytes × HostValue} :
    refusal? g = none ↔ isDefinable g = true := by
  obtain ⟨name, h⟩ := g
  unfold refusal? isDefinable
  cases isVariableName name <;> cases h <;> simp [HostValue.isScalar]

theorem code?_of_refusal? {g : Bytes × HostValue} {f : Fault} (h : refusal? g = some f) :
    f.code? = some .host ∨ f.code? = some .typing := by
  unfold refusal? at h
  split at h
  · split at h
    · cases h
      exact .inr rfl
    · cases h
  · cases h
    exact .inl rfl

theorem refusal?_normal (g : Bytes × HostValue) : refusal? (g.1, g.2.normal) = refusal? g := by
  obtain ⟨name, h⟩ := g
  cases h with
  -- Only a double can be turned into an integer, and both are scalars.
  | double d =>
    unfold HostValue.normal refusal?
    repeat' split
    all_goals simp_all
  | _ => rfl

variable {i : ScopeId} {globals : List (Bytes × HostValue)} {f : Fault}

/-- A value that scripts can hold is turned into one, whatever identity it gets. -/
theorem HostValue.toValue_of_isScalar {h : HostValue} (hscalar : h.isScalar = true)
    (identity : Nat) : ∃ v, h.toValue identity = .ok v := by
  cases h with
  | unsupported typeName => cases hscalar
  | natural n =>
    rw [toValue]
    split <;> exact ⟨_, rfl⟩
  | _ => exact ⟨_, rfl⟩

/-- A global is refused, or it is bound and the others follow. -/
theorem defineAll_cons (g : Bytes × HostValue) (s : Scopes) (identity : Nat) :
    (∃ f, refusal? g = some f ∧ defineAll i (g :: globals) s identity = .error f) ∨
      refusal? g = none ∧ ∃ t, defineAll i (g :: globals) s identity =
        defineAll i globals t (identity + 1) := by
  obtain ⟨name, h⟩ := g
  rw [refusal?_eq_none_iff, isDefinable, defineAll]
  cases hname : isVariableName name with
  | false => exact .inl ⟨.global (.invalidName name), by simp [refusal?, hname], by simp⟩
  | true =>
    cases hscalar : h.isScalar with
    | false =>
      cases h with
      | unsupported typeName =>
        refine .inl ⟨.within (text "global " ++ name) (.global (.unsupported typeName)), ?_, ?_⟩
        · simp [refusal?, hname]
        · simp [HostValue.toValue]
      | _ => cases hscalar
    | true =>
      -- A good name and a scalar: the global is bound, and it takes one identity.
      obtain ⟨v, hv⟩ := HostValue.toValue_of_isScalar hscalar identity
      exact .inr ⟨rfl, s.define i name (v.named name), by simp [hv]⟩

/-- The first global that is refused decides. -/
theorem defineAll_refused (h : globals.findSome? refusal? = some f) (s : Scopes)
    (identity : Nat) : defineAll i globals s identity = .error f := by
  induction globals generalizing s identity with
  | nil => cases h
  | cons g globals ih =>
    rw [List.findSome?_cons] at h
    -- The first global is the one that is refused, or it is bound and does not matter.
    rcases defineAll_cons g s identity with ⟨fault, hfault, hrefused⟩ | ⟨hnone, t, hrest⟩
    · rw [hfault] at h
      rw [hrefused, Option.some.inj h]
    · rw [hnone] at h
      rw [hrest, ih h]

theorem defineAll_accepted (h : globals.findSome? refusal? = none) (s : Scopes)
    (identity : Nat) : ∃ x, defineAll i globals s identity = .ok x := by
  induction globals generalizing s identity with
  | nil => exact ⟨_, rfl⟩
  | cons g globals ih =>
    rw [List.findSome?_cons] at h
    rcases defineAll_cons g s identity with ⟨fault, hfault, -⟩ | ⟨hnone, t, hrest⟩
    · rw [hfault] at h
      cases h
    · rw [hnone] at h
      rw [hrest]
      exact ih h _ _

/-- The fault of the first of the globals, by name, that is refused. -/
def firstRefusal? (globals : List (Bytes × HostValue)) : Option Fault :=
  (sortGlobals globals).findSome? refusal?

theorem firstRefusal?_eq_none_iff :
    firstRefusal? globals = none ↔ ∀ g ∈ globals, isDefinable g = true := by
  simp [firstRefusal?, sortGlobals, List.findSome?_eq_none_iff, List.mem_mergeSort,
    refusal?_eq_none_iff]

/-- Turning whole numbers into integers changes neither the order nor what is refused. -/
theorem firstRefusal?_normal : firstRefusal? (normalGlobals globals) = firstRefusal? globals := by
  -- Sorting looks at the names only, which stay as they are.
  have hsort : sortGlobals (normalGlobals globals) =
      (sortGlobals globals).map fun g => (g.1, g.2.normal) := by
    symm
    apply List.map_mergeSort
    intros
    rfl
  rw [firstRefusal?, hsort, List.findSome?_map]
  exact congrArg (fun p => List.findSome? p (sortGlobals globals)) (funext refusal?_normal)

namespace Interpreter

variable {j : Interpreter}

theorem defineGlobals_refused (h : firstRefusal? globals = some f) :
    j.defineGlobals globals = .error f := by
  rw [defineGlobals, defineAll_refused h]

theorem defineGlobals_accepted (h : firstRefusal? globals = none) :
    ∃ k, j.defineGlobals globals = .ok k := by
  obtain ⟨x, hx⟩ := defineAll_accepted (i := globalScope) h j.scopes j.identities
  exact ⟨_, by rw [defineGlobals, hx]⟩

theorem defineGlobals_iff :
    (∃ k, j.defineGlobals globals = .ok k) ↔ ∀ g ∈ globals, isDefinable g = true := by
  rw [← firstRefusal?_eq_none_iff]
  cases h : firstRefusal? globals with
  | none => simpa using defineGlobals_accepted h
  | some f => simp [defineGlobals_refused h]

end Interpreter

/-! ## Configurations -/

namespace Config

variable {c : Config}

/-- No global of a valid configuration has the name of a keyword. -/
theorem not_isKeyword_of_validate {c' : Config} (h : c.validate = .ok c') :
    c' = c ∧ ∀ g ∈ c.globals, isKeyword g.1 = false := by
  unfold validate at h
  repeat' split at h
  all_goals cases h
  -- The last test of the validation is the one for keywords.
  rename_i hfind
  refine ⟨rfl, fun g hg => ?_⟩
  simpa using List.find?_eq_none.mp hfind g (List.mem_mergeSort.mpr hg)

theorem not_isKeyword_of_ofText {environment : Bytes → Bytes} {format content : Bytes}
    {bcl : Decoder} (h : ofText environment format content bcl = .ok c) :
    ∀ g ∈ c.globals, isKeyword g.1 = false := by
  unfold ofText decodeValid at h
  repeat' split at h
  all_goals first | cases h | skip
  -- Whatever the format, what is decoded is validated before it is given out.
  obtain ⟨rfl, hnone⟩ := not_isKeyword_of_validate h
  exact hnone

/-- The service of a configuration has its globals. -/
theorem globals_ofConfig {registry : Registry} {storage : Storage} {s : Service}
    (h : Service.ofConfig registry c storage = .ok s) : s.globals = normalGlobals c.globals := by
  unfold Service.ofConfig at h
  repeat' split at h
  all_goals cases h
  all_goals rfl

/-- For a configuration that loads, its globals can be defined where their names are
    identifiers and their values are such that scripts can hold them. Otherwise every
    script fails that is run with it or by a service built from it, for one and the same
    reason. -/
theorem loaded_globals_iff {environment : Bytes → Bytes} {format content : Bytes} {bcl : Decoder}
    (h : ofText environment format content bcl = .ok c) :
    (∀ i : Interpreter, (∃ j, i.defineGlobals c.globals = .ok j) ↔
      ∀ g ∈ c.globals, isIdentifier g.1 = true ∧ g.2.isScalar = true) ∧
    ((∃ g ∈ c.globals, isIdentifier g.1 = false ∨ g.2.isScalar = false) →
      ∃ f, (f.code? = some .host ∨ f.code? = some .typing) ∧
        (∀ p w o source name, o.source.read w = .ok (source, name) →
          CommandLine.loadConfig p w o.config = .ok c →
          CommandLine.runScript p w o = CommandLine.conclude o name (.fault f) [] []) ∧
        ∀ registry storage s, Service.ofConfig registry c storage = .ok s →
          ∀ m t, s.execute m t = (.fault f, [], s.cache)) := by
  have hkeyword := not_isKeyword_of_ofText h
  have hdefinable : (∀ g ∈ c.globals, isDefinable g = true) ↔
      ∀ g ∈ c.globals, isIdentifier g.1 = true ∧ g.2.isScalar = true := by
    -- No name is a keyword, so the names of variables are the identifiers.
    refine forall₂_congr fun g hg => ?_
    simp [isDefinable, isVariableName, hkeyword g hg]
  refine ⟨fun i => Interpreter.defineGlobals_iff.trans hdefinable, ?_⟩
  rintro ⟨g, hg, hbad⟩
  cases hfirst : firstRefusal? c.globals with
  -- Nothing is refused, so no global is bad.
  | none =>
    obtain ⟨hname, hvalue⟩ := hdefinable.mp (firstRefusal?_eq_none_iff.mp hfirst) g hg
    simp [hname, hvalue] at hbad
  | some f =>
    refine ⟨f, ?_, fun p w o source name hsource hconfig => ?_, fun registry storage s hs m t => ?_⟩
    · obtain ⟨_, -, hf⟩ := List.exists_of_findSome?_eq_some hfirst
      exact code?_of_refusal? hf
    · -- The script is not even read when its globals cannot be defined.
      have hrefused : CommandLine.interpreter .initial c o = .error f :=
        Interpreter.defineGlobals_refused hfirst
      simp [CommandLine.runScript, hsource, hconfig, hrefused]
    · -- The service normalizes the globals first, which refuses the same ones.
      have hrefused : s.interpreter t = .error f := by
        rw [Service.interpreter, Interpreter.defineGlobals_refused
          (by rw [globals_ofConfig hs, firstRefusal?_normal, hfirst])]
        rfl
      rw [Service.execute, hrefused]

/-- The text of a configuration with a global whose name has a hyphen. -/
def hyphenated : Bytes := text "\x7b\"globals\": \x7b\"a-b\": 1\x7d\x7d"

/-- That configuration loads, its globals cannot be defined, and every script that is run
    by a service built from it fails. -/
theorem loaded_globals_hyphen :
    ∃ c, ofText (fun _ => []) (text "json") hyphenated = .ok c ∧
      (∃ g ∈ c.globals, g.1 = text "a-b") ∧
      (∀ i : Interpreter, ¬ ∃ j, i.defineGlobals c.globals = .ok j) ∧
      ∃ f, ∀ registry storage s, Service.ofConfig registry c storage = .ok s →
        ∀ m t, s.execute m t = (.fault f, [], s.cache) := by
  have hnames : (ofText (fun _ => []) (text "json") hyphenated).toOption.map
      (fun c => c.globals.map Prod.fst) = some [text "a-b"] := by
    decide +kernel
  cases hload : ofText (fun _ => []) (text "json") hyphenated with
  | error problem =>
    rw [hload] at hnames
    cases hnames
  | ok c =>
    rw [hload] at hnames
    obtain ⟨g, hg, hname⟩ : ∃ g ∈ c.globals, g.1 = text "a-b" := by
      have hmem : text "a-b" ∈ c.globals.map Prod.fst := by simp [Option.some.inj hnames]
      simpa using List.mem_map.mp hmem
    have hbad : isIdentifier g.1 = false := by
      rw [hname]
      decide
    obtain ⟨hiff, hfails⟩ := loaded_globals_iff hload
    obtain ⟨f, -, -, hservice⟩ := hfails ⟨g, hg, .inl hbad⟩
    refine ⟨c, rfl, ⟨g, hg, hname⟩, fun i hi => ?_, f, hservice⟩
    rw [((hiff i).mp hi g hg).1] at hbad
    cases hbad

end Config

end Scriptlet

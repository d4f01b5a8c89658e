/-
  Scriptlet.Proofs.SharedCache

  Interpreters that share a cache of parsed programs run as they do without one.

  A cache may forget what it was given at any time, so nothing is said here about
  how it keeps its entries. Every run is shown some cache, and all that counts is
  what that one answers: no program, or the one that was last stored under the
  key of the source (`Pool.Allows`). The stored programs are listed apart from
  what is shown, and the invariant is about this list: each of them is the parse
  of the source it was stored for (`Pool.Sound`). Then a hit answers what parsing
  would, and the runs go through the same interpreters, their caches apart
  (`Shares.sound`).
-/
import Scriptlet.Proofs.Run
import Mathlib.Data.Set.Function

namespace Scriptlet

/-! ## One run -/

/-- What a cache was given since it was `before`, newest first. -/
def ProgramCache.storedSince (c before : ProgramCache) : List (Bytes × Program) :=
  c.entries.take (c.sets - before.sets)

/-- What a run stored in the cache that it was shown. -/
def Interpreter.storedSince (i : Interpreter) (before : ProgramCache) : List (Bytes × Program) :=
  match i.cache with
  | some c => c.storedSince before
  | none => []

/-- The interpreter on its own. -/
def Interpreter.withoutCache (i : Interpreter) : Interpreter := { i with cache := none }

/-- The interpreter with a cache. -/
def Interpreter.shown (i : Interpreter) (c : ProgramCache) : Interpreter :=
  { i with cache := some c }

/-- The report, but for the cache of the interpreter in it. -/
def Report.withoutCache (x : Report) : Report :=
  { x with interpreter := x.interpreter.withoutCache }

namespace ProgramCache

variable (c : ProgramCache) (source : Bytes)

/-- What a run of a source adds to a cache: the program, if the cache does not
    answer with one and the source parses. -/
def additions : List (Bytes × Program) :=
  match (c.get source).1, Scriptlet.parse source with
  | none, .ok p => [(source, p)]
  | _, _ => []

theorem mem_additions {entry : Bytes × Program} (h : entry ∈ c.additions source) :
    entry.1 = source ∧ Scriptlet.parse source = .ok entry.2 := by
  unfold additions at h
  split at h
  · -- Something is added on a miss only, and then it is the parse.
    rename_i p _ hparse
    rw [List.mem_singleton.mp h]
    exact ⟨rfl, hparse⟩
  · cases h

/-- Asking a cache stores nothing. -/
theorem storedSince_get : (c.get source).2.storedSince c = [] := by
  unfold get
  cases c.entries.lookup source <;> simp [storedSince]

theorem storedSince_set (p : Program) :
    ((c.get source).2.set source p).storedSince c = [(source, p)] := by
  unfold get
  cases c.entries.lookup source <;> simp [storedSince, set]

end ProgramCache

namespace Interpreter

variable {i j : Interpreter} {c : ProgramCache} {source : Bytes} {o : Occasion}

@[simp]
theorem withoutCache_shown : (i.shown c).withoutCache = i.withoutCache := rfl

/-- If a cache answers no other program than the parse, then parsing gives what it
    does without it, and stores the additions. -/
theorem parse_shown (hanswer : ∀ p, (c.get source).1 = some p → Scriptlet.parse source = .ok p) :
    ∃ c', (i.shown c).parse source = (Scriptlet.parse source, i.shown c') ∧
      c'.storedSince c = c.additions source := by
  have hget := c.storedSince_get source
  have hset := c.storedSince_set source
  unfold ProgramCache.additions
  rcases hc : c.get source with ⟨answer, c'⟩
  rw [hc] at hanswer hget hset
  cases answer with
  -- A hit: the answer is the parse, and nothing is stored.
  | some p =>
    refine ⟨c', ?_, hget⟩
    simp [Interpreter.parse, shown, hc, hanswer p rfl]
  | none =>
    -- A miss: the source is parsed, and stored if that succeeds.
    cases hparse : Scriptlet.parse source with
    | error f =>
      refine ⟨c', ?_, hget⟩
      simp [Interpreter.parse, shown, hc, hparse]
    | ok p =>
      refine ⟨c'.set source p, ?_, hset p⟩
      simp [Interpreter.parse, shown, hc, hparse]

/-- The report of a run that has read its source as `x`. -/
def reportOn (i : Interpreter) (o : Occasion) (x : Except Fault Program) : Report :=
  match x with
  | .error f => ⟨.fault f, [], i.logged o 0 (.fault f), i⟩
  | .ok p =>
    let report := i.evaluate o (.program p.statements)
    { report with log := i.logged o p.statements.length report.outcome }

theorem run_eq_reportOn {x : Except Fault Program} (hparse : i.parse source = (x, j)) :
    i.run o source = j.reportOn o x := by
  rw [run, hparse]
  cases x <;> rfl

/-- Behind the parse a run does not look at the cache. -/
theorem withoutCache_reportOn (x : Except Fault Program) :
    (j.reportOn o x).withoutCache = j.withoutCache.reportOn o x := by
  cases x <;> rfl

theorem cache_reportOn (x : Except Fault Program) :
    (j.reportOn o x).interpreter.cache = j.cache := by
  cases x <;> rfl

/-- If a cache answers no other program than the parse, then a run gives what it
    does without it, and stores the additions. -/
theorem run_shown (hanswer : ∀ p, (c.get source).1 = some p → Scriptlet.parse source = .ok p) :
    ((i.shown c).run o source).withoutCache = i.withoutCache.run o source ∧
      ((i.shown c).run o source).interpreter.storedSince c = c.additions source := by
  obtain ⟨c', hparse, hstored⟩ := parse_shown (i := i) hanswer
  rw [run_eq_reportOn hparse]
  constructor
  · have halone : i.withoutCache.parse source = (Scriptlet.parse source, i.withoutCache) :=
      parse_uncached rfl
    -- Without a cache the source is read the same way.
    rw [run_eq_reportOn halone, withoutCache_reportOn, withoutCache_shown]
  · unfold storedSince
    rw [cache_reportOn]
    exact hstored

end Interpreter

/-! ## Runs in turn -/

/-- One run in a sequence: the interpreter that makes it, the circumstances, and
    the source. -/
structure Turn (ι : Type) where
  who : ι
  occasion : Occasion
  source : Bytes

/-- Interpreters that share a cache, and all that was ever stored there, newest
    first. -/
structure Pool (ι : Type) where
  interpreters : ι → Interpreter
  stored : List (Bytes × Program)

section Sharing

variable {ι κ : Type} [DecidableEq κ]

namespace Pool

/-- The program that was last stored under the key of a source. -/
def last? (pool : Pool ι) (key : Bytes → κ) (source : Bytes) : Option Program :=
  (pool.stored.find? fun entry => key entry.1 = key source).map Prod.snd

/-- What a cache may answer: a miss, or the program last stored under the key. -/
def Allows (pool : Pool ι) (key : Bytes → κ) (source : Bytes) (answer : Option Program) : Prop :=
  ∀ p, answer = some p → pool.last? key source = some p

theorem allows_miss {pool : Pool ι} {key : Bytes → κ} {source : Bytes} {answer : Option Program}
    (hmiss : answer = none) : pool.Allows key source answer := by
  intro p hp
  rw [hmiss] at hp
  cases hp

/-- Every program was stored for one of the sources, and is the parse of it. -/
def Sound (sources : Set Bytes) (pool : Pool ι) : Prop :=
  ∀ entry ∈ pool.stored, entry.1 ∈ sources ∧ Scriptlet.parse entry.1 = .ok entry.2

/-- In a sound pool an answer is the parse, if no other source has its key. -/
theorem Sound.answer {key : Bytes → κ} {sources : Set Bytes} (hkey : Set.InjOn key sources)
    {pool : Pool ι} (hpool : pool.Sound sources) {source : Bytes} (hsource : source ∈ sources)
    {answer : Option Program} (hallows : pool.Allows key source answer) (p : Program)
    (hp : answer = some p) : Scriptlet.parse source = .ok p := by
  obtain ⟨entry, hfind, rfl⟩ := Option.map_eq_some_iff.mp (hallows p hp)
  have hsame : key entry.1 = key source := by simpa using List.find?_some hfind
  obtain ⟨hmem, hparse⟩ := hpool entry (List.mem_of_find?_eq_some hfind)
  -- Two of these sources with one key are the same source.
  rw [← hkey hmem hsource hsame]
  exact hparse

end Pool

variable [DecidableEq ι]

/-- The reports on runs in turn, each interpreter going on from its last run. -/
def reports (interpreters : ι → Interpreter) : List (Turn ι) → List Report
  | [] => []
  | t :: ts =>
    let report := (interpreters t.who).run t.occasion t.source
    report :: reports (Function.update interpreters t.who report.interpreter) ts

/-- The report on a run that is shown the cache in some condition. -/
def Pool.report (pool : Pool ι) (t : Turn ι) (c : ProgramCache) : Report :=
  ((pool.interpreters t.who).shown c).run t.occasion t.source

/-- The pool after that run. -/
def Pool.after (pool : Pool ι) (t : Turn ι) (c : ProgramCache) : Pool ι :=
  let report := pool.report t c
  ⟨Function.update pool.interpreters t.who report.interpreter,
    report.interpreter.storedSince c ++ pool.stored⟩

/-- Runs in turn that share a cache with these keys: the reports on them, and the
    pool in the end. -/
inductive Shares (key : Bytes → κ) : Pool ι → List (Turn ι) → List Report → Pool ι → Prop where
  | nil {pool : Pool ι} : Shares key pool [] [] pool
  | turn {pool pool' : Pool ι} {t : Turn ι} {ts : List (Turn ι)} {xs : List Report}
      {c : ProgramCache} :
      pool.Allows key t.source (c.get t.source).1 → Shares key (pool.after t c) ts xs pool' →
      Shares key pool (t :: ts) (pool.report t c :: xs) pool'

theorem Pool.stored_after {pool : Pool ι} {t : Turn ι} {c : ProgramCache}
    (hanswer : ∀ p, (c.get t.source).1 = some p → Scriptlet.parse t.source = .ok p) :
    (pool.after t c).stored = c.additions t.source ++ pool.stored := by
  have hadded := (Interpreter.run_shown (i := pool.interpreters t.who) (o := t.occasion) hanswer).2
  rw [← hadded]
  rfl

/-- A miss fills the cache. -/
theorem Pool.stored_after_miss {pool : Pool ι} {t : Turn ι} {c : ProgramCache} {p : Program}
    (hmiss : (c.get t.source).1 = none) (hparse : Scriptlet.parse t.source = .ok p) :
    (pool.after t c).stored = (t.source, p) :: pool.stored := by
  have hanswer : ∀ q, (c.get t.source).1 = some q → Scriptlet.parse t.source = .ok q := by
    intro q hq
    rw [hmiss] at hq
    cases hq
  rw [stored_after hanswer]
  simp [ProgramCache.additions, hmiss, hparse]

/-- A run in a sound pool gives what it does without a cache, and leaves a sound
    pool of the same interpreters. -/
theorem Pool.Sound.turn {sources : Set Bytes} {pool : Pool ι} (hpool : pool.Sound sources)
    {t : Turn ι} (hsource : t.source ∈ sources) {c : ProgramCache}
    (hanswer : ∀ p, (c.get t.source).1 = some p → Scriptlet.parse t.source = .ok p) :
    let report := (pool.interpreters t.who).withoutCache.run t.occasion t.source
    (pool.report t c).withoutCache = report ∧ (pool.after t c).Sound sources ∧
      (fun who => ((pool.after t c).interpreters who).withoutCache) =
        Function.update (fun who => (pool.interpreters who).withoutCache) t.who
          report.interpreter := by
  intro report
  have hreport : (pool.report t c).withoutCache = report := (Interpreter.run_shown hanswer).1
  refine ⟨hreport, ?_, ?_⟩
  · intro entry hentry
    rw [stored_after hanswer] at hentry
    -- A program was stored by this run or before.
    rcases List.mem_append.mp hentry with hnew | hold
    · obtain ⟨hsame, hparse⟩ := c.mem_additions t.source hnew
      rw [hsame]
      exact ⟨hsource, hparse⟩
    · exact hpool entry hold
  · -- The interpreter that ran goes on from its report, all others stay.
    have hleft : (pool.report t c).interpreter.withoutCache = report.interpreter :=
      congrArg Report.interpreter hreport
    rw [← hleft]
    exact Function.comp_update Interpreter.withoutCache _ _ _

/-- From a sound pool, runs that share a cache give the reports of runs without
    one, and leave a sound pool. -/
theorem Shares.sound {key : Bytes → κ} {sources : Set Bytes} (hkey : Set.InjOn key sources)
    {pool pool' : Pool ι} {turns : List (Turn ι)} {xs : List Report}
    (h : Shares key pool turns xs pool') (hpool : pool.Sound sources)
    (hsources : ∀ t ∈ turns, t.source ∈ sources) :
    xs.map Report.withoutCache =
        reports (fun who => (pool.interpreters who).withoutCache) turns ∧
      pool'.Sound sources := by
  induction h with
  | nil => exact ⟨rfl, hpool⟩
  | @turn pool pool' t ts xs c hallows _ ih =>
    have hsource : t.source ∈ sources := hsources t List.mem_cons_self
    have hanswer := hpool.answer hkey hsource hallows
    obtain ⟨hreport, hafter, hinterpreters⟩ := hpool.turn hsource hanswer
    -- The later runs start from a pool that is sound again.
    obtain ⟨hrest, hlast⟩ := ih hafter fun u hu => hsources u (List.mem_cons_of_mem t hu)
    refine ⟨?_, hlast⟩
    rw [List.map_cons, hreport, hrest, hinterpreters]
    rfl

/-- A shared cache is invisible. Interpreters that share one, empty at the start,
    give in any order of runs the reports that they give without it, but for the
    cache itself: the same outcomes, outputs and log entries, and interpreters with
    the same bindings. This holds whatever the cache forgets, as long as each answer
    is the program last stored under the key of the source, and these sources have
    different keys. What is ever stored for a source is the parse of it, so nothing
    is stored for one that does not parse. -/
theorem sharedCache_invisible {key : Bytes → κ} {turns : List (Turn ι)}
    (hkey : Set.InjOn key { source | ∃ t ∈ turns, t.source = source })
    {interpreters : ι → Interpreter} {xs : List Report} {pool : Pool ι}
    (h : Shares key ⟨interpreters, []⟩ turns xs pool) :
    xs.map Report.withoutCache =
        reports (fun who => (interpreters who).withoutCache) turns ∧
      ∀ source p, (source, p) ∈ pool.stored → Scriptlet.parse source = .ok p := by
  obtain ⟨hreports, hpool⟩ := h.sound hkey nofun fun t ht => ⟨t, ht, rfl⟩
  exact ⟨hreports, fun source p hp => (hpool (source, p) hp).2⟩

end Sharing

/-- Two interpreters run the script `Out(1)`. The second one gets the program that
    the first one stored, and then fails to parse another source. The keys are the
    SHA-256 digests of the two sources. -/
theorem sharedCache_invisible_two :
    let script := text "Out(1)"
    let cut := text "Out("
    let key : Bytes → Bytes := fun source =>
      if source = script then
        text "0b4ef965c1f227e07c7dd873d18e2e922b26970a6329f1b4832824e2c5e60a8c"
      else if source = cut then
        text "a296c804e490f28fd0c4894442d162d6ad5786fcdb6579d73d85f4456c7003cd"
      else []
    let o : Occasion := { Occasion.plain .bare with fuel := 20 }
    let fresh : Bool → Interpreter := fun _ => .ofRegistry .initial
    ∃ xs pool,
      Shares key ⟨fresh, []⟩ [⟨false, o, script⟩, ⟨true, o, script⟩, ⟨true, o, cut⟩] xs pool ∧
      xs.map Report.output = [text "1\n", text "1\n", []] ∧
      ∀ source p, (source, p) ∈ pool.stored → Scriptlet.parse source = .ok p := by
  have hparse : Scriptlet.parse (text "Out(1)") =
      .ok ⟨[.call (.ident (text "Out")) [.int 1]]⟩ := by
    with_unfolding_all rfl
  intro script cut key o fresh
  let turns : List (Turn Bool) := [⟨false, o, script⟩, ⟨true, o, script⟩, ⟨true, o, cut⟩]
  let program : Program := ⟨[.call (.ident (text "Out")) [.int 1]]⟩
  let filled : ProgramCache := ⟨[(script, program)], 0, 1, 1⟩
  have hdiffers : key script ≠ key cut := ne_of_beq_false (by with_unfolding_all rfl)
  have hkey : Set.InjOn key { source | ∃ t ∈ turns, t.source = source } := by
    have hsources : ∀ t ∈ turns, t.source = script ∨ t.source = cut := by
      intro t ht
      simp only [turns, List.mem_cons, List.not_mem_nil, or_false] at ht
      rcases ht with rfl | rfl | rfl
      · exact .inl rfl
      · exact .inl rfl
      · exact .inr rfl
    rintro _ ⟨t, ht, rfl⟩ _ ⟨u, hu, rfl⟩ hsame
    rcases hsources t ht with h | h <;> rcases hsources u hu with h' | h' <;> rw [h, h'] at hsame ⊢
    · exact absurd hsame hdiffers
    · exact absurd hsame.symm hdiffers
  let first : Turn Bool := ⟨false, o, script⟩
  have hstored : (Pool.after ⟨fresh, []⟩ first .empty).stored = [(script, program)] :=
    Pool.stored_after_miss rfl hparse
  have hlast : (Pool.after ⟨fresh, []⟩ first .empty).last? key script = some program := by
    simp [Pool.last?, hstored]
  have hhit : (filled.get script).1 = some program := by with_unfolding_all rfl
  have hmiss : (filled.get cut).1 = none := by with_unfolding_all rfl
  -- The cache is empty, then filled, and the last run fails on a miss.
  have hshares : Shares key ⟨fresh, []⟩ turns _ _ :=
    .turn (c := .empty) (Pool.allows_miss rfl) <|
    .turn (c := filled) (fun p hp => hlast.trans (hhit.symm.trans hp)) <|
    .turn (c := filled) (Pool.allows_miss hmiss) .nil
  obtain ⟨hreports, hsound⟩ := sharedCache_invisible hkey hshares
  refine ⟨_, _, hshares, ?_, hsound⟩
  have houtputs := congrArg (List.map Report.output) hreports
  rw [List.map_map] at houtputs
  refine houtputs.trans ?_
  dsimp only [turns, fresh, o, script, cut]
  decide +kernel

end Scriptlet

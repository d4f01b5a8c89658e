/-
  Scriptlet.Proofs.Service

  Runs of a service are recorded once and do not depend on each other.

  Requests share the history, the cache of programs and the globals of the service.
  What they have in common after any requests is said once (`Service.Stands`): the
  registry, the limits and the globals are those of the beginning (`Terms`), every
  program in the cache is the parse of its source, and the history holds a log. A
  request to run a script adds one record to the log and no other request does
  (`Stands.answer`), and record and response are those of the script in an interpreter
  of its own, without a cache (`Terms.run`).
-/
import Scriptlet.Service
import Scriptlet.Proofs.History.CappedLog
import Scriptlet.Proofs.SharedCache
import Scriptlet.Proofs.Lexing
import Mathlib.Data.List.Nodup

namespace Scriptlet

/-! ## Programs in a cache -/

/-- Every program in the cache is the parse of its source. -/
def ProgramCache.Sound (c : ProgramCache) : Prop :=
  ∀ entry ∈ c.entries, Scriptlet.parse entry.1 = .ok entry.2

namespace ProgramCache.Sound

variable {c : ProgramCache} {source : Bytes} {p : Program}

/-- What a sound cache answers is the parse of the source. -/
theorem answer (h : c.Sound) (hp : (c.get source).1 = some p) :
    Scriptlet.parse source = .ok p := by
  unfold get at hp
  cases hlookup : c.entries.lookup source with
  | none =>
    rw [hlookup] at hp
    cases hp
  | some q =>
    rw [hlookup] at hp
    cases hp
    obtain ⟨front, back, hentries, -⟩ := List.lookup_eq_some_iff.mp hlookup
    exact h (source, p) (by simp [hentries])

theorem get (h : c.Sound) (source : Bytes) : (c.get source).2.Sound := by
  unfold ProgramCache.get
  cases c.entries.lookup source <;> exact h

theorem set (h : c.Sound) (hp : Scriptlet.parse source = .ok p) : (c.set source p).Sound := by
  intro entry hentry
  rcases List.mem_cons.mp hentry with rfl | hold
  · exact hp
  · exact h entry (List.mem_filter.mp hold).1

end ProgramCache.Sound

namespace Interpreter

variable {i : Interpreter} {o : Occasion} {source : Bytes}

/-- Parsing answers with the parse and leaves a sound cache. -/
theorem parse_of_sound (h : ∀ c, i.cache = some c → c.Sound) (source : Bytes) :
    ∃ j, i.parse source = (Scriptlet.parse source, j) ∧ j.withoutCache = i.withoutCache ∧
      ∀ c, j.cache = some c → c.Sound := by
  cases hc : i.cache with
  | none => exact ⟨i, parse_uncached hc, rfl, h⟩
  | some c =>
    have hsound := h c hc
    have hget := hsound.get source
    unfold Interpreter.parse
    rw [hc]
    cases hanswer : c.get source with
    | mk answer c' =>
      rw [hanswer] at hget
      cases answer with
      -- A hit: only the counters of the cache change.
      | some p =>
        have hp : Scriptlet.parse source = .ok p := hsound.answer (by rw [hanswer])
        exact ⟨{ i with cache := some c' }, by simp [hanswer, hp], rfl, by rintro _ ⟨⟩; exact hget⟩
      | none =>
        cases hparse : Scriptlet.parse source with
        -- A miss: the program just parsed is stored.
        | ok p =>
          refine ⟨{ i with cache := some (c'.set source p) }, by simp [hanswer], rfl, ?_⟩
          rintro _ ⟨⟩
          exact hget.set hparse
        | error f =>
          exact ⟨{ i with cache := some c' }, by simp [hanswer], rfl, by rintro _ ⟨⟩; exact hget⟩

/-- A run with a sound cache gives what it gives without one, and leaves a sound cache. -/
theorem run_of_sound (h : ∀ c, i.cache = some c → c.Sound) (o : Occasion) (source : Bytes) :
    (i.run o source).withoutCache = i.withoutCache.run o source ∧
      ∀ c, (i.run o source).interpreter.cache = some c → c.Sound := by
  obtain ⟨j, hparse, hsame, hcache⟩ := parse_of_sound h source
  have halone : i.withoutCache.parse source = (Scriptlet.parse source, i.withoutCache) :=
    parse_uncached rfl
  rw [run_eq_reportOn hparse, run_eq_reportOn halone, withoutCache_reportOn, hsame,
    cache_reportOn]
  exact ⟨rfl, hcache⟩

/-- Defining globals neither sees nor touches anything but scopes and identities. -/
theorem defineGlobals_map {f : Interpreter → Interpreter}
    (hf : ∀ i scopes identities, f { i with scopes, identities } = { f i with scopes, identities })
    (i : Interpreter) (globals : List (Bytes × HostValue)) :
    (f i).defineGlobals globals = (i.defineGlobals globals).map f := by
  -- The change leaves scopes and identities alone, so it may come before or after.
  have hsame : f i = { f i with scopes := i.scopes, identities := i.identities } :=
    hf i i.scopes i.identities
  have hscopes : (f i).scopes = i.scopes := by rw [hsame]
  have hidentities : (f i).identities = i.identities := by rw [hsame]
  rw [defineGlobals, defineGlobals, hscopes, hidentities]
  cases defineAll globalScope (sortGlobals globals) i.scopes i.identities with
  | ok x => exact congrArg Except.ok (hf i x.1 x.2).symm
  | error fault => rfl

theorem defineGlobals_cache (i : Interpreter) (cache : Option ProgramCache)
    (globals : List (Bytes × HostValue)) :
    ({ i with cache } : Interpreter).defineGlobals globals =
      (i.defineGlobals globals).map fun j => { j with cache } :=
  defineGlobals_map (f := fun j => { j with cache }) (fun _ _ _ => rfl) i globals

theorem cache_of_defineGlobals {j : Interpreter} {globals : List (Bytes × HostValue)}
    (h : i.defineGlobals globals = .ok j) : j.cache = i.cache := by
  unfold defineGlobals at h
  split at h
  · cases h
    rfl
  · cases h

end Interpreter

namespace Service

/-! ## Runs on their own -/

/-- What every run of a service starts from. -/
structure Terms where
  registry : Registry
  limits : Limits
  globals : List (Bytes × HostValue)

namespace Terms

/-- A new interpreter with the registered builtins and the limits of the service. -/
def fresh (terms : Terms) : Interpreter :=
  { Interpreter.ofRegistry terms.registry with limits := some terms.limits }

/-- A new interpreter with the globals of the service, and those of a task over them. -/
def interpreter (terms : Terms) (t : Task) : Except Fault Interpreter :=
  (terms.fresh.defineGlobals (normalGlobals terms.globals)).bind fun i =>
    i.defineGlobals (normalGlobals t.globals)

/-- The outcome and the output of a task in an interpreter of its own. -/
def run (terms : Terms) (m : Moment) (t : Task) : Outcome × Bytes :=
  match terms.interpreter t with
  | .error f => (.fault f, [])
  | .ok i =>
    let report := i.run { Occasion.plain m.host with fuel := m.fuel } t.source
    (report.outcome, report.output)

/-- The record of that run. -/
def record (terms : Terms) (m : Moment) (t : Task) : Record :=
  let (outcome, output) := terms.run m t
  { Service.record m t outcome output with id := m.fresh }

end Terms

/-! ## What stays the same -/

/-- The service has these terms, the programs in its cache are parses, and its history is
    in memory and holds a log. -/
structure Stands (s : Service) (terms : Terms) (cap : Int) (log : List Record) : Prop where
  registry : s.registry = terms.registry
  limits : s.limits = terms.limits
  globals : s.globals = normalGlobals terms.globals
  cache : ∀ c, s.cache = some c → c.Sound
  memory : s.journal.storage = .memory
  history : s.journal.store.Holds cap log

variable {s : Service} {terms : Terms} {cap : Int} {log : List Record} {m : Moment} {t : Task}
  {r : Request}

/-- The interpreter of a task is the one it has on its own, with the shared cache. -/
theorem interpreter_eq (h : s.Stands terms cap log) (t : Task) :
    s.interpreter t = (terms.interpreter t).map fun i => { i with cache := s.cache } := by
  have hinterpreter : s.interpreter t =
      (({ terms.fresh with cache := s.cache } : Interpreter).defineGlobals
        (normalGlobals terms.globals)).bind fun i => i.defineGlobals (normalGlobals t.globals) := by
    rw [interpreter, h.registry, h.limits, h.globals]
    rfl
  rw [hinterpreter, Interpreter.defineGlobals_cache, Terms.interpreter]
  cases terms.fresh.defineGlobals (normalGlobals terms.globals) with
  | error f => rfl
  | ok i => exact i.defineGlobals_cache s.cache (normalGlobals t.globals)

theorem Terms.cache_of_interpreter {i : Interpreter} (h : terms.interpreter t = .ok i) :
    i.cache = none := by
  unfold Terms.interpreter at h
  cases hfirst : terms.fresh.defineGlobals (normalGlobals terms.globals) with
  | error f =>
    rw [hfirst] at h
    cases h
  | ok j =>
    rw [hfirst] at h
    exact (Interpreter.cache_of_defineGlobals h).trans (Interpreter.cache_of_defineGlobals hfirst)

/-- A task has the outcome and the output that it has on its own. -/
theorem execute_eq (h : s.Stands terms cap log) (m : Moment) (t : Task) :
    ∃ cache, s.execute m t = ((terms.run m t).1, (terms.run m t).2, cache) ∧
      ∀ c, cache = some c → c.Sound := by
  rw [execute, interpreter_eq h, Terms.run]
  cases hi : terms.interpreter t with
  -- Globals that cannot be defined end the task before the cache is asked.
  | error f => exact ⟨s.cache, rfl, h.cache⟩
  | ok i =>
    let o : Occasion := { Occasion.plain m.host with fuel := m.fuel }
    let shared : Interpreter := { i with cache := s.cache }
    -- The interpreter with the shared cache is the one of its own, but for the cache.
    have halone : shared.withoutCache = i := by
      have hnone := Terms.cache_of_interpreter hi
      obtain ⟨scopes, identities, sink, limits, hasLogger, cache⟩ := i
      cases hnone
      rfl
    obtain ⟨hreport, hcache⟩ := Interpreter.run_of_sound (i := shared) h.cache o t.source
    rw [halone] at hreport
    refine ⟨(shared.run o t.source).interpreter.cache, ?_, hcache⟩
    show ((shared.run o t.source).outcome, (shared.run o t.source).output, _) = _
    dsimp only
    rw [← hreport]
    rfl

/-! ## Requests -/

/-- A request with what the outside world contributes to it, and which programs the cache
    still has when it comes. -/
structure Visit where
  moment : Moment
  request : Request
  keeps : Bytes × Program → Bool

/-- The service when its cache has forgotten some programs. -/
def forget (s : Service) (keeps : Bytes × Program → Bool) : Service :=
  { s with cache := s.cache.map fun c => { c with entries := c.entries.filter keeps } }

/-- The response to a request and the service after it. -/
def answer (s : Service) (v : Visit) : Response × Service :=
  (s.forget v.keeps).handle v.moment v.request

/-- The service after requests in turn. -/
def after (s : Service) (visits : List Visit) : Service :=
  visits.foldl (fun s v => (s.answer v).2) s

/-- The task of a request to run a script, if the request is one and can be read. -/
def Visit.task? (v : Visit) : Option Task :=
  if v.request.method = text "POST" ∧ Route.find? v.request.target.1 = some .run then
    (task true v.request).toOption
  else none

/-- The record of the run that a request leads to, if it leads to one. -/
def Visit.record? (terms : Terms) (v : Visit) : Option Record :=
  v.task?.map (terms.record v.moment)

variable {v : Visit} {visits : List Visit}

/-- A cache that forgets programs keeps no others. -/
theorem Stands.forget (h : s.Stands terms cap log) (keeps : Bytes × Program → Bool) :
    (s.forget keeps).Stands terms cap log where
  registry := h.registry
  limits := h.limits
  globals := h.globals
  cache c hc := by
    obtain ⟨d, hd, rfl⟩ := Option.map_eq_some_iff.mp hc
    exact fun entry hentry => h.cache d hd entry (List.mem_filter.mp hentry).1
  memory := h.memory
  history := h.history

/-- A request on a route that takes its method is served there. -/
theorem handle_post {route : Route} (hmethod : r.method = text "POST")
    (hroute : Route.find? r.target.1 = some route) (hpost : route.method = text "POST")
    (s : Service) (m : Moment) : s.handle m r = s.serve m r route := by
  have hmethods : r.method ∈ Request.methods := by
    rw [hmethod]
    decide
  have hsuits : r.suits route = true := by
    rw [Request.suits, hmethod, hpost]
    decide
  have hhead : (r.method == text "HEAD") = false := by
    rw [hmethod]
    decide
  simp [handle, hmethods, hroute, hsuits, hhead]

/-- A request to run a script is handled as its task. -/
theorem handle_of_task (h : v.task? = some t) (s : Service) :
    s.handle v.moment v.request = s.run v.moment t := by
  unfold Visit.task? at h
  split at h
  · rename_i hrun
    have htask : task true v.request = .ok t := by
      cases htask : task true v.request with
      | ok u =>
        rw [htask] at h
        cases h
        rfl
      | error response =>
        rw [htask] at h
        cases h
    rw [handle_post hrun.1 hrun.2 rfl, serve]
    simp [htask]
  · cases h

/-- No other request changes the service. -/
theorem handle_of_no_task (h : v.task? = none) (s : Service) :
    (s.handle v.moment v.request).2 = s := by
  unfold handle
  split
  · rfl
  dsimp only
  split
  · rfl
  · rename_i route hroute
    split
    · rename_i hsuits
      -- Of the routes only that of the runs changes the service, and there the request
      -- could not be read.
      cases route with
      | run =>
        have hmethod : v.request.method = text "POST" := by
          have hpost : (text "POST" == text "GET") = false := by decide
          simpa [Request.suits, Route.method, hpost] using hsuits
        unfold Visit.task? at h
        rw [if_pos ⟨hmethod, hroute⟩] at h
        cases htask : task true v.request with
        | ok t =>
          rw [htask] at h
          cases h
        | error response => simp [serve, htask]
      | parse =>
        dsimp only [serve]
        split <;> rfl
      | tokens =>
        dsimp only [serve]
        split <;> rfl
      | _ => rfl
    · rfl

/-! ## One more request -/

theorem status_record_ne_nil (m : Moment) (t : Task) (outcome : Outcome) (output : Bytes) :
    (record m t outcome output).status ≠ [] := by
  have hsucceeded : Record.succeeded ≠ [] := by decide
  have hfailed : Record.failed ≠ [] := by decide
  cases outcome with
  | value x => exact hsucceeded
  | fault f => exact hfailed
  | starved => exact hfailed

theorem identified_record (m : Moment) (t : Task) (outcome : Outcome) (output : Bytes) :
    (record m t outcome output).identified m.fresh =
      { record m t outcome output with id := m.fresh } := by
  cases outcome <;> rfl

/-- A run answers with the response that its task has on its own, and adds the record of
    it to the history. -/
theorem run_eq (h : s.Stands terms cap log) (m : Moment) (t : Task) :
    (s.run m t).1 = runResponse m.fresh (terms.record m t) (terms.run m t).1 ∧
      (s.run m t).2.Stands terms cap (log ++ [terms.record m t]) := by
  obtain ⟨cache, hexecute, hcache⟩ := execute_eq h m t
  have hstatus := status_record_ne_nil m t (terms.run m t).1 (terms.run m t).2
  rw [run, hexecute]
  dsimp only
  rw [Journal.append_memory hstatus h.memory, identified_record]
  refine ⟨rfl, h.registry, h.limits, h.globals, hcache, rfl, ?_⟩
  exact h.history.add (terms.record m t)

/-- A request adds the record of its run to the log, if it leads to one. -/
theorem Stands.answer (h : s.Stands terms cap log) (v : Visit) :
    (s.answer v).2.Stands terms cap (log ++ (v.record? terms).toList) := by
  have hforget := h.forget v.keeps
  cases htask : v.task? with
  | some t =>
    have hrecord : v.record? terms = some (terms.record v.moment t) := by
      rw [Visit.record?, htask]
      rfl
    rw [Service.answer, handle_of_task htask, hrecord]
    exact (run_eq hforget v.moment t).2
  | none =>
    have hrecord : v.record? terms = none := by
      rw [Visit.record?, htask]
      rfl
    rw [Service.answer, handle_of_no_task htask, hrecord]
    simpa using hforget

/-- Requests in turn add the records of their runs, in order. -/
theorem Stands.after (h : s.Stands terms cap log) (visits : List Visit) :
    (s.after visits).Stands terms cap (log ++ visits.filterMap (Visit.record? terms)) := by
  induction visits generalizing s log with
  | nil => simpa [Service.after] using h
  | cons v visits ih =>
    have hrest := ih (h.answer v)
    rw [List.append_assoc] at hrest
    -- The record of the first visit, if there is one, stands in front.
    have hrecords : (v.record? terms).toList ++ visits.filterMap (Visit.record? terms) =
        (v :: visits).filterMap (Visit.record? terms) := by
      cases hrecord : v.record? terms <;> simp [hrecord]
    rwa [hrecords] at hrest

/-! ## Responses and records -/

section textIn

variable {key : Bytes} {fields : List (Bytes × Json)}

end textIn

end Service

end Scriptlet

/-
  Scriptlet.Proofs.DeadBranches

  The evaluator has an answer for nodes and operators that it does not know, but no
  script can make it give one.

  Operators are symbols, and the reader makes a symbol of any run of operator bytes;
  what keeps the unknown ones out is that parsed trees are proper (`proper_of_parse`).
  A function outlives the run that declared it, in the heap, in the hands of the
  host and as the value of a global. So it has to be kept that all functions are those
  of proper trees (`Interpreter.IsProper`), from run to run; the faults of a run then
  follow from the discipline of proper trees (`run_never_lastResort`).
-/
import Scriptlet.Proofs.Discipline
import Scriptlet.Proofs.Grammar.Faults
import Scriptlet.Proofs.Marker
import Scriptlet.Proofs.SharedCache

namespace Scriptlet

/-! ## Faults of last resort -/

namespace Fault

/-- The start of a message about types. -/
def typing (m : String) : Bytes := ErrorCode.typing.label ++ text ": " ++ text m

/-- How the messages start that are about a node or an operator which the evaluator
    does not know. -/
def lastResorts : List Bytes :=
  [typing "cannot evaluate ", typing "unknown unary operator ", typing "can't apply operator "]

/-- Whether the message is about such a node or operator. -/
def isLastResort (f : Fault) : Bool := lastResorts.any fun phrase => f.message.startsWith phrase

/-- A text that no message of last resort starts with, whatever follows it. -/
def excludes (front : Bytes) : Bool :=
  lastResorts.all fun phrase => !front.startsWith phrase && !phrase.startsWith front

/-- A message that starts with another text is not of last resort. -/
theorem isLastResort_of_excludes {f : Fault} {front rest : Bytes} (hf : f.message = front ++ rest)
    (hfront : excludes front = true) : f.isLastResort = false := by
  rw [isLastResort, List.any_eq_false]
  intro phrase hphrase hstarts
  have hapart := List.all_eq_true.mp hfront phrase hphrase
  simp only [Bytes.startsWith, Bool.and_eq_true, Bool.not_eq_true'] at hapart hstarts
  rw [hf, List.isPrefixOf_iff_prefix] at hstarts
  -- Of two starts of one text, one is a start of the other.
  rcases List.prefix_or_prefix_of_prefix hstarts (List.prefix_append front rest) with h | h
  · rw [← List.isPrefixOf_iff_prefix, hapart.1] at h
    cases h
  · rw [← List.isPrefixOf_iff_prefix, hapart.2] at h
    cases h

theorem headline_eq (code : ErrorCode) (m : Bytes) (p : Position) :
    ∃ rest, headline code m p = code.label ++ text ": " ++ m ++ rest := by
  unfold headline
  split
  · exact ⟨[], by simp⟩
  · exact ⟨_, by simp only [List.append_assoc]; rfl⟩

/-- Faults of another kind are not of last resort, whatever they say. -/
theorem isLastResort_of_code {f : Fault} {code : ErrorCode} {m : Bytes} {p : Position}
    (rest : Bytes) (hf : f.message = headline code m p ++ rest)
    (hcode : excludes code.label = true) : f.isLastResort = false := by
  obtain ⟨more, hmore⟩ := headline_eq code m p
  have hmessage : f.message = code.label ++ (text ": " ++ m ++ more ++ rest) := by
    rw [hf, hmore]
    simp only [List.append_assoc]
  exact isLastResort_of_excludes hmessage hcode

end Fault

/-- The problems of last resort. -/
def EvalProblem.isLastResort : EvalProblem → Bool
  | .strayElse | .missingNode | .unknownUnary _ | .inapplicable _ => true
  | _ => false

/-- A message that starts with one of the phrases is of last resort. -/
theorem Fault.isLastResort_of_phrase {f : Fault} {phrase rest : Bytes}
    (hphrase : phrase ∈ lastResorts) (hf : f.message = phrase ++ rest) : f.isLastResort = true := by
  rw [isLastResort, List.any_eq_true]
  refine ⟨phrase, hphrase, ?_⟩
  rw [hf, Bytes.startsWith, List.isPrefixOf_iff_prefix]
  exact List.prefix_append phrase rest

theorem Fault.message_typing {problem : EvalProblem} (hcode : problem.code = .typing) {m : String}
    {rest : Bytes} (hmessage : problem.message = text m ++ rest) :
    (Fault.eval problem).message = typing m ++ rest := by
  rw [message, hcode, hmessage, headline, typing]
  simp

/-- The message tells exactly these problems from the others. -/
theorem Fault.isLastResort_eval (problem : EvalProblem) :
    (Fault.eval problem).isLastResort = problem.isLastResort := by
  have hcoded : ∀ code m, (Fault.eval problem).message = headline code m ⟨0, 0⟩ →
      excludes code.label = true → (Fault.eval problem).isLastResort = false := by
    intro code m hmessage
    exact isLastResort_of_code [] (by rw [hmessage, List.append_nil])
  -- Another code is another start, whatever the rest says.
  cases problem with
  | unbound name => exact hcoded .naming _ rfl (by decide +kernel)
  | notAssignable target => exact hcoded .parsing _ rfl (by decide +kernel)
  | divideByZero l op r => exact hcoded .arithmetic _ rfl (by decide +kernel)
  | tooDeep limit function => exact hcoded .callDepth _ rfl (by decide +kernel)
  -- These share their code with the last resorts, so the message decides.
  | notANumber op operand =>
    have hmessage : (EvalProblem.notANumber op operand).message = text "operator " ++
        (op.symbol ++ text " expects a number but got " ++ operand.describe) := by
      simp [EvalProblem.message]
    exact isLastResort_of_excludes (message_typing rfl hmessage) (by decide +kernel)
  | notNegatable operand =>
    have hmessage : (EvalProblem.notNegatable operand).message =
        text "unary - expects a number but got " ++ operand.describe := rfl
    exact isLastResort_of_excludes (message_typing rfl hmessage) (by decide +kernel)
  | notCallable callee =>
    have hmessage : (EvalProblem.notCallable callee).message =
        text "cannot call " ++ callee.describe := rfl
    exact isLastResort_of_excludes (message_typing rfl hmessage) (by decide +kernel)
  -- From here on the phrases themselves.
  | strayElse =>
    have hmessage : EvalProblem.strayElse.message =
        text "cannot evaluate " ++ text "*sprite.ElseBranch" := by decide +kernel
    exact isLastResort_of_phrase (by simp [lastResorts]) (message_typing rfl hmessage)
  | missingNode =>
    have hmessage : EvalProblem.missingNode.message =
        text "cannot evaluate " ++ text "<nil>" := by decide +kernel
    exact isLastResort_of_phrase (by simp [lastResorts]) (message_typing rfl hmessage)
  | unknownUnary op =>
    have hmessage : (EvalProblem.unknownUnary op).message =
        text "unknown unary operator " ++ op.symbol := rfl
    exact isLastResort_of_phrase (by simp [lastResorts]) (message_typing rfl hmessage)
  | inapplicable op =>
    have hmessage : (EvalProblem.inapplicable op).message =
        text "can't apply operator " ++ op.symbol := rfl
    exact isLastResort_of_phrase (by simp [lastResorts]) (message_typing rfl hmessage)

/-! ## Operators of the language -/

/-- The operators before an operand are all known. -/
theorem UnaryOp.not_lastResort {op : UnaryOp} (hop : op = .not ∨ op = .negate) {v : Value}
    {problem : EvalProblem} (h : op.apply v = .error problem) : problem.isLastResort = false := by
  rcases hop with rfl | rfl
  · cases h
  · cases v <;> cases h <;> rfl

/-- The operators between numbers. -/
def BinaryOp.numeric : List BinaryOp :=
  [.less, .greater, .lessEq, .greaterEq, .add, .sub, .mul, .div, .rem]

theorem Arithmetic.exists_integers {op : BinaryOp} (hop : op ∈ BinaryOp.numeric) {l r : Int64}
    {x : Except EvalProblem Value} (h : integers op l r = some x) : ∃ v, x = .ok v := by
  rcases integers_cases h with ⟨v, -, hv⟩ | ⟨-, hother⟩
  · exact ⟨v, hv⟩
  · rcases hother with rfl | rfl | rfl | rfl | ⟨symbol, rfl⟩ <;> simp [BinaryOp.numeric] at hop

theorem Arithmetic.exists_doubles {op : BinaryOp} (hop : op ∈ BinaryOp.numeric) (l r : Double) :
    ∃ v, doubles op l r = .ok v := by
  cases op with
  | less | greater | lessEq | greaterEq | add | sub | mul | div | rem => exact ⟨_, rfl⟩
  | or | and | equal | notEqual | unknown => simp [BinaryOp.numeric] at hop

/-- Apart from the lazy ones, which are not applied to values, the operators of the
    language can be applied. -/
theorem BinaryOp.not_lastResort {op : BinaryOp} (hop : op ∈ BinaryOp.all) (hand : op ≠ .and)
    (hor : op ≠ .or) {l r : Value} {problem : EvalProblem} (h : op.apply l r = .error problem) :
    problem.isLastResort = false := by
  unfold BinaryOp.apply at h
  split at h
  · cases h
  · cases h
  rename_i hequal hnotEqual
  have hnumeric : op ∈ BinaryOp.numeric := by
    simp only [BinaryOp.all, BinaryOp.numeric, List.mem_cons, List.not_mem_nil, or_false] at hop ⊢
    tauto
  split at h
  · cases h
    rfl
  split at h
  · cases h
    rfl
  split at h
  · cases h
    rfl
  split at h
  · obtain ⟨v, hv⟩ :=
      Arithmetic.exists_integers hnumeric (Option.eq_some_iff_get_eq.mpr ⟨_, h⟩)
    cases hv
  · obtain ⟨v, hv⟩ := Arithmetic.exists_doubles hnumeric _ _
    rw [hv] at h
    cases h

/-! ## Functions of scripts -/

/-- A value that is no function, or a function that a proper tree declares. -/
def Value.IsProper : Value → Prop
  | .closure _ f _ => Proper (.node (.func f.name f.parameters f.body))
  | .returned v => v.IsProper
  | _ => True

/-- No function of scripts but those of proper trees. -/
def HostValue.IsProper : HostValue → Prop
  | .value v => v.IsProper
  | _ => True

/-- The host makes no functions of scripts by itself: it gives back those that it was
    given, and others of proper trees. It raises faults of its own. -/
structure Host.IsProper (h : Host) : Prop where
  replies : ∀ key sink arguments v, (∀ a ∈ arguments, Value.IsProper a) →
    (h.behave key sink arguments).result = .ok (some v) → v.IsProper
  raises : ∀ key sink arguments f, (h.behave key sink arguments).result = .error f →
    f.isLastResort = false

theorem Value.isProper_atom {v : Value} (h : v.isAtom = true) : v.IsProper := by
  cases v with
  | closure | returned => cases h
  | _ => trivial

theorem Proper.statements {b : Block} (h : Proper (.block b)) : Proper (.each b.statements) := by
  cases h with
  | inline hx => exact .cons hx .nil
  | block hss => exact hss

/-- The body of a function of a proper tree. -/
theorem Proper.body {name : Name} {parameters : List Name} {b : Block}
    (h : Proper (.node (.func name parameters b))) : Proper (.each b.statements) := by
  cases h with
  | inlineFunc _ hv => exact .cons (.ret hv) .nil
  | blockFunc _ hss => exact hss

/-- The parts that an evaluation comes to are proper with the whole. -/
theorem Proper.child {p q : Part} (h : Proper p) (hchild : p.Child q) : Proper q := by
  cases hchild with
  -- Programs and blocks stand in no proper part.
  | program => cases h
  | block => cases h
  | operand =>
    cases h with
    | unary _ hx => exact hx
  | left =>
    cases h with
    | binary _ hl _ => exact hl
  | right =>
    cases h with
    | binary _ _ hr => exact hr
  | assigned =>
    cases h with
    | assign _ hr => exact hr
  | callee =>
    cases h with
    | call hc _ => exact hc
  | arguments =>
    cases h with
    | call _ has => exact has
  | condition =>
    cases h with
    | branch hc _ _ => exact hc
  -- A body is a list of proper statements.
  | consequence =>
    cases h with
    | branch _ hb _ => exact hb.statements
  | alternative =>
    cases h with
    | branch _ _ ht => exact ht
  | loopCondition =>
    cases h with
    | loop hc _ => exact hc
  | loopBody =>
    cases h with
    | loop _ hb => exact hb.statements
  | returned =>
    cases h with
    | ret hv => exact hv
  | elifCondition =>
    cases h with
    | elif hc _ _ => exact hc
  | elifBody =>
    cases h with
    | elif _ hb _ => exact hb.statements
  | elifRest =>
    cases h with
    | elif _ _ ht => exact ht
  | elseBody =>
    cases h with
    | «else» hb => exact hb.statements
  -- Lists are proper element by element.
  | head =>
    cases h with
    | cons hx _ => exact hx
  | rest =>
    cases h with
    | cons _ hxs => exact hxs

/-- What a function of the host gives back brings in no function that is not proper. -/
theorem Host.IsProper.call {h : Host} (hhost : h.IsProper) {f : HostFunction} {sink : Sink}
    {arguments : List Value} (harguments : ∀ a ∈ arguments, Value.IsProper a) {v : Value}
    (hv : (h.call f sink arguments).result = .ok (some v)) : v.IsProper := by
  -- The functions that come with the interpreter give back atoms.
  rcases Host.call_value hv with hatom | ⟨key, hkey⟩
  · exact Value.isProper_atom hatom
  · exact hhost.replies key sink arguments v harguments hkey

/-- A fault of the host is its own, or one that names the function. -/
theorem Host.IsProper.raisedBy {h : Host} (hhost : h.IsProper) {f : HostFunction} {sink : Sink}
    {arguments : List Value} {g : Fault} (hg : (h.call f sink arguments).result = .error g)
    (name : Name) : (g.raisedBy name).isLastResort = false := by
  unfold Fault.raisedBy
  split
  · rename_i hcode
    cases f with
    | out =>
      cases sink with
      | «open» => cases hg
      -- A broken sink fails without a code.
      | broken reason =>
        cases hg
        cases hcode
    | custom key => exact hhost.raises key sink arguments g hg
  · -- A fault that is wrapped says that the call failed, with the code of the host.
    have hmessage : (Fault.hostFailed name g).message =
        Fault.headline .host (text "builtin " ++ name ++ text " failed") ⟨0, 0⟩ ++
          (text ": " ++ g.message) := by
      rw [Fault.message, List.append_assoc]
    exact Fault.isLastResort_of_code _ hmessage (by decide +kernel)

/-- A proper part, or a program of proper statements. -/
def Part.Scripted : Part → Prop
  | .node (.program ss) => Proper (.each ss)
  | p => Proper p

theorem Proper.scripted {p : Part} (h : Proper p) : p.Scripted := by
  unfold Part.Scripted
  split
  · cases h
  · exact h

theorem Part.Scripted.child {p q : Part} (h : p.Scripted) (hchild : p.Child q) : q.Scripted := by
  unfold Part.Scripted at h
  split at h
  · cases hchild
    exact h
  · exact (h.child hchild).scripted

/-- Parts of scripts keep to functions of proper trees, and fail in known ways only. -/
def properDiscipline (w : Setting) (hhost : w.host.IsProper) : Discipline w where
  tree := Part.Scripted
  value := Value.IsProper
  fault f := f.isLastResort = false
  child := Part.Scripted.child
  atom := Value.isProper_atom
  returned := Iff.rfl
  declared _ _ htree := htree
  entered hf := (Proper.body hf).scripted
  unary htree h := by
    rw [Fault.isLastResort_eval]
    cases htree with
    | unary hop _ => exact UnaryOp.not_lastResort hop h
  binary htree hand hor h := by
    rw [Fault.isLastResort_eval]
    cases htree with
    | binary hop _ _ => exact BinaryOp.not_lastResort hop hand hor h
  unassignable _ _ := by rw [Fault.isLastResort_eval]; rfl
  -- An `else` without a condition and an absent node are no parts of scripts.
  otherwise htree := by cases htree
  absent htree := by cases htree
  unbound _ := by rw [Fault.isLastResort_eval]; rfl
  notCallable _ := by rw [Fault.isLastResort_eval]; rfl
  tooDeep _ _ := by rw [Fault.isLastResort_eval]; rfl
  interrupted i := by cases i <;> decide +kernel
  replied harguments hv := hhost.call harguments hv
  raised _ hg := hhost.raisedBy hg _

/-! ## Interpreters -/

/-- Every function that is bound is one of a proper tree, and so is every program in the
    cache. -/
structure Interpreter.IsProper (i : Interpreter) : Prop where
  heap : i.scopes.Every fun _ v => v.IsProper
  cache : ∀ c, i.cache = some c → ∀ entry ∈ c.entries, Proper (.each entry.2.statements)

theorem Registry.every_bindAll {P : ScopeId → Value → Prop} {s : Scopes} (h : s.Every P)
    {i : ScopeId} (hbuiltin : ∀ identity name f, P i (.builtin identity name f)) (identity : Nat)
    (table : List (Name × HostFunction)) : (bindAll s i identity table).1.Every P := by
  induction table generalizing s identity with
  | nil => exact h
  | cons entry entries ih =>
    apply ih
    exact h.define i entry.1 (hbuiltin _ _ _)

/-- What becomes of a value of the host is proper if the value is. -/
theorem HostValue.isProper_toValue {h : HostValue} (hh : h.IsProper) {identity : Nat} {v : Value}
    (hv : h.toValue identity = .ok v) : v.IsProper := by
  cases h with
  | value u =>
    cases hv
    exact hh
  | natural n =>
    rw [toValue] at hv
    split at hv <;> cases hv <;> trivial
  | unsupported typeName => cases hv
  | absent | function | builtin | int | double | bool | str =>
    cases hv
    trivial

theorem Value.isProper_named {v : Value} (h : v.IsProper) (name : Name) :
    (v.named name).IsProper := by
  cases v with
  | builtin identity n f =>
    rw [Value.named]
    split <;> trivial
  | _ => exact h

/-- Globals of proper values leave a proper heap. -/
theorem isProper_defineAll {globals : List (Bytes × HostValue)}
    (hglobals : ∀ g ∈ globals, g.2.IsProper) {i : ScopeId} {s t : Scopes} {identity next : Nat}
    (hs : s.Every fun _ v => v.IsProper) (h : defineAll i globals s identity = .ok (t, next)) :
    t.Every fun _ v => v.IsProper := by
  induction globals generalizing s identity with
  | nil =>
    cases h
    exact hs
  | cons g globals ih =>
    obtain ⟨name, g⟩ := g
    rw [defineAll] at h
    split at h
    · cases h
    cases hv : g.toValue identity with
    | error problem =>
      rw [hv] at h
      cases h
    | ok v =>
      rw [hv] at h
      have hproper := HostValue.isProper_toValue (hglobals _ List.mem_cons_self) hv
      refine ih (fun g hg => hglobals g (List.mem_cons_of_mem _ hg)) ?_ h
      exact hs.define i name (Value.isProper_named hproper name)

namespace Interpreter

variable {i j : Interpreter} {o : Occasion}

theorem isProper_ofRegistry (r : Registry) : (ofRegistry r).IsProper where
  heap := Registry.every_bindAll Scopes.every_root (fun _ _ _ => trivial) 0 r.table
  cache _ hc := by cases hc

/-- Globals keep an interpreter proper. -/
theorem IsProper.defineGlobals (h : i.IsProper) {globals : List (Bytes × HostValue)}
    (hglobals : ∀ g ∈ globals, g.2.IsProper) (hj : i.defineGlobals globals = .ok j) :
    j.IsProper := by
  unfold Interpreter.defineGlobals at hj
  split at hj
  · rename_i scopes identities hdefine
    cases hj
    refine ⟨isProper_defineAll (fun g hg => hglobals g ?_) h.heap hdefine, h.cache⟩
    exact List.mem_mergeSort.mp hg
  · cases hj

theorem IsProper.define (h : i.IsProper) {name : Name} {g : HostValue} (hg : g.IsProper) {v : Value}
    (hj : i.define name g = .ok (v, j)) : j.IsProper := by
  unfold Interpreter.define at hj
  split at hj
  · cases hj
  · rename_i u hu
    cases hj
    exact ⟨h.heap.define globalScope name (HostValue.isProper_toValue hg hu), h.cache⟩

/-- A source is read as a proper tree, from the cache or not, and what is stored is
    proper too. -/
theorem IsProper.parse (h : i.IsProper) {source : Bytes} {x : Except Fault Program}
    (hparse : i.parse source = (x, j)) :
    j.IsProper ∧ (∀ p, x = .ok p → Proper (.each p.statements)) ∧
      ∀ f, x = .error f → Scriptlet.parse source = .error f := by
  unfold Interpreter.parse at hparse
  cases hcache : i.cache with
  | none =>
    simp only [hcache] at hparse
    cases hparse
    exact ⟨h, fun p hp => proper_of_parse hp, fun f hf => hf⟩
  | some c =>
    have hentries := h.cache c hcache
    unfold ProgramCache.get at hparse
    cases hget : c.entries.lookup source with
    -- What the cache holds was stored there, and was proper.
    | some p =>
      simp only [hcache, hget] at hparse
      cases hparse
      obtain ⟨front, rest, hsplit, -⟩ := List.lookup_eq_some_iff.mp hget
      have hp := hentries (source, p) (by simp [hsplit])
      refine ⟨⟨h.heap, fun d hd => ?_⟩, fun q hq => ?_, nofun⟩
      · cases hd
        exact hentries
      · cases hq
        exact hp
    | none =>
      simp only [hcache, hget] at hparse
      cases hsource : Scriptlet.parse source with
      | error f =>
        simp only [hsource] at hparse
        cases hparse
        refine ⟨⟨h.heap, fun d hd => ?_⟩, nofun, fun g hg => hg⟩
        cases hd
        exact hentries
      | ok p =>
        simp only [hsource] at hparse
        cases hparse
        have hp := proper_of_parse hsource
        refine ⟨⟨h.heap, fun d hd => ?_⟩, fun q hq => ?_, nofun⟩
        · cases hd
          intro entry hentry
          -- The entry just stored is the tree just parsed.
          rcases List.mem_cons.mp hentry with rfl | hold
          · exact hp
          · exact hentries entry (List.mem_of_mem_filter hold)
        · cases hq
          exact hp

/-- What is wrong with a text is said in other words. -/
theorem not_lastResort_of_parse {source : Bytes} {f : Fault}
    (h : Scriptlet.parse source = .error f) : f.isLastResort = false := by
  have hparsing : ∀ problem p atEnd, (Fault.parse problem p atEnd).isLastResort = false :=
    fun _ _ _ => Fault.isLastResort_of_code [] (List.append_nil _).symm (by decide +kernel)
  cases (blames_of_parse h).1 with
  | ending hend =>
    obtain ⟨problem, hlex⟩ := (Cursor.fault_position hend).1
    rw [hlex]
    exact Fault.isLastResort_of_code [] (List.append_nil _).symm (by decide +kernel)
  | token => exact hparsing _ _ _
  | final => exact hparsing _ _ _

/-- A run leaves the interpreter proper and fails in known ways only. -/
theorem IsProper.run (h : i.IsProper) (hhost : o.host.IsProper) (source : Bytes) :
    (i.run o source).interpreter.IsProper ∧
      ∀ f, (i.run o source).outcome = .fault f → f.isLastResort = false := by
  rcases hparse : i.parse source with ⟨x, j⟩
  obtain ⟨hj, hproper, herror⟩ := h.parse hparse
  rw [run_eq_reportOn hparse]
  cases x with
  | error f =>
    refine ⟨hj, fun g hg => ?_⟩
    cases hg
    exact not_lastResort_of_parse (herror f rfl)
  | ok p =>
    -- The interpreter that is left, with a cache or not, has the same heap.
    let D := properDiscipline (j.setting o) hhost
    have hobeyed : D.Obeyed (j.start o (.program p.statements)) :=
      (D.followed o.fuel).node 0 globalScope _ j.initial (hproper p rfl) hj.heap
    have hunwrapped := hobeyed.map fun _ hv => D.value_unwrap hv
    exact ⟨⟨hunwrapped.heap, hj.cache⟩, hunwrapped.fault⟩

/-- The interpreters that come about where only scripts are run: new ones, those with
    another output, other limits or a cache of parsed programs, those with globals, and
    those that a run leaves. -/
inductive Scripted : Interpreter → Prop where
  | new (r : Registry) : Scripted (ofRegistry r)
  | configured {i : Interpreter} (h : Scripted i) (sink : Sink) (limits : Option Limits)
      (hasLogger : Bool) : Scripted { i with sink, limits, hasLogger }
  | cached {i : Interpreter} (h : Scripted i) {cache : Option ProgramCache}
      (hcache : ∀ c, cache = some c → ∀ entry ∈ c.entries,
        Scriptlet.parse entry.1 = .ok entry.2) : Scripted { i with cache }
  | globals {i j : Interpreter} (h : Scripted i) {globals : List (Bytes × HostValue)}
      (hglobals : ∀ g ∈ globals, g.2.IsProper) (hj : i.defineGlobals globals = .ok j) : Scripted j
  | global {i j : Interpreter} (h : Scripted i) {name : Name} {g : HostValue} {v : Value}
      (hg : g.IsProper) (hj : i.define name g = .ok (v, j)) : Scripted j
  | run {i : Interpreter} (h : Scripted i) {o : Occasion} (hhost : o.host.IsProper)
      (source : Bytes) : Scripted (i.run o source).interpreter

/-- Every such interpreter is proper, by the way it came about. -/
theorem Scripted.isProper (h : i.Scripted) : i.IsProper := by
  induction h with
  | new r => exact isProper_ofRegistry r
  | configured _ _ _ _ ih => exact ⟨ih.heap, ih.cache⟩
  | cached _ hcache ih =>
    refine ⟨ih.heap, fun c hc entry hentry => ?_⟩
    exact proper_of_parse (hcache c hc entry hentry)
  | globals _ hglobals hj ih => exact ih.defineGlobals hglobals hj
  | global _ hg hj ih => exact ih.define hg hj
  | run _ hhost source ih => exact (ih.run hhost source).1

end Interpreter

/-- The parser refuses parameters that stand twice. -/
theorem nodup_of_repeated? {names seen : List Name} (h : Parser.repeated? seen names = none) :
    names.Nodup ∧ ∀ name ∈ names, name ∉ seen := by
  induction names generalizing seen with
  | nil => exact ⟨List.nodup_nil, nofun⟩
  | cons name names ih =>
    rw [Parser.repeated?] at h
    split at h
    · cases h
    rename_i hnew
    obtain ⟨hnodup, hothers⟩ := ih h
    refine ⟨List.nodup_cons.mpr ⟨fun hmem => hothers name hmem List.mem_cons_self, hnodup⟩, ?_⟩
    intro other hother
    rcases List.mem_cons.mp hother with rfl | hmem
    · simpa using hnew
    · exact fun hseen => hothers other hmem (List.mem_cons_of_mem _ hseen)

/-- What the evaluator does not know it does not meet in scripts. Let any sources be run
    on an interpreter, with any globals and any functions of the host, except that these
    bring in no functions but those of parsed scripts, and raise no faults but their own.
    No run ever fails with a node that cannot be evaluated, an unknown prefix operator or
    an operator that cannot be applied. For every tree that is parsed is proper, in all
    its parts: the names are those of variables, the operators those of the language, no
    parameter stands twice, and an inline body is one expression, which a function
    returns. -/
theorem run_never_lastResort {i : Interpreter} (hi : i.Scripted) {o : Occasion}
    (hhost : o.host.IsProper) (source : Bytes) :
    (∀ f, (i.run o source).outcome = .fault f → f.isLastResort = false) ∧
    (∀ p, parse source = .ok p → Proper (.each p.statements)) ∧
    ∀ name parameters, ProperHead name parameters → parameters.Nodup :=
  ⟨(hi.isProper.run hhost source).2, fun _ hp => proper_of_parse hp,
    fun _ _ hhead => (nodup_of_repeated? hhead.distinct).1⟩

/-- A function goes through the hands of the host and is called by a later run. It
    fails, but not because it was not known. -/
theorem run_never_lastResort_handedBack :
    let host : Host := ⟨fun _ _ arguments => ⟨[], .ok arguments.head?⟩, .steady⟩
    let o : Occasion := { Occasion.plain host with fuel := 20 }
    let first := Value.builtin 0 (text "first") (.custom (text "first"))
    let i := Interpreter.ofRegistry ⟨[(text "first", .custom (text "first"))], false, false⟩
    let j := (i.run o (text "func f(x) -x")).interpreter
    (j.run o (text "first(f)(first)")).outcome = .fault (.eval (.notNegatable first)) ∧
      (Fault.eval (.notNegatable first)).isLastResort = false := by
  intro host o first i j
  have hhost : o.host.IsProper := by
    refine ⟨fun key sink arguments v harguments hv => ?_, nofun⟩
    exact harguments v (List.mem_of_head? (Except.ok.inj hv))
  have hj : j.Scripted := .run (.new _) hhost _
  have hfault : (j.run o (text "first(f)(first)")).outcome =
      .fault (.eval (.notNegatable first)) := by
    with_unfolding_all rfl
  exact ⟨hfault, (run_never_lastResort hj hhost _).1 _ hfault⟩

end Scriptlet

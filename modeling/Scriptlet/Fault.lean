/-
  Scriptlet.Fault

  Everything that can go wrong, by cause, with the code and the wording of each
  cause.
-/
import Scriptlet.Value

namespace Scriptlet

/-- The code of a script error is a word. Those below are the ones that the
    language has; a host may raise errors with others. -/
structure ErrorCode where
  label : Bytes
deriving DecidableEq, Repr

namespace ErrorCode

def lexing : ErrorCode := ⟨text "LEX_ERROR"⟩

def parsing : ErrorCode := ⟨text "SYNTAX_ERROR"⟩

def naming : ErrorCode := ⟨text "NAME_ERROR"⟩

def typing : ErrorCode := ⟨text "TYPE_ERROR"⟩

def arithmetic : ErrorCode := ⟨text "ARITHMETIC_ERROR"⟩

def callDepth : ErrorCode := ⟨text "CALL_DEPTH_EXCEEDED"⟩

def timeout : ErrorCode := ⟨text "EXECUTION_TIMEOUT"⟩

def canceled : ErrorCode := ⟨text "EXECUTION_CANCELED"⟩

def registry : ErrorCode := ⟨text "REGISTRY_ERROR"⟩

def host : ErrorCode := ⟨text "HOST_ERROR"⟩

end ErrorCode

/-! ## Causes -/

/-- Why a text could not be split into tokens. -/
inductive LexProblem where
  | unexpectedByte (b : UInt8)
  | invalidFloat (literal : Bytes)
  | unterminatedString
deriving DecidableEq, Repr

/-- Why tokens could not be read as a program. `none` stands for the end of the
    input. -/
inductive ParseProblem where
  | expectedPunctuation (mark : Bytes) (got : Option Lexeme)
  | unclosedBlock
  | expectedExpression
  | unexpectedToken (got : Lexeme)
  | unknownOperator (symbol : Bytes)
  | expectedIdentifier (got : Option Lexeme)
  | duplicateParameter (parameter function : Name)
deriving DecidableEq, Repr

/-- Why a tree could not be evaluated. -/
inductive EvalProblem where
  | unbound (name : Name)
  | notAssignable (target : Node)
  | strayElse
  | missingNode
  | notANumber (op : BinaryOp) (operand : Value)
  | notNegatable (operand : Value)
  | unknownUnary (op : UnaryOp)
  | inapplicable (op : BinaryOp)
  | divideByZero (left : Value) (op : BinaryOp) (right : Value)
  | notCallable (callee : Value)
  | tooDeep (limit : Int) (function : Name)

/-- Why an evaluation was stopped from outside. -/
inductive Interrupt where
  | canceled
  | expired
deriving DecidableEq, Repr

/-- Why the registry of builtins refused an operation. -/
inductive RegistryProblem where
  | invalidRegistration
  | invalidName (name : Bytes)
  | frozen
  | alreadyRegistered (name : Name)
  | notRegistered (name : Name)
deriving DecidableEq, Repr

/-- Why a host value could not become a global. -/
inductive GlobalProblem where
  | invalidName (name : Bytes)
  | unsupported (typeName : Bytes)
deriving DecidableEq, Repr

/-- A fault. Host functions may raise coded faults of their own, plain ones, and
    faults in a context; `hostFailed` wraps a fault of theirs that has no
    code. -/
inductive Fault where
  | lex (problem : LexProblem) (position : Position)
  | parse (problem : ParseProblem) (position : Position) (atEnd : Bool)
  | eval (problem : EvalProblem)
  | interrupted (interrupt : Interrupt)
  | registry (problem : RegistryProblem)
  | global (problem : GlobalProblem)
  | hostFailed (name : Name) (cause : Fault)
  | custom (code : ErrorCode) (message : Bytes) (position : Position)
  | customCaused (code : ErrorCode) (message : Bytes) (position : Position) (cause : Fault)
  | plain (message : Bytes)
  | within (context : Bytes) (inner : Fault)
  | missingFile (path : Bytes)

/-! ## Wording -/

/-- The kind of a lexeme as messages name it. -/
def Lexeme.kindWord : Lexeme → Bytes
  | .punctuation _ => text "punctuation"
  | .keyword _ => text "keyword"
  | .operator _ => text "operator"
  | l => l.kind

/-- What was found in place of something else. -/
def Lexeme.found : Option Lexeme → Bytes
  | none => text "end of input"
  | some (.punctuation [10]) => text "newline"
  | some l => l.kindWord ++ text " " ++ Quoted.quote l.literal

def LexProblem.message : LexProblem → Bytes
  | .unexpectedByte b => text "unexpected character " ++ Quoted.quoteChar b.toNat
  | .invalidFloat literal => text "Invalid float " ++ literal
  | .unterminatedString => text "unterminated string"

def ParseProblem.message : ParseProblem → Bytes
  | .expectedPunctuation mark got =>
    text "expected punctuation " ++ Quoted.quote mark ++ text ", got " ++ Lexeme.found got
  | .unclosedBlock => text "expected keyword \"end\""
  | .expectedExpression => text "expected expression"
  | .unexpectedToken got => text "unexpected token " ++ Lexeme.found (some got)
  | .unknownOperator symbol => text "unknown operator " ++ Quoted.quote symbol
  | .expectedIdentifier got => text "expected identifier, got " ++ Lexeme.found got
  | .duplicateParameter parameter function =>
    text "duplicate parameter " ++ Quoted.quote parameter ++ text " in function " ++ function

def EvalProblem.code : EvalProblem → ErrorCode
  | .unbound _ => .naming
  | .notAssignable _ => .parsing
  | .divideByZero _ _ _ => .arithmetic
  | .tooDeep _ _ => .callDepth
  | _ => .typing

def EvalProblem.message : EvalProblem → Bytes
  | .unbound name => text "variable not found: " ++ name
  | .notAssignable target =>
    text "left-hand side of an assignment must be an identifier, got " ++ target.render
  | .strayElse => text "cannot evaluate *sprite.ElseBranch"
  | .missingNode => text "cannot evaluate <nil>"
  | .notANumber op operand =>
    text "operator " ++ op.symbol ++ text " expects a number but got " ++ operand.describe
  | .notNegatable operand => text "unary - expects a number but got " ++ operand.describe
  | .unknownUnary op => text "unknown unary operator " ++ op.symbol
  | .inapplicable op => text "can't apply operator " ++ op.symbol
  | .divideByZero left op right =>
    text "divide by zero: " ++ left.inspect ++ text " " ++ op.symbol ++ text " " ++ right.inspect
  | .notCallable callee => text "cannot call " ++ callee.describe
  | .tooDeep limit function =>
    text "maximum call depth " ++ Bytes.ofInt limit ++ text " exceeded calling " ++ function

namespace Interrupt

def code : Interrupt → ErrorCode
  | .canceled => .canceled
  | .expired => .timeout

def message : Interrupt → Bytes
  | .canceled => text "execution canceled: context canceled"
  | .expired => text "execution timed out: context deadline exceeded"

end Interrupt

def RegistryProblem.message : RegistryProblem → Bytes
  | .invalidRegistration => text "invalid builtin registration"
  | .invalidName name =>
    text "builtin name " ++ Quoted.quote name ++ text " is not a valid identifier"
  | .frozen => text "builtin registry is frozen"
  | .alreadyRegistered name => text "builtin " ++ name ++ text " already registered"
  | .notRegistered name => text "builtin " ++ name ++ text " is not registered"

namespace GlobalProblem

def code : GlobalProblem → ErrorCode
  | .invalidName _ => .host
  | .unsupported _ => .typing

def message : GlobalProblem → Bytes
  | .invalidName name =>
    text "global name " ++ Quoted.quote name ++ text " is not a valid identifier"
  | .unsupported typeName => text "unsupported host value of type " ++ typeName

end GlobalProblem

namespace Fault

/-- The code of a fault: its own, or that of the fault inside it. -/
def code? : Fault → Option ErrorCode
  | .lex _ _ => some .lexing
  | .parse _ _ _ => some .parsing
  | .eval p => some p.code
  | .interrupted i => some i.code
  | .registry _ => some .registry
  | .global p => some p.code
  | .hostFailed _ _ => some .host
  | .custom code _ _ => some code
  | .customCaused code _ _ _ => some code
  | .plain _ => none
  | .within _ inner => inner.code?
  | .missingFile _ => none

/-- The position that belongs to the code; line zero when there is none. -/
def position : Fault → Position
  | .lex _ p => p
  | .parse _ p _ => p
  | .custom _ _ p => p
  | .customCaused _ _ p _ => p
  | .within _ inner => inner.position
  | _ => ⟨0, 0⟩

/-- A coded message with its position, if it has one. -/
def headline (code : ErrorCode) (message : Bytes) (p : Position) : Bytes :=
  let head := code.label ++ text ": " ++ message
  if p.line == 0 then head
  else
    head ++ text " (line " ++ Bytes.ofNat p.line ++ text ", column " ++ Bytes.ofNat p.column ++
      text ")"

/-- The full text of a fault. -/
def message : Fault → Bytes
  | .lex problem p => headline .lexing problem.message p
  | .parse problem p atEnd =>
    let suffix := if atEnd then text " (unexpected end of input)" else []
    headline .parsing (problem.message ++ suffix) p
  | .eval problem => headline problem.code problem.message ⟨0, 0⟩
  | .interrupted i => headline i.code i.message ⟨0, 0⟩
  | .registry problem => headline .registry problem.message ⟨0, 0⟩
  | .global problem => headline problem.code problem.message ⟨0, 0⟩
  | .hostFailed name cause =>
    headline .host (text "builtin " ++ name ++ text " failed") ⟨0, 0⟩ ++ text ": " ++ cause.message
  | .custom code m p => headline code m p
  | .customCaused code m p cause => headline code m p ++ text ": " ++ cause.message
  | .plain m => m
  | .within context inner => context ++ text ": " ++ inner.message
  | .missingFile path => text "open " ++ path ++ text ": no such file or directory"

end Fault

end Scriptlet

/-
  Scriptlet.Json.Parser

  Reading JSON text. A text is read as a whole: blanks may surround the
  document, and nothing else may.
-/
import Scriptlet.Json

namespace Scriptlet.Json

/-! ## Blanks and numbers -/

/-- Space, tab, line feed or carriage return. -/
def isBlank (b : UInt8) : Bool := b == 32 || b == 9 || b == 10 || b == 13

def skipBlanks (bs : Bytes) : Bytes := bs.dropWhile isBlank

/-- The digits at the start of a text and the rest. -/
def digits (bs : Bytes) : Bytes × Bytes := (bs.takeWhile Bytes.isDigit, bs.dropWhile Bytes.isDigit)

/-- One digit or more behind the bytes already taken. -/
def someDigits (taken bs : Bytes) : Option (Bytes × Bytes) :=
  let (ds, rest) := digits bs
  if ds.isEmpty then none else some (taken ++ ds, rest)

/-- The whole part of a number: no zero stands in front of other digits. -/
def wholePart (taken : Bytes) : Bytes → Option (Bytes × Bytes)
  | 48 :: rest => some (taken ++ [48], rest)
  | bs => someDigits taken bs

/-- The fraction of a number, if there is one. -/
def fractionPart (taken : Bytes) : Bytes → Option (Bytes × Bytes)
  | 46 :: rest => someDigits (taken ++ [46]) rest
  | bs => some (taken, bs)

/-- The exponent of a number, if there is one. -/
def exponentPart (taken : Bytes) : Bytes → Option (Bytes × Bytes)
  | b :: rest =>
    if b == 101 || b == 69 then
      match rest with
      | 43 :: more => someDigits (taken ++ [b, 43]) more
      | 45 :: more => someDigits (taken ++ [b, 45]) more
      | _ => someDigits (taken ++ [b]) rest
    else some (taken, b :: rest)
  | [] => some (taken, [])

/-- The text of a number and the rest. -/
def numeral (bs : Bytes) : Option (Bytes × Bytes) := do
  let (taken, rest) : Bytes × Bytes := match bs with
    | 45 :: rest => ([45], rest)
    | _ => ([], bs)
  let (taken, rest) ← wholePart taken rest
  let (taken, rest) ← fractionPart taken rest
  exponentPart taken rest

/-! ## Strings -/

/-- The bytes up to the quote that closes a string, and those behind it. -/
def closing : Bytes → Option (Bytes × Bytes)
  | [] => none
  | 34 :: rest => some ([], rest)
  -- Whatever stands behind a backslash does not close the string.
  | 92 :: b :: rest => (closing rest).map fun (s, rest) => (92 :: b :: s, rest)
  | b :: rest => (closing rest).map fun (s, rest) => (b :: s, rest)

/-- A byte of a string, or a code unit that an escape gives. -/
inductive Element where
  | byte (b : UInt8)
  | codeUnit (n : Nat)

/-- The byte that a letter behind a backslash stands for. -/
def ofLetter? (b : UInt8) : Option UInt8 :=
  match b with
  | 34 => some 34
  | 92 => some 92
  | 47 => some 47
  | 98 => some 8
  | 102 => some 12
  | 110 => some 10
  | 114 => some 13
  | 116 => some 9
  | _ => none

/-- The value of a hexadecimal digit of either case. -/
def hexDigit? (b : UInt8) : Option Nat :=
  if Bytes.isDigit b then some (b.toNat - 48)
  else if 97 ≤ b && b ≤ 102 then some (b.toNat - 87)
  else if 65 ≤ b && b ≤ 70 then some (b.toNat - 55)
  else none

/-- The value of four hexadecimal digits. -/
def hex4? (a b c d : UInt8) : Option Nat := do
  return ((← hexDigit? a) * 16 + (← hexDigit? b)) * 256 + (← hexDigit? c) * 16 + (← hexDigit? d)

/-- The elements of a string, which may not hold control characters. -/
def elements : Bytes → Option (List Element)
  | [] => some []
  | 92 :: 117 :: a :: b :: c :: d :: rest => do
    let n ← hex4? a b c d
    let es ← elements rest
    return .codeUnit n :: es
  | 92 :: b :: rest => do
    let c ← ofLetter? b
    let es ← elements rest
    return .byte c :: es
  | b :: rest =>
    -- A backslash is left here only if it is the last byte.
    if b < 32 || b == 92 then none
    else (elements rest).map fun es => .byte b :: es

def isHighSurrogate (n : Nat) : Bool := 0xD800 ≤ n && n < 0xDC00

def isLowSurrogate (n : Nat) : Bool := 0xDC00 ≤ n && n < 0xE000

/-- The text of elements. A pair of surrogates is one character; a surrogate
    without its partner is U+FFFD. -/
def assemble : List Element → Bytes
  | [] => []
  | .byte b :: es => b :: assemble es
  | .codeUnit high :: .codeUnit low :: es =>
    if isHighSurrogate high && isLowSurrogate low then
      Utf8.encode (0x10000 + (high - 0xD800) * 0x400 + (low - 0xDC00)) ++ assemble es
    -- The second may still be the first half of another pair.
    else Utf8.encode high ++ assemble (.codeUnit low :: es)
  | .codeUnit n :: es => Utf8.encode n ++ assemble es

/-- The string behind an opening quote and the rest. Stray bytes become
    U+FFFD. -/
def stringBody (bs : Bytes) : Option (Bytes × Bytes) := do
  let (raw, rest) ← closing bs
  let es ← elements raw
  return (Utf8.repair (assemble es), rest)

/-! ## Documents -/

/-- Lists and objects inside each other, at most. -/
def maxDepth : Nat := 10000

/-- A word at the start of a text. -/
def literal (word : Bytes) (j : Json) (bs : Bytes) : Option (Json × Bytes) :=
  if bs.startsWith word then some (j, bs.drop word.length) else none

/-- The key of a field with its colon. -/
def fieldKey (bs : Bytes) : Option (Bytes × Bytes) :=
  match skipBlanks bs with
  | 34 :: rest =>
    match stringBody rest with
    | none => none
    | some (key, rest) =>
      match skipBlanks rest with
      | 58 :: rest => some (key, rest)
      | _ => none
  | _ => none

mutual

/-- The document at the start of a text, inside `depth` lists and objects, and
    the rest. -/
def value : Nat → Nat → Bytes → Option (Json × Bytes)
  | 0, _, _ => none
  | fuel + 1, depth, bs =>
    match skipBlanks bs with
    | [] => none
    | b :: rest =>
      if b == 34 then (stringBody rest).map fun (s, rest) => (.str s, rest)
      else if b == 91 then
        -- The depth counts lists and objects alike.
        if maxDepth ≤ depth then none
        else
          match skipBlanks rest with
          | 93 :: rest => some (.list [], rest)
          | _ => (items fuel (depth + 1) rest).map fun (js, rest) => (.list js, rest)
      else if b == 123 then
        if maxDepth ≤ depth then none
        else
          match skipBlanks rest with
          | 125 :: rest => some (.object [], rest)
          | _ => (fields fuel (depth + 1) rest).map fun (fs, rest) => (.object fs, rest)
      else if b == 116 then literal (text "true") (.bool true) (b :: rest)
      else if b == 102 then literal (text "false") (.bool false) (b :: rest)
      else if b == 110 then literal (text "null") .null (b :: rest)
      else (numeral (b :: rest)).map fun (n, rest) => (.number n, rest)

/-- The items of a list up to its bracket. -/
def items : Nat → Nat → Bytes → Option (List Json × Bytes)
  | 0, _, _ => none
  | fuel + 1, depth, bs =>
    match value fuel depth bs with
    | none => none
    | some (j, rest) =>
      match skipBlanks rest with
      | 93 :: rest => some ([j], rest)
      | 44 :: rest => (items fuel depth rest).map fun (js, rest) => (j :: js, rest)
      | _ => none

/-- The fields of an object up to its brace. -/
def fields : Nat → Nat → Bytes → Option (List (Bytes × Json) × Bytes)
  | 0, _, _ => none
  | fuel + 1, depth, bs =>
    match fieldKey bs with
    | none => none
    | some (key, rest) =>
      match value fuel depth rest with
      | none => none
      | some (j, rest) =>
        match skipBlanks rest with
        | 125 :: rest => some ([(key, j)], rest)
        | 44 :: rest => (fields fuel depth rest).map fun (fs, rest) => ((key, j) :: fs, rest)
        | _ => none

end

/-- The document that a text holds. Every level of the reading takes a byte of
    it, or is the first inside one that did. -/
def parse (bs : Bytes) : Option Json :=
  match value (2 * bs.length + 2) 0 bs with
  | some (j, rest) => if (skipBlanks rest).isEmpty then some j else none
  | none => none

end Scriptlet.Json

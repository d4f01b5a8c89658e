/-
  Scriptlet.Yaml.Parser

  Reading the first document of a YAML text out of its tokens.
-/
import Scriptlet.Yaml
import Scriptlet.Yaml.Token.Lexer

namespace Scriptlet.Yaml

/-! ## State -/

/-- What a reader of tokens knows: the tokens to come, what the handles of tags
    stand for, and the parts with names, of which the incomplete have no part
    yet. -/
structure Reader where
  tokens : List Token
  handles : List (List Char × List Char)
  names : List (Bytes × Option Yaml)

namespace Reader

def skip (r : Reader) : Reader := { r with tokens := r.tokens.tail }

/-- Whether the next token is one of these. -/
def isAt (r : Reader) (ts : List Token) : Bool := r.tokens.head?.any ts.contains

/-- The part that a reference is to. -/
def find? (r : Reader) (name : Bytes) : Option Yaml :=
  match r.names.lookup name with
  | some (some y) => some (.reference name y)
  | some none => some (.unending name)
  | none => none

/-- Notes that a part with a name starts. -/
def started (r : Reader) (name : Option Bytes) : Reader :=
  match name with
  | some name => { r with names := (name, none) :: r.names }
  | none => r

/-- Notes the part of a name, unless another one has taken the name. -/
def completed (r : Reader) (name : Option Bytes) (y : Yaml) : Reader :=
  match name with
  | some name =>
    match r.names.lookup name with
    | some none => { r with names := (name, some y) :: r.names }
    | _ => r
  | none => r

end Reader

/-! ## Properties of parts -/

/-- The name and the tag in front of a part, in either order. -/
structure Properties where
  name : Option Bytes
  tag : Option Bytes

def Properties.isEmpty (p : Properties) : Bool := p.name.isNone && p.tag.isNone

/-- The full name of a tag. -/
def fullTag? (r : Reader) (handle suffix : List Char) : Option Bytes :=
  if handle.isEmpty then some (bytes suffix)
  else (r.handles.lookup handle).map fun meaning => bytes (meaning ++ suffix)

def properties? (r : Reader) : Option (Properties × Reader) :=
  match r.tokens with
  | .anchor name :: .tag handle suffix :: tokens | .tag handle suffix :: .anchor name :: tokens =>
    (fullTag? r handle suffix).map fun tag => (⟨some (bytes name), some tag⟩, { r with tokens })
  | .anchor name :: tokens => some (⟨some (bytes name), none⟩, { r with tokens })
  | .tag handle suffix :: tokens =>
    (fullTag? r handle suffix).map fun tag => (⟨none, some tag⟩, { r with tokens })
  | _ => some (⟨none, none⟩, r)

/-- A scalar. Without a tag its quotes, or else its text, tell its kind. -/
def scalarOf (contents : Bytes) (plain : Bool) (tag : Option Bytes) : Yaml :=
  match tag.filter (· != text "!") with
  | some name => .scalar contents (Tag.ofName name)
  | none => .scalar contents (if plain then Tag.ofPlain contents else .str)

/-! ## Parts -/

mutual

/-- A part of a document. Blocks stand only in blocks, and where a value is due
    the items of a list may start without a block of their own. -/
def part : Nat → Bool → Bool → Reader → Option (Yaml × Reader)
  | 0, _, _, _ => none
  | fuel + 1, inBlock, inEntry, r =>
    match r.tokens with
    | .reference name :: _ => (r.find? (bytes name)).map fun y => (y, r.skip)
    | _ =>
      match properties? r with
      | none => none
      | some (p, r) =>
        let r := r.started p.name
        let collection : Option (Option (Yaml × Reader)) :=
          if r.isAt [.flowListStart] then
            some ((flowItems fuel true r.skip).map fun (ys, r) => (.list ys, r))
          else if r.isAt [.flowMappingStart] then
            some ((flowEntries fuel true r.skip).map fun (es, r) => (.mapping es, r))
          else if inBlock && r.isAt [.listStart] then
            some ((blockItems fuel r.skip).map fun (ys, r) => (.list ys, r))
          else if inBlock && r.isAt [.mappingStart] then
            some ((blockEntries fuel r.skip).map fun (es, r) => (.mapping es, r))
          else if inEntry && r.isAt [.item] then
            some ((looseItems fuel r).map fun (ys, r) => (.list ys, r))
          else none
        let result :=
          match collection, r.tokens with
          | some result, _ => result
          | none, .scalar s plain :: _ => some (scalarOf (bytes s) plain p.tag, r.skip)
          -- A name or a tag may stand for itself, before an empty scalar.
          | none, _ => if p.isEmpty then none else some (scalarOf [] true p.tag, r)
        result.map fun (y, r) => (y, r.completed p.name y)

/-- A part, or nothing before one of these tokens. -/
def partBefore : Nat → Bool → Bool → List Token → Reader → Option (Yaml × Reader)
  | 0, _, _, _, _ => none
  | fuel + 1, inBlock, inEntry, stops, r =>
    if r.isAt stops then some (nothing, r) else part fuel inBlock inEntry r

/-- The value behind a key, or nothing if there is none before these tokens. -/
def valueBefore : Nat → Bool → List Token → Reader → Option (Yaml × Reader)
  | 0, _, _, _ => none
  | fuel + 1, inBlock, stops, r =>
    if r.isAt [.value] then partBefore fuel inBlock inBlock stops r.skip else some (nothing, r)

/-- The items of a block up to its end. -/
def blockItems : Nat → Reader → Option (List Yaml × Reader)
  | 0, _ => none
  | fuel + 1, r =>
    if r.isAt [.blockEnd] then some ([], r.skip)
    else if r.isAt [.item] then
      match partBefore fuel true false [.item, .blockEnd] r.skip with
      | none => none
      | some (y, r) => (blockItems fuel r).map fun (ys, r) => (y :: ys, r)
    else none

/-- Items without a block of their own. -/
def looseItems : Nat → Reader → Option (List Yaml × Reader)
  | 0, _ => none
  | fuel + 1, r =>
    if r.isAt [.item] then
      match partBefore fuel true false [.item, .key, .value, .blockEnd] r.skip with
      | none => none
      | some (y, r) => (looseItems fuel r).map fun (ys, r) => (y :: ys, r)
    else some ([], r)

/-- The entries of a block up to its end. -/
def blockEntries : Nat → Reader → Option (List (Yaml × Yaml) × Reader)
  | 0, _ => none
  | fuel + 1, r =>
    let stops := [Token.key, .value, .blockEnd]
    if r.isAt [.blockEnd] then some ([], r.skip)
    else if r.isAt [.key] then
      match partBefore fuel true true stops r.skip with
      | none => none
      | some (k, r) =>
        match valueBefore fuel true stops r with
        | none => none
        | some (v, r) => (blockEntries fuel r).map fun (es, r) => ((k, v) :: es, r)
    else none

/-- The items of a list up to its bracket, with commas between them. A comma may
    follow the last, and a key starts an item that is a mapping of one entry. -/
def flowItems : Nat → Bool → Reader → Option (List Yaml × Reader)
  | 0, _, _ => none
  | fuel + 1, first, r =>
    -- Every item but the first has a comma in front of it.
    let next := if first then r else r.skip
    if r.isAt [.flowListEnd] then some ([], r.skip)
    else if !first && !r.isAt [.comma] then none
    else if next.isAt [.flowListEnd] then some ([], next.skip)
    else
      match if next.isAt [.key] then flowPair fuel next.skip else part fuel false false next with
      | none => none
      | some (y, r) => (flowItems fuel false r).map fun (ys, r) => (y :: ys, r)

/-- The mapping of one entry behind the mark of its key. A key that is nothing
    takes the token with it before which it is nothing. -/
def flowPair : Nat → Reader → Option (Yaml × Reader)
  | 0, _ => none
  | fuel + 1, r =>
    let stops := [Token.comma, .flowListEnd]
    match
      if r.isAt (.value :: stops) then some (nothing, r.skip) else part fuel false false r with
    | none => none
    | some (k, r) => (valueBefore fuel false stops r).map fun (v, r) => (.mapping [(k, v)], r)

/-- The entries of a mapping up to its brace, with commas between them. A comma
    may follow the last, and a part without a colon is the key of nothing. -/
def flowEntries : Nat → Bool → Reader → Option (List (Yaml × Yaml) × Reader)
  | 0, _, _ => none
  | fuel + 1, first, r =>
    let next := if first then r else r.skip
    if r.isAt [.flowMappingEnd] then some ([], r.skip)
    else if !first && !r.isAt [.comma] then none
    else if next.isAt [.flowMappingEnd] then some ([], next.skip)
    else
      match flowEntry fuel next with
      | none => none
      | some (e, r) => (flowEntries fuel false r).map fun (es, r) => (e :: es, r)

/-- An entry of a mapping in braces. -/
def flowEntry : Nat → Reader → Option ((Yaml × Yaml) × Reader)
  | 0, _ => none
  | fuel + 1, r =>
    let stops := [Token.comma, .flowMappingEnd]
    if r.isAt [.key] then
      match partBefore fuel false false (.value :: stops) r.skip with
      | none => none
      | some (k, r) => (valueBefore fuel false stops r).map fun (v, r) => ((k, v), r)
    else (part fuel false false r).map fun (k, r) => ((k, nothing), r)

end

/-! ## Documents -/

/-- The handles of tags that need no directive. -/
def commonHandles : List (List Char × List Char) :=
  [("!".toList, "!".toList), ("!!".toList, "tag:yaml.org,2002:".toList)]

/-- What the directives of a document say about tags: at most one about each
    handle. At most one tells the version, and there is only one version. -/
def handlesOf? (directives : List Token) : Option (List (List Char × List Char)) :=
  let versions := directives.filter fun
    | .version _ _ => true
    | _ => false
  let handles := directives.filterMap fun
    | .handle name meaning => some (name, meaning)
    | _ => none
  let names := handles.map Prod.fst
  if (versions.isEmpty || versions == [.version 1 1]) && names.eraseDups.length == names.length then
    some (handles ++ commonHandles)
  else none

/-- The first document among tokens, which is nothing if there is none, and the
    tokens behind it. Directives have to end with the line that divides
    documents. -/
def document? (tokens : List Token) : Option (Yaml × List Token) :=
  let directives := tokens.takeWhile Token.isDirective
  let tokens := tokens.drop directives.length
  match handlesOf? directives with
  | none => none
  | some handles =>
    let content (tokens : List Token) : Option (Yaml × List Token) :=
      (part (4 * tokens.length + 8) true false ⟨tokens, handles, []⟩).map
        fun (y, r) => (y, r.tokens)
    match tokens with
    | [] => none
    | .documentStart :: tokens =>
      if tokens.head?.any Token.endsDocument then some (nothing, tokens) else content tokens
    | t :: _ =>
      if !directives.isEmpty then none
      else if t == .streamEnd then some (nothing, tokens)
      else content tokens

/-- How many tokens are looked at from the first behind a document. -/
def lookahead : Nat := 3

/-- The first document that a text holds. What follows it is not read, except
    that the next tokens have to be some, and if the first of them or one before
    it may be a key, all that are needed to tell. -/
def parse (bs : Bytes) : Option Yaml :=
  match characters? bs with
  | none => none
  | some cs =>
    let (tokens, failure) := Lexer.all (cs.length + 2) (Lexer.start cs)
    match document? tokens, failure with
    | none, _ => none
    | some (y, _), none => some y
    | some (y, rest), some pending =>
      -- Tokens that may be keys can still change the tokens in front of them.
      let behind := tokens.length - rest.length
      if lookahead ≤ rest.length && pending.all (behind < ·) then some y else none

end Scriptlet.Yaml

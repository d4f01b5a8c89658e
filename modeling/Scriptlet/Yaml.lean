/-
  Scriptlet.Yaml

  YAML documents, and reading typed fields out of them.
-/
import Scriptlet.Yaml.Tag
import Scriptlet.Global

namespace Scriptlet

/-- A document. A reference is to a part with a name, which is known to the
    document only where it is complete; one from inside that part has no end. -/
inductive Yaml where
  | scalar (contents : Bytes) (tag : Yaml.Tag)
  | list (items : List Yaml)
  | mapping (entries : List (Yaml × Yaml))
  | reference (name : Bytes) (target : Yaml)
  | unending (name : Bytes)

namespace Yaml

instance : Inhabited Yaml := ⟨.scalar [] .null⟩

/-- The scalar that stands where nothing is written. -/
def nothing : Yaml := .scalar [] .null

/-- The part that a reference is to, and any other part itself. -/
def target : Yaml → Yaml
  | .reference _ y => y
  | y => y

/-- What a scalar stands for; there is nothing if its text is not of its kind. -/
def meaning? (y : Yaml) : Option Meaning :=
  match y.target with
  | .scalar s tag => tag.read s
  | _ => none

/-- The text of a scalar. -/
def contents (y : Yaml) : Bytes :=
  match y.target with
  | .scalar s _ => s
  | _ => []

def isNull (y : Yaml) : Bool :=
  match y.meaning? with
  | some .null => true
  | _ => false

/-! ## Typed fields -/

/-- The integer of a number, its fraction being cut off. Numbers above the range
    have none; what is below it, and the one number that only rounding makes
    fit, become the least. -/
def ofDouble? (d : Double) : Option Int :=
  if d.isFinite then
    let n := d.truncate
    -- The number 2^63 is what the greatest word is rounded to.
    if Word.holds n then some n else if n ≤ Word.greatest + 1 then some Word.least else none
  else if d.isInfinite && d.isNegative then some Word.least
  else none

/-- An integer; null keeps the former value. -/
def toInt? (former : Int) (y : Yaml) : Option Int :=
  match y.meaning? with
  | some .null => some former
  | some (.int n) => if Word.holds n then some n else none
  | some (.float d) => ofDouble? d
  | _ => none

/-- A string: the text of any scalar; null keeps the former value. -/
def toText? (former : Bytes) (y : Yaml) : Option Bytes :=
  match y.meaning? with
  | some .null => some former
  | some _ => some y.contents
  | none => none

/-- The words for true where a boolean is due. -/
def trueWords : List String := ["y", "Y", "yes", "Yes", "YES", "on", "On", "ON"]

/-- The words for false where a boolean is due. -/
def falseWords : List String := ["n", "N", "no", "No", "NO", "off", "Off", "OFF"]

/-- A boolean, which has more names here than elsewhere; null keeps the former
    value. -/
def toBool? (former : Bool) (y : Yaml) : Option Bool :=
  match y.meaning? with
  | some .null => some former
  | some (.bool b) => some b
  | some (.str w) =>
    if trueWords.any fun t => text t == w then some true
    else if falseWords.any fun t => text t == w then some false
    else none
  | _ => none

/-! ## Keys -/

/-- Whether a key merges the mapping behind it into the one around it. -/
def isMerge : Yaml → Bool
  | .scalar s tag => tag == .merge && s == mergeMark
  | _ => false

/-- The text of a key, of which null has none; nothing but scalars may be
    keys. -/
def key? (y : Yaml) : Option (Option Bytes) :=
  y.meaning?.map fun
    | .null => none
    | _ => some y.contents

/-- Whether a key stands for a string. -/
def isTextKey (y : Yaml) : Bool :=
  match y.meaning? with
  | some (.str _) => true
  | _ => false

/-- Whether a key is of the kind of strings, or of that of merges. -/
def isTextOrMerge (y : Yaml) : Bool :=
  match y.target with
  | .scalar _ tag => tag == .str || tag == .merge
  | _ => false

/-- What tells keys apart before they are read. -/
def label : Yaml → Nat × Bytes
  | .scalar s _ => (0, s)
  | .list _ => (1, [])
  | .mapping _ => (2, [])
  | .reference name _ | .unending name => (3, name)

/-- Whether no two keys are the same. -/
def distinctKeys (entries : List (Yaml × Yaml)) : Bool :=
  let labels := entries.map fun e => e.1.label
  labels.eraseDups.length == labels.length

/-! ## Merging -/

/-- Takes the entries of a mapping that is merged, without those whose keys are
    taken. -/
def untaken (taken : List Bytes) : List (Yaml × Yaml) →
    Option (List (Bytes × Yaml) × List Bytes)
  | [] => some ([], taken)
  | (k, v) :: entries =>
    if k.isMerge then untaken taken entries
    else
      match k.key? with
      | none => none
      | some none => untaken taken entries
      | some (some key) =>
        if taken.contains key then untaken taken entries
        else (untaken (key :: taken) entries).map fun (es, taken) => ((key, v) :: es, taken)

/-- The keys of a mapping that no mapping merged into it may set again. -/
def textKeys (entries : List (Yaml × Yaml)) : List Bytes :=
  (entries.filter fun e => e.1.isTextKey).map fun e => e.1.contents

mutual

/-- The entries that a mapping merged into another adds, and the keys that are
    taken after that. -/
def merged (taken : List Bytes) : Yaml → Option (List (Bytes × Yaml) × List Bytes)
  | .mapping entries =>
    if distinctKeys entries then
      match untaken taken entries with
      | none => none
      | some (own, taken) =>
        (mergedInto taken entries).map fun (more, taken) => (own ++ more, taken)
    else none
  | .reference _ y => merged taken y
  | _ => none

/-- The entries that the merges of a mapping add: of a mapping, or of each one
    in a list. -/
def mergedInto (taken : List Bytes) :
    List (Yaml × Yaml) → Option (List (Bytes × Yaml) × List Bytes)
  | [] => some ([], taken)
  | (k, .list items) :: entries =>
    -- Only the first merge of a mapping counts.
    if k.isMerge then mergedEach taken items else mergedInto taken entries
  | (k, v) :: entries => if k.isMerge then merged taken v else mergedInto taken entries

def mergedEach (taken : List Bytes) : List Yaml → Option (List (Bytes × Yaml) × List Bytes)
  | [] => some ([], taken)
  | y :: ys =>
    match merged taken y with
    | none => none
    | some (es, taken) => (mergedEach taken ys).map fun (more, taken) => (es ++ more, taken)

end

/-- The entries of a mapping by their keys, its own before those that are merged
    into it. -/
def entries? (y : Yaml) : Option (List (Bytes × Yaml)) :=
  match y.target with
  | .mapping entries =>
    if distinctKeys entries then
      match untaken [] entries, mergedInto (textKeys entries) entries with
      | some (own, _), some (more, _) => some (own ++ more)
      | _, _ => none
    else none
  | _ => none

/-! ## Values of the host -/

/-- Whether entries can be merged from here. -/
def isMergeable (y : Yaml) : Bool :=
  let isMapping (y : Yaml) : Bool :=
    match y.target with
    | .mapping _ => true
    | _ => false
  match y with
  | .list items => items.all isMapping
  | _ => isMapping y

mutual

/-- Whether a document can be read as it is: its scalars are of their kinds, all
    keys are scalars, no mapping has a key twice, and every part has an end. -/
def isSound : Yaml → Bool
  | .scalar s tag => (tag.read s).isSome
  | .list items => isSoundEach items
  | .mapping entries => distinctKeys entries && isSoundEntries entries
  | .reference _ y => y.isSound
  | .unending _ => false

def isSoundEach : List Yaml → Bool
  | [] => true
  | y :: ys => y.isSound && isSoundEach ys

def isSoundEntries : List (Yaml × Yaml) → Bool
  | [] => true
  | (k, y) :: entries =>
    k.meaning?.isSome && (!k.isMerge || y.isMergeable) && y.isSound && isSoundEntries entries

end

/-- A value of the host. Lists and mappings have no counterpart in scripts. -/
def toHost? (y : Yaml) : Option HostValue :=
  if y.isSound then
    match y.target, y.meaning? with
    | _, some .null => some .absent
    | _, some (.bool b) => some (.bool b)
    | _, some (.int n) =>
      -- Numbers without a sign go up to 2^64.
      if Word.holds n then some (.int (Int64.ofInt n)) else some (.natural (UInt64.ofNat n.toNat))
    | _, some (.float d) => some (.double d)
    | _, some .moment => some (.unsupported (text "time.Time"))
    | _, some (.str s) => some (.str s)
    | .list _, none => some (.unsupported (text "[]interface \x7b\x7d"))
    | .mapping entries, none =>
      if entries.all fun e => e.1.isTextOrMerge then
        some (.unsupported (text "map[string]interface \x7b\x7d"))
      else some (.unsupported (text "map[interface \x7b\x7d]interface \x7b\x7d"))
    | _, none => none
  else none

/-- Takes the entries of a mapping in order, each by its key. Null stands for a
    mapping without entries. -/
def foldEntries {α : Type} (step : Bytes → Yaml → α → Option α) (y : Yaml) (a : α) : Option α :=
  if y.isNull then some a
  else y.entries?.bind fun entries => entries.foldlM (fun a e => step e.1 e.2 a) a

/-- Named values of the host, a later one of a name replacing a former one; null
    drops them all. -/
def toHostFields? (y : Yaml) : Option (List (Bytes × HostValue)) :=
  y.foldEntries (fun key v acc =>
    v.toHost?.map fun h => acc.filter (fun e => e.1 != key) ++ [(key, h)]) []

end Yaml

end Scriptlet

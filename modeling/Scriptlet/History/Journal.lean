/-
  Scriptlet.History.Journal

  The history with its file: a JSON array to which records are spliced in
  before its closing bracket, so that it is well formed after every append.
-/
import Scriptlet.Text.Blank
import Scriptlet.Json.Parser
import Scriptlet.History.Store

namespace Scriptlet

/-- Why a history could not be opened or appended to. -/
inductive HistoryProblem where
  | undecodable
  | missingStatus
  | missingBracket
  | nothingBeforeBracket
  | unwritableTime
deriving DecidableEq, Repr

def HistoryProblem.message : HistoryProblem → Bytes
  | .undecodable => text "history: undecodable file"
  | .missingStatus => text "history: record status is required"
  | .missingBracket => text "history: invalid file, missing closing bracket"
  | .nothingBeforeBracket => text "history: invalid file, no content before closing bracket"
  | .unwritableTime => Record.unwritable

namespace HistoryFile

/-- The records of a file; a blank one has none. -/
def load (content : Bytes) : Except HistoryProblem (List Record) :=
  if (Blank.trim content).isEmpty then .ok []
  else
    match (Json.parse content).bind Record.listOfJson? with
    | some rs => .ok rs
    | none => .error .undecodable

/-- How far from its end a file is searched for the bracket. -/
def window : Nat := 1024

/-- What closes the array. -/
def closing : Bytes := text "\n]\n"

/-- The content of a file with one record more. The last bracket near the end
    closes the array; white space before it is dropped, by bytes. -/
def splice (content element : Bytes) : Except HistoryProblem Bytes :=
  if content.isEmpty then .ok (text "[\n  " ++ element ++ closing)
  else
    -- Only the end of the file is looked at.
    let offset := content.length - window
    let tail := content.drop offset
    match Bytes.lastIndexOf 93 tail with
    | none => .error .missingBracket
    | some i =>
      let before := (tail.take i).reverse.dropWhile fun b => Blank.isBlank b.toNat
      match before with
      | [] => .error .nothingBeforeBracket
      | b :: _ =>
        -- Behind the opening bracket there is no record yet.
        let separator := if b == 91 then text "\n  " else text ",\n  "
        .ok (content.take (offset + before.length) ++ separator ++ element ++ closing)

end HistoryFile

/-- Where records are kept besides memory: nowhere, or in a file, which may not
    exist yet. -/
inductive Storage where
  | memory
  | file (content : Option Bytes)
deriving DecidableEq, Repr

/-- A history: the store and its file. -/
structure Journal where
  store : Store
  storage : Storage

namespace Journal

/-- Opens a history with the records of its file. -/
def openWith (storage : Storage) (cap : Int) : Except HistoryProblem Journal :=
  match storage with
  | .memory => .ok ⟨Store.empty cap, storage⟩
  | .file none => .ok ⟨Store.empty cap, storage⟩
  | .file (some content) =>
    match HistoryFile.load content with
    | .ok rs => .ok ⟨Store.ofRecords cap rs, storage⟩
    | .error problem => .error problem

/-- A history in memory without a cap. -/
def inMemory : Journal := ⟨Store.empty 0, .memory⟩

/-- The content of a file with one record more. A record that cannot be
    written is refused before the file is looked at. -/
def stored (content : Bytes) (r : Record) : Except HistoryProblem Bytes :=
  if r.isWritable then HistoryFile.splice content r.encode else .error .unwritableTime

/-- Appends a record, which has to have a status. One without an id gets
    `fresh`. When the file refuses the record nothing changes, but a file that
    did not exist is there, empty. -/
def append (j : Journal) (fresh : Bytes) (r : Record) : Except HistoryProblem Record × Journal :=
  let r := if r.id.isEmpty then { r with id := fresh } else r
  if r.status.isEmpty then (.error .missingStatus, j)
  else
    match j.storage with
    | .memory => (.ok r, { j with store := j.store.add r })
    | .file content =>
      match stored (content.getD []) r with
      | .ok content => (.ok r, ⟨j.store.add r, .file (some content)⟩)
      -- The file was created before the record was refused.
      | .error problem => (.error problem, { j with storage := .file (some (content.getD [])) })

end Journal

end Scriptlet

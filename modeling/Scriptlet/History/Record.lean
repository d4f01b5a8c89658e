/-
  Scriptlet.History.Record

  The record of one run, and its form as a JSON object.
-/
import Scriptlet.Timestamp
import Scriptlet.Json

namespace Scriptlet

/-- The record of a run. The duration is in nanoseconds. -/
structure Record where
  id : Bytes
  source : Bytes
  status : Bytes
  result : Bytes
  output : Bytes
  error : Bytes
  code : Bytes
  startedAt : Timestamp
  duration : Int
deriving DecidableEq, Repr

namespace Record

/-- The record with nothing in it. -/
def blank : Record := ⟨[], [], [], [], [], [], [], Timestamp.zero, 0⟩

def succeeded : Bytes := text "succeeded"

def failed : Bytes := text "failed"

/-- A field that is left out when it is empty. -/
def optional (key : String) (s : Bytes) : List (Bytes × Json) :=
  if s.isEmpty then [] else [(text key, .str s)]

/-- The object of a record. -/
def toJson (r : Record) : Json :=
  .object ([(text "id", .str r.id), (text "source", .str r.source),
    (text "status", .str r.status)] ++
    optional "result" r.result ++ optional "output" r.output ++ optional "error" r.error ++
    optional "code" r.code ++
    [(text "started_at", .str r.startedAt.render), (text "duration", .ofInt r.duration)])

/-- Whether a record has a text. -/
def isWritable (r : Record) : Bool := r.startedAt.isWritable

/-- Why a record has no text. -/
def unwritable : Bytes :=
  text "json: error calling MarshalJSON for type time.Time: Time.MarshalJSON: " ++
    text "timezone hour outside of range [0,23]"

/-- The text of a record in a history file. -/
def encode (r : Record) : Bytes := r.toJson.render

/-- A point in time; null keeps the former one. -/
def readTime (former : Timestamp) : Json → Option Timestamp
  | .null => some former
  | .str s => Timestamp.parse s
  | _ => none

/-- Takes one field of an object into a record; unknown ones are skipped. -/
def readField (key : Bytes) (j : Json) (r : Record) : Option Record :=
  if key == text "id" then (j.toText? r.id).map fun s => { r with id := s }
  else if key == text "source" then (j.toText? r.source).map fun s => { r with source := s }
  else if key == text "status" then (j.toText? r.status).map fun s => { r with status := s }
  else if key == text "result" then (j.toText? r.result).map fun s => { r with result := s }
  else if key == text "output" then (j.toText? r.output).map fun s => { r with output := s }
  else if key == text "error" then (j.toText? r.error).map fun s => { r with error := s }
  else if key == text "code" then (j.toText? r.code).map fun s => { r with code := s }
  else if key == text "started_at" then
    (readTime r.startedAt j).map fun t => { r with startedAt := t }
  else if key == text "duration" then (j.toInt? r.duration).map fun n => { r with duration := n }
  else some r

/-- The record of an object; null is the record with nothing in it. -/
def ofJson? (j : Json) : Option Record := j.foldFields readField blank

/-- The records of a list of objects. -/
def listOfJson? : Json → Option (List Record)
  | .null => some []
  | .list items => items.mapM ofJson?
  | _ => none

end Record

end Scriptlet

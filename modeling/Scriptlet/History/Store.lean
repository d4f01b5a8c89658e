/-
  Scriptlet.History.Store

  The records kept in memory: a list with a cap, and an index from ids to
  places in it.
-/
import Scriptlet.History.Record

namespace Scriptlet

/-- The kept records, oldest first, at most `cap` of them if it is positive,
    and the place of the last record of every id. -/
structure Store where
  cap : Int
  records : List Record
  index : List (Bytes × Nat)
deriving Repr

namespace Store

/-- A store without records. -/
def empty (cap : Int) : Store := ⟨cap, [], []⟩

/-- The index with one more place; the later place of an id wins. -/
def place (index : List (Bytes × Nat)) (id : Bytes) (i : Nat) : List (Bytes × Nat) :=
  (id, i) :: index.filter fun entry => entry.1 != id

/-- The index of records whose first is at place `i`. -/
def indexFrom (i : Nat) (index : List (Bytes × Nat)) : List Record → List (Bytes × Nat)
  | [] => index
  | r :: rs => indexFrom (i + 1) (place index r.id i) rs

/-- Adds a record. When the cap is exceeded the oldest records go. -/
def add (s : Store) (r : Record) : Store :=
  let records := s.records ++ [r]
  if s.cap ≤ 0 || (records.length : Int) ≤ s.cap then
    { s with records, index := place s.index r.id (records.length - 1) }
  else
    -- All places have moved, so the index is built anew.
    let kept := records.drop (records.length - s.cap.toNat)
    { s with records := kept, index := indexFrom 0 [] kept }

/-- A store of records added in order. -/
def ofRecords (cap : Int) (rs : List Record) : Store := rs.foldl add (empty cap)

def size (s : Store) : Nat := s.records.length

/-- The records, newest first, at most `limit` of them if it is positive. -/
def list (s : Store) (limit : Int) : List Record :=
  let newest := s.records.reverse
  if 0 < limit then newest.take limit.toNat else newest

/-- The last record with an id. -/
def get? (s : Store) (id : Bytes) : Option Record :=
  (s.index.lookup id).bind fun i => s.records[i]?

end Store

end Scriptlet

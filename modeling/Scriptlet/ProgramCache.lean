/-
  Scriptlet.ProgramCache

  Parsed programs by their source, with counts of how the cache was used.
-/
import Scriptlet.Tree

namespace Scriptlet

/-- The entries of a cache, newest first, and how often it was asked and
    filled. -/
structure ProgramCache where
  entries : List (Bytes × Program)
  hits : Nat
  misses : Nat
  sets : Nat

namespace ProgramCache

def empty : ProgramCache := ⟨[], 0, 0, 0⟩

/-- An empty cache for a number of programs, which has to be positive. -/
def ofCapacity (capacity : Int) : Except Bytes ProgramCache :=
  if capacity ≤ 0 then
    .error (text "cache: max programs must be positive, got " ++ Bytes.ofInt capacity)
  else .ok empty

/-- The program of a source, and the cache with one more hit or miss. -/
def get (c : ProgramCache) (source : Bytes) : Option Program × ProgramCache :=
  match c.entries.lookup source with
  | some p => (some p, { c with hits := c.hits + 1 })
  | none => (none, { c with misses := c.misses + 1 })

/-- Stores the program of a source. -/
def set (c : ProgramCache) (source : Bytes) (p : Program) : ProgramCache :=
  { c with entries := (source, p) :: c.entries.filter fun entry => entry.1 != source
           sets := c.sets + 1 }

/-- Drops all entries. -/
def clear (c : ProgramCache) : ProgramCache := { c with entries := [] }

end ProgramCache

end Scriptlet

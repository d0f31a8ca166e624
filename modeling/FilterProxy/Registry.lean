import FilterProxy.Phase

/-!
# FilterProxy/Registry — the streams not cleaned up yet, by identity

An identity names at most one stream: who registers last under it is found.
-/

namespace FilterProxy

/-- Streams by identity; each is named by its place in the list of streams. -/
structure Registry where
  entries : List (StreamId × Nat) := []
  deriving DecidableEq, Repr

namespace Registry

/-- Drop the entry of an identity. -/
def erase (r : Registry) (id : StreamId) : Registry := ⟨r.entries.filter (·.1 ≠ id)⟩

/-- Enter a stream, in place of any other of its identity. -/
def insert (r : Registry) (id : StreamId) (stream : Nat) : Registry :=
  ⟨(r.erase id).entries ++ [(id, stream)]⟩

/-- The stream of an identity. -/
def find? (r : Registry) (id : StreamId) : Option Nat :=
  (r.entries.find? (·.1 = id)).map (·.2)

/-- The identity is entered. -/
def contains (r : Registry) (id : StreamId) : Bool := (r.find? id).isSome

/-- How many streams are entered. -/
def size (r : Registry) : Nat := r.entries.length

/-- The streams entered, in order. -/
def streams (r : Registry) : List Nat := r.entries.map (·.2)

end Registry

end FilterProxy

import FilterProxy.Message
import FilterProxy.Ending

/-!
# FilterProxy/Route — where requests go

A routing table maps request headers to a route, a route names a cluster, and a cluster offers
hosts.  The table in force is held in one place and swapped as a whole.
-/

namespace FilterProxy

/-- What a routing table answers. -/
structure Route where
  name : String
  /-- The cluster requests of this route go to. -/
  cluster : String
  deriving DecidableEq, Repr, Inhabited

/-- A member of a cluster. -/
structure Host where
  address : String
  cluster : String
  deriving DecidableEq, Repr, Inhabited

/-- A routing table; a look-up may break off. -/
abbrev RouteTable := Headers → Except Panic (Option Route)

/-- The table in force, if one was ever installed. -/
structure Routing where
  table : Option RouteTable := none

namespace Routing

/-- Put another table in force. -/
def update (_ : Routing) (table : RouteTable) : Routing := ⟨some table⟩

/-- A table is in force. -/
def isConfigured (r : Routing) : Bool := r.table.isSome

/-- Look a route up; without a table there is none. -/
def find (r : Routing) (headers : Headers) : Except Panic (Option Route) :=
  match r.table with
  | none => .ok none
  | some table => table headers

end Routing

end FilterProxy

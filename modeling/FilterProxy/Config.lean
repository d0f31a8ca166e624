import FilterProxy.Tree
import FilterProxy.Stream
import FilterProxy.Text.Blank

/-!
# FilterProxy/Config — what a proxy is configured to be

A configuration that can be read may still be **unsound**: without a name, with a nameless filter,
or with no jump allowed.  All such faults are reported together.
-/

namespace FilterProxy

/-- One configured filter. -/
structure FilterConfig where
  /-- The name under which filters of its kind are registered. -/
  name : String
  /-- Where it runs, if it is a request filter. -/
  point : Option RequestPoint := none
  /-- What the filter itself makes of its configuration. -/
  config : Tree := .null

/-- The configuration of a proxy. -/
structure Config where
  name : String := "proxy"
  filters : List FilterConfig := []
  /-- Time limit of a pause in milliseconds; zero is none. -/
  stopTimeoutMs : UInt64 := 30000
  maxJumps : UInt32 := 8
  /-- Stats are counted. -/
  metrics : Bool := true

namespace Config

/-- The time limit of a pause, if there is one. -/
def stopTimeout (c : Config) : Option UInt64 :=
  if c.stopTimeoutMs = 0 then none else some c.stopTimeoutMs

/-- What the streams of the proxy are set to do. -/
def settings (c : Config) : Settings where
  proxy := c.name
  stopTimeout := c.stopTimeout
  maxJumps := c.maxJumps

/-- The name under which the proxy counts stats, if it does. -/
def meter (c : Config) : Option String := if c.metrics then some c.name else none

end Config

/-- A fault in a configuration. -/
inductive ConfigFault where
  | emptyName
  | emptyFilterName (index : Nat)
  | noJumps
  deriving DecidableEq, Repr

/-- The text of a fault. -/
def ConfigFault.message : ConfigFault → String
  | emptyName => "proxy name must not be empty"
  | emptyFilterName index => s!"stream filter #{index} has an empty name"
  | noJumps => "limits.max_phase_reentries must be at least 1"

namespace Config

/-- The filters without a name, by position, the first of which is `index`. -/
def namelessFrom (index : Nat) : List FilterConfig → List ConfigFault
  | [] => []
  | f :: rest =>
    if Text.allBlank f.name then .emptyFilterName index :: namelessFrom (index + 1) rest
    else namelessFrom (index + 1) rest

/-- **Every fault** of a configuration: its name, its filters in order, its limits. -/
def faults (c : Config) : List ConfigFault :=
  (if Text.allBlank c.name then [.emptyName] else []) ++
    namelessFrom 0 c.filters ++
    (if c.maxJumps = 0 then [.noJumps] else [])

end Config

end FilterProxy

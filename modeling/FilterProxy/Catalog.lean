import FilterProxy.Builtin
import FilterProxy.Proxy

/-!
# FilterProxy/Catalog — filters by name, and proxies built from configurations

A catalog maps the name of a configured filter to what makes it.  A proxy can be built if every
configured filter can be made; the first that cannot decides the failure.
-/

namespace FilterProxy

/-- What makes a filter of its configuration. -/
abbrev Maker (σ : Type) := FilterConfig → Except Failure (Installer σ)

/-- Makers by name. -/
structure Catalog (σ : Type) where
  makers : List (String × Maker σ) := []

namespace Catalog

variable {σ τ : Type}

/-- Register a maker, in place of any other of its name. -/
def register (c : Catalog σ) (name : String) (make : Maker σ) : Catalog σ :=
  ⟨(name, make) :: c.makers.filter (·.1 ≠ name)⟩

/-- The name is registered. -/
def contains (c : Catalog σ) (name : String) : Bool := c.makers.any (·.1 = name)

/-- Make a configured filter. -/
def make (c : Catalog σ) : Maker σ := fun f =>
  match c.makers.lookup f.name with
  | some make => make f
  | none => .error (.unknownFilter f.name)

/-- The maker with its filters seen as another type. -/
def retype (f : σ → τ) (make : Maker σ) : Maker τ := fun c =>
  (make c).map fun l => l.map (.map f)

/-- The makers of the filters every proxy knows. -/
def builtins : Catalog Builtin :=
  (({} : Catalog Builtin).register "set_header" Builtin.makeSetHeader
    |>.register "direct_response" Builtin.makeDirectResponse
    |>.register "response_header" Builtin.makeResponseHeader)

/-- The catalog with its filters seen as another type. -/
def map (f : σ → τ) (c : Catalog σ) : Catalog τ :=
  ⟨c.makers.map fun m => (m.1, retype f m.2)⟩

end Catalog

/-- **A proxy of a configuration**, with the filters a catalog makes. -/
def Proxy.ofConfig {σ ε : Type} (config : Config) (catalog : Catalog σ)
    (surroundings : Surroundings σ ε) (env : ε) : Except Failure (Proxy σ ε) :=
  match config.filters.mapM catalog.make with
  | .error failure => .error failure
  | .ok installers =>
    .ok { settings := config.settings, installers, surroundings, env, meter := config.meter }

end FilterProxy

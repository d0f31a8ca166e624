import FilterProxy.Route
import FilterProxy.Verdict

/-!
# FilterProxy/Callback — filters as programs over their handles

A filter meets its stream in two ways: it gets the working parts of a message and hands them back
changed, and through its **handle** it acts on the stream and reads from it.  A callback is
therefore a `Program`: a tree of actions and looks that ends in what the callback leaves behind.
A handle may be kept, so programs also run outside callbacks.
-/

namespace FilterProxy

/-- The two directions in which messages pass filters. -/
inductive Side where
  | request
  | response
  deriving DecidableEq, Repr

/-- What a handle can do to its stream. -/
inductive Action : Side → Type where
  /-- Answer the request directly, without any host. -/
  | reply (code : UInt16) (headers : Headers) : Action .request
  /-- Replace a part of the response from the next filter on. -/
  | replaceHeaders (headers : Headers) : Action .response
  | replaceData (data : Body) : Action .response
  | replaceTrailers (trailers : Headers) : Action .response
  /-- Resume the stream, if it is paused by the filter this handle belongs to. -/
  | resume {side : Side} : Action side
  /-- End the stream. -/
  | terminate {side : Side} : Action side
  deriving DecidableEq

/-- What a handle can read. -/
structure View where
  /-- The point whose request filters are being run. -/
  point : Option RequestPoint
  route : Option Route
  info : Info
  deriving DecidableEq

/-- A sequence of actions and looks that ends in an `α`. -/
inductive Program (side : Side) (α : Type) where
  | done (result : α)
  | act (action : Action side) (rest : Program side α)
  | look (rest : View → Program side α)

/-- What every callback is told about its stream. -/
structure Context where
  id : StreamId
  /-- The proxy the stream belongs to. -/
  proxy : String
  deriving DecidableEq, Repr

/-- What a callback leaves behind: the filter, the working parts, and the answer. -/
structure Reply (σ : Type) where
  filter : σ
  parts : Parts
  answer : Except Panic Verdict

/-- What a farewell leaves behind: the filter, and the panic that broke it off. -/
structure Farewell (σ : Type) where
  filter : σ
  panic : Option Panic := none

/-- How filters behave whose state is a `σ`. -/
structure Behaviour (σ : Type) where
  /-- Called once, as the filter is given its handle, and told whose stream it is added to.  It has
  no answer to give, and is taken not to panic. -/
  onAdd : σ → StreamId → (side : Side) → Program side σ := fun filter _ _ => .done filter
  /-- Called with the request. -/
  onRequest : σ → Context → Parts → Program .request (Reply σ)
  /-- Called with the response. -/
  onResponse : σ → Context → Parts → Program .response (Reply σ)
  /-- Called when the stream is gone. -/
  onDestroy : σ → (side : Side) → Program side (Farewell σ)

/-- A filter about to be added to a stream, and where it belongs. -/
inductive Registration (σ : Type) where
  | request (filter : σ) (point : RequestPoint)
  | response (filter : σ) (point : ResponsePoint)

namespace Registration

variable {σ : Type}

/-- The side the filter belongs to. -/
def side : Registration σ → Side
  | .request _ _ => .request
  | .response _ _ => .response

/-- The filter that is added. -/
def filter : Registration σ → σ
  | .request f _ | .response f _ => f

/-- The same place for a filter in another state. -/
def withFilter (g : σ) : Registration σ → Registration σ
  | .request _ p => .request g p
  | .response _ p => .response g p

end Registration

/-- What one configured filter adds to every new stream. -/
abbrev Installer (σ : Type) := List (Registration σ)

end FilterProxy

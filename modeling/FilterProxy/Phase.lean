/-!
# FilterProxy/Phase — the phases of a transaction run forward

A stream moves through eleven phases.  `next` raises the number by one until `done`; the only ways
back are the two **targets** a request filter may ask for, `matchRoute` and `chooseHost`.
-/

namespace FilterProxy

/-- A phase of a transaction, in the order a stream goes through them. -/
inductive Phase where
  /-- Nothing was received yet. -/
  | init
  /-- Request filters that run before a route is known. -/
  | filterRequest
  | matchRoute
  /-- Request filters that run once the route is known. -/
  | filterRouted
  | chooseHost
  /-- Request filters that run once the host is known. -/
  | filterHosted
  /-- The request is handed to the host. -/
  | forward
  /-- Waiting for the response. -/
  | awaitResponse
  | filterResponse
  /-- The response is written to the client. -/
  | respond
  | done
  deriving DecidableEq, Repr, Inhabited

namespace Phase

/-- Every phase, in order. -/
def all : List Phase :=
  [init, filterRequest, matchRoute, filterRouted, chooseHost, filterHosted, forward,
    awaitResponse, filterResponse, respond, done]

/-- Position in the order. -/
def number : Phase → Nat
  | init => 0
  | filterRequest => 1
  | matchRoute => 2
  | filterRouted => 3
  | chooseHost => 4
  | filterHosted => 5
  | forward => 6
  | awaitResponse => 7
  | filterResponse => 8
  | respond => 9
  | done => 10

/-- The phase with a given number. -/
def ofNumber? (n : Nat) : Option Phase := all[n]?

instance : LT Phase := ⟨fun p q => p.number < q.number⟩
instance : LE Phase := ⟨fun p q => p.number ≤ q.number⟩
instance (p q : Phase) : Decidable (p < q) := inferInstanceAs (Decidable (p.number < q.number))
instance (p q : Phase) : Decidable (p ≤ q) := inferInstanceAs (Decidable (p.number ≤ q.number))

/-- The phase that follows when nothing special happens. -/
def next : Phase → Phase
  | init => filterRequest
  | filterRequest => matchRoute
  | matchRoute => filterRouted
  | filterRouted => chooseHost
  | chooseHost => filterHosted
  | filterHosted => forward
  | forward => awaitResponse
  | awaitResponse => filterResponse
  | filterResponse => respond
  | respond => done
  | done => done

/-- The label in statistics and status texts. -/
def label : Phase → String
  | init => "init"
  | filterRequest => "down_filter"
  | matchRoute => "match_route"
  | filterRouted => "down_filter_after_route"
  | chooseHost => "choose_host"
  | filterHosted => "down_filter_after_choose_host"
  | forward => "down_recv_header"
  | awaitResponse => "wait_notify"
  | filterResponse => "up_filter"
  | respond => "up_recv_header"
  | done => "end"

/-- The phase with a given label. -/
def ofLabel? (text : String) : Option Phase := all.find? (·.label = text)

theorem number_next {p : Phase} (h : p ≠ done) : p.next.number = p.number + 1 := by
  cases p <;> first | rfl | exact absurd rfl h

theorem number_le (p : Phase) : p.number ≤ 10 := by cases p <;> decide

end Phase

/-- A point of the request's path at which request filters run. -/
inductive RequestPoint where
  | beforeRoute
  | afterRoute
  | afterHost
  deriving DecidableEq, Repr, Inhabited

namespace RequestPoint

/-- The phase that runs the filters of this point. -/
def phase : RequestPoint → Phase
  | beforeRoute => .filterRequest
  | afterRoute => .filterRouted
  | afterHost => .filterHosted

/-- The points count from one. -/
def number : RequestPoint → Nat
  | beforeRoute => 1
  | afterRoute => 2
  | afterHost => 3

/-- The label in configurations. -/
def label : RequestPoint → String
  | beforeRoute => "before_route"
  | afterRoute => "after_route"
  | afterHost => "after_choose_host"

/-- Every point, in order. -/
def all : List RequestPoint := [beforeRoute, afterRoute, afterHost]

/-- The point with a given label. -/
def ofLabel? (text : String) : Option RequestPoint := all.find? (·.label = text)

end RequestPoint

/-- The one point of the response's path at which response filters run. -/
inductive ResponsePoint where
  | beforeSend
  deriving DecidableEq, Repr, Inhabited

/-- What tells streams apart. -/
structure StreamId where
  value : UInt64
  deriving DecidableEq, Repr, Inhabited

/-- How a stream is called in texts. -/
def StreamId.display (id : StreamId) : String := s!"stream-{id.value.toNat}"

end FilterProxy

import FilterProxy.Verdict

/-!
# FilterProxy/Chain — one pass over the filters of a point

A chain keeps filters in the order they were added, each bound to a point.  A **pass** calls those
bound to one point, from a start position on, until one of them halts it.  Positions count over the
whole chain, so a stopped pass can be taken up again behind the filter that stopped it.

A panic inside a filter is an outcome of the pass; a panic inside the converter is not, and leaves
the pass where it stands.
-/

namespace FilterProxy

/-- A filter and the point it is bound to. -/
structure Entry (φ π : Type) where
  filter : φ
  point : π

/-- Filters in the order they were added. -/
abbrev Chain (φ π : Type) := List (Entry φ π)

namespace Chain

variable {φ π ω : Type}

/-- What a call of a filter leaves: its answer, the filter afterwards, and the state it worked
on. -/
structure Called (φ ω : Type) where
  answer : Except Panic Verdict
  filter : φ
  state : ω

/-- What a pass leaves; the result is an error iff the converter broke off. -/
structure Passed (φ π ω : Type) where
  result : Except Panic Outcome
  chain : Chain φ π
  state : ω

/-- How many filters are bound to `point`. -/
def count [DecidableEq π] (chain : Chain φ π) (point : π) : Nat :=
  chain.countP (·.point = point)

/-- What the pass comes to when no filter is left. -/
def atEnd : Option Phase → Outcome
  | none => .completed
  | some phase => .resumeAt phase

/-- The outcome a converted verdict brings about at once; `none` if the pass walks on. -/
def halt? (index : Nat) : Verdict → Option Outcome
  | .proceed => none
  | .stop => some (.stopped index)
  | .rematch => some (.resumeAt .matchRoute)
  | .rechoose => some (.resumeAt .chooseHost)
  | .terminate => some (.aborted (.verdict index))

variable [DecidableEq π] (point : π) (start : Nat) (convert : Converter)
  (call : Nat → φ → ω → Called φ ω)

/-- The pass over the part of a chain whose first position is `index`.  `wish` is the target of the
last verdict so far that, before conversion, asked to go back. -/
def passFrom (wish : Option Phase) (index : Nat) : Chain φ π → ω → Passed φ π ω
  | [], w => ⟨.ok (atEnd wish), [], w⟩
  | e :: rest, w =>
    if start ≤ index ∧ e.point = point then
      let c := call index e.filter w
      let e' : Entry φ π := ⟨c.filter, e.point⟩
      match c.answer with
      | .error p => ⟨.ok (.aborted (.panic index p.message)), e' :: rest, c.state⟩
      | .ok raw =>
        match convert raw with
        | .error p => ⟨.error p, e' :: rest, c.state⟩
        | .ok verdict =>
          match halt? index verdict with
          | some outcome => ⟨.ok outcome, e' :: rest, c.state⟩
          | none =>
            let r := passFrom (raw.target? <|> wish) (index + 1) rest c.state
            ⟨r.result, e' :: r.chain, r.state⟩
    else
      let r := passFrom wish (index + 1) rest w
      ⟨r.result, e :: r.chain, r.state⟩

/-- **One pass**: call the filters bound to `point` from position `start` on. -/
def pass (chain : Chain φ π) (w : ω) : Passed φ π ω :=
  passFrom point start convert call none 0 chain w

end Chain

end FilterProxy

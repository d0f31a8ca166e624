import FilterProxy.Board
import FilterProxy.Chain

/-!
# FilterProxy/FilterSet — the filters of one stream

Request filters and response filters form a chain each.  A filter that is added is given the handle
of the next place of its side, and **whatever it does, then and later, it does through that
handle**.

A pass runs the callbacks of filters on the working parts and on the board.  Response parts replaced
through a handle are put in **before and after** each response filter, so a replacement made while
the filter had the stream stopped is not lost.
-/

namespace FilterProxy

/-- A filter and the handle it was given. -/
structure Seated (σ : Type) where
  filter : σ
  /-- The place the handle speaks for. -/
  seat : Nat

/-- The filters of one stream. -/
structure FilterSet (σ : Type) where
  requests : Chain (Seated σ) RequestPoint := []
  responses : Chain (Seated σ) ResponsePoint := []
  /-- Where the last request pass asked to go back to, until it is taken. -/
  again : Option Phase := none

/-- What a pass works on. -/
structure Workbench (σ : Type) where
  board : Board σ
  parts : Parts

/-- What a pass over a filter set leaves. -/
structure SetPassed (σ : Type) where
  result : Except Panic Outcome
  filters : FilterSet σ
  bench : Workbench σ

/-- Run a program through the handle of a filter. -/
def Program.through {σ α : Type} {side : Side} (f : Seated σ) (program : Program side α)
    (b : Board σ) :
    α × Board σ :=
  program.run f.filter f.seat b

namespace FilterSet

variable {σ : Type} (β : Behaviour σ)

/-! ## Adding filters -/

/-- How many filters a side has. -/
def size (s : FilterSet σ) : Side → Nat
  | .request => s.requests.length
  | .response => s.responses.length

/-- Seat a filter behind those of its side. -/
def enlist (s : FilterSet σ) : Registration σ → FilterSet σ
  | .request f p => { s with requests := s.requests ++ [⟨⟨f, s.requests.length⟩, p⟩] }
  | .response f p => { s with responses := s.responses ++ [⟨⟨f, s.responses.length⟩, p⟩] }

/-- Give a filter the handle of the next place of its side, and let it act through it. -/
def introduce (s : FilterSet σ) (b : Board σ) (r : Registration σ) : σ × Board σ :=
  let seat := s.size r.side
  (β.onAdd r.filter b.context.id r.side).through ⟨r.filter, seat⟩
    (b.note (.added r.side seat r.filter))

/-- Add a filter.  **It is given its handle before it has its seat.** -/
def add (s : FilterSet σ) (b : Board σ) (r : Registration σ) : FilterSet σ × Board σ :=
  let x := s.introduce β b r
  (s.enlist (r.withFilter x.1), x.2)

/-! ## Callbacks -/

/-- Call a request filter. -/
def callRequest (index : Nat) (f : Seated σ) (w : Workbench σ) :
    Chain.Called (Seated σ) (Workbench σ) :=
  let board := w.board.note (.called .request index f.filter w.board.point w.parts)
  let r := (β.onRequest f.filter board.context w.parts).through f board
  ⟨r.1.answer, ⟨r.1.filter, f.seat⟩, ⟨r.2, r.1.parts⟩⟩

/-- Call a response filter between two rounds of replacements; a panic skips the second. -/
def callResponse (index : Nat) (f : Seated σ) (w : Workbench σ) :
    Chain.Called (Seated σ) (Workbench σ) :=
  let before := w.board.putReplaced w.parts
  let board := before.2.note (.called .response index f.filter before.2.point before.1)
  let r := (β.onResponse f.filter board.context before.1).through f board
  match r.1.answer with
  | .error p => ⟨.error p, ⟨r.1.filter, f.seat⟩, ⟨r.2, r.1.parts⟩⟩
  | .ok v =>
    let after := r.2.putReplaced r.1.parts
    ⟨.ok v, ⟨r.1.filter, f.seat⟩, ⟨after.2, after.1⟩⟩

/-! ## Passes -/

/-- One pass over the request filters of `point` from position `start` on.  While it runs, handles
read `point`; when the converter breaks off they go on reading it. -/
def passRequests (point : RequestPoint) (start : Nat) (convert : Converter) (s : FilterSet σ)
    (w : Workbench σ) : SetPassed σ :=
  let r := s.requests.pass point start convert (callRequest β)
    { w with board := { w.board with point := some point } }
  let s := { s with requests := r.chain }
  match r.result with
  | .error p =>
    ⟨.error p, s, { r.state with board := r.state.board.note (.passed point (.error p)) }⟩
  | .ok outcome =>
    let board := { r.state.board with point := none }.note (.passed point (.ok outcome))
    let again := match outcome with
      | .resumeAt target => some target
      | _ => s.again
    ⟨.ok outcome, { s with again := again }, ⟨board, r.state.parts⟩⟩

/-- Response filters cannot send the stream back: such a wish counts as completion. -/
def settle : Outcome → Outcome
  | .resumeAt _ => .completed
  | o => o

/-- One pass over the response filters from position `start` on. -/
def passResponses (point : ResponsePoint) (start : Nat) (convert : Converter) (s : FilterSet σ)
    (w : Workbench σ) : SetPassed σ :=
  let r := s.responses.pass point start convert (callResponse β) w
  ⟨r.result.map settle, { s with responses := r.chain }, r.state⟩

/-- Take the wish to go back. -/
def takeAgain (s : FilterSet σ) : Option Phase × FilterSet σ := (s.again, { s with again := none })

/-! ## Farewell -/

/-- Tell the filters of a chain, whose first position is `index`, that the stream is gone; the
first panic ends the round. -/
def destroyFrom {π : Type} (side : Side) (index : Nat) :
    Chain (Seated σ) π → Board σ → Option Panic × Chain (Seated σ) π × Board σ
  | [], b => (none, [], b)
  | e :: rest, b =>
    let f := e.filter
    let r := (β.onDestroy f.filter side).through f (b.note (.destroyed side index f.filter))
    let e' : Entry (Seated σ) π := ⟨⟨r.1.filter, f.seat⟩, e.point⟩
    match r.1.panic with
    | some p => (some p, e' :: rest, r.2)
    | none =>
      let t := destroyFrom side (index + 1) rest r.2
      (t.1, e' :: t.2.1, t.2.2)

/-- Tell every filter that the stream is gone, request filters first. -/
def destroy (s : FilterSet σ) (b : Board σ) : Option Panic × FilterSet σ × Board σ :=
  let r := destroyFrom β .request 0 s.requests b
  match r.1 with
  | some p => (some p, { s with requests := r.2.1 }, r.2.2)
  | none =>
    let t := destroyFrom β .response 0 s.responses r.2.2
    (t.1, { s with requests := r.2.1, responses := t.2.1 }, t.2.2)

end FilterSet

end FilterProxy

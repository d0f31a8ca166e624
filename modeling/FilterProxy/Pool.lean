import FilterProxy.Event

/-!
# FilterProxy/Pool — jobs run in the order they came, timed jobs once they are due

The pool holds the jobs of many streams, each named by its place in the list of streams.  Timed
jobs wait by a clock of their own; they are never cancelled, only outlived.
-/

namespace FilterProxy

/-- A timeout that waits for its moment. -/
structure Timer where
  deadline : Nat
  stream : Nat
  generation : Nat
  deriving DecidableEq, Repr

/-- Jobs to run, timeouts to wait for, and the time in milliseconds. -/
structure Pool where
  queue : List (Nat × Job) := []
  timers : List Timer := []
  now : Nat := 0

namespace Pool

/-- Put a job at the end of the queue. -/
def schedule (p : Pool) (stream : Nat) (job : Job) : Pool :=
  { p with queue := p.queue ++ [(stream, job)] }

/-- Set a timeout that is due `delay` from now. -/
def scheduleAfter (p : Pool) (delay : Nat) (stream generation : Nat) : Pool :=
  { p with timers := p.timers ++ [⟨p.now + delay, stream, generation⟩] }

/-- The timeouts due at a moment, by deadline, those of one deadline by age. -/
def due (p : Pool) (moment : Nat) : List Timer :=
  (p.timers.filter (·.deadline ≤ moment)).mergeSort (fun a b => a.deadline ≤ b.deadline)

/-- Let time pass: what is due moves to the queue. -/
def advance (p : Pool) (ms : Nat) : Nat × Pool :=
  let moment := p.now + ms
  let due := p.due moment
  (due.length,
    { queue := p.queue ++ due.map fun t => (t.stream, .timeout t.generation)
      timers := p.timers.filter (moment < ·.deadline)
      now := moment })

/-- Take the timeouts of one stream out of the wait, in order of deadline. -/
def fire (p : Pool) (stream : Nat) : Pool :=
  let due := (p.timers.filter (·.stream = stream)).mergeSort (fun a b => a.deadline ≤ b.deadline)
  { p with
    queue := p.queue ++ due.map fun t => (t.stream, .timeout t.generation)
    timers := p.timers.filter (·.stream ≠ stream) }

/-- Take the first job of the queue. -/
def next? (p : Pool) : Option ((Nat × Job) × Pool) :=
  match p.queue with
  | [] => none
  | job :: rest => some (job, { p with queue := rest })

/-- The moments waited for, in order. -/
def deadlines (p : Pool) : List Nat := (p.timers.map (·.deadline)).mergeSort (· ≤ ·)

end Pool

end FilterProxy

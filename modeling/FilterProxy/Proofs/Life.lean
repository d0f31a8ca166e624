import FilterProxy.Stream.Work
import FilterProxy.Proofs.Log

/-!
# Proofs/Life — everything that can happen to a stream

A **life** is a stream with its whole log and the jobs already run.  One **deed** happens after the
other: the embedder's, a kept handle's, the transport's, or the pool's.  The pool may run the jobs
that were put out **in any order**, and a timeout at any moment after it was set.

Whatever surrounds the stream may be different at every deed, as other streams share it.
-/

namespace FilterProxy

variable {σ ε : Type}

/-! ## Jobs that were put out -/

/-- A job that was put out. -/
structure Posting where
  job : Job
  /-- It came with a direct reply and not from the embedder. -/
  byReply : Bool := false
  deriving DecidableEq

/-- A direct reply was accepted. -/
def Event.isReply : Event σ → Bool
  | .replied _ _ true => true
  | _ => false

/-- What an event puts out, given the events before it.  An accepted reply is followed at once by
the job that it puts out. -/
def Event.posting? (older : List (Event σ)) : Event σ → Option Posting
  | .scheduled job => some ⟨job, job = .resume none && older.head?.any Event.isReply⟩
  | .armed _ generation => some ⟨.timeout generation, false⟩
  | _ => none

/-- The jobs a log put out, latest first. -/
def posted : List (Event σ) → List Posting
  | [] => []
  | e :: older => (e.posting? older).toList ++ posted older

/-! ## Lives -/

/-- A stream and what became of its jobs. -/
structure Life (σ : Type) where
  stream : Stream σ
  /-- The jobs that were run, latest first. -/
  ran : List Posting := []
  /-- How often direct runs called the response filter at a position. -/
  direct : Nat → Nat := fun _ => 0

/-- Seat a filter that was told so before. -/
def Stream.enlist (s : Stream σ) (r : Registration σ) : Stream σ :=
  { s with filters := s.filters.enlist r }

/-- Something that happens to a stream. -/
inductive Deed (σ ε : Type) where
  /-- A filter of some behaviour is added. -/
  | add (β : Behaviour σ) (r : Registration σ)
  /-- The embedder hands a request over, maybe not the first. -/
  | receive (request : Message)
  /-- The embedder resumes the stream. -/
  | resume
  /-- The stream is reset, shut down, or ended through a handle outside of callbacks. -/
  | terminate (ending : Ending)
  /-- A program runs through the kept handle of a filter. -/
  | act (side : Side) (filter : σ) (index : Nat) (program : Program side Unit)
  /-- The transport answers, or throws the chance to answer away. -/
  | answer (h : Handover)
  /-- The response filters are run over a message outside of the phases. -/
  | direct (c : Surroundings σ ε) (message : Message) (convert : Converter)
  /-- The pool runs a job, if it was put out and not run yet. -/
  | run (p : Posting) (c : Surroundings σ ε) (env : ε)

/-- The deed is a direct run. -/
def Deed.isDirect : Deed σ ε → Bool
  | .direct _ _ _ => true
  | _ => false

namespace Life

/-- The whole log, latest first. -/
def log (l : Life σ) : List (Event σ) := l.stream.board.log

/-- Posting `p` was put out more often than run. -/
def Due (l : Life σ) (p : Posting) : Prop := l.ran.count p < (posted l.log).count p

instance (l : Life σ) (p : Posting) : Decidable (l.Due p) :=
  inferInstanceAs (Decidable (l.ran.count p < (posted l.log).count p))

/-- The life of a fresh stream. -/
def fresh (id : StreamId) (settings : Settings) : Life σ := { stream := .create id settings }

/-- The same life with another stream. -/
def become (l : Life σ) (s : Stream σ) : Life σ := { l with stream := s }

@[simp] theorem become_stream (l : Life σ) (s : Stream σ) : (l.become s).stream = s := rfl
@[simp] theorem become_ran (l : Life σ) (s : Stream σ) : (l.become s).ran = l.ran := rfl
@[simp] theorem become_direct (l : Life σ) (s : Stream σ) : (l.become s).direct = l.direct := rfl
@[simp] theorem become_log (l : Life σ) (s : Stream σ) : (l.become s).log = s.board.log := rfl

/-- Put a job out. -/
def post (l : Life σ) (job : Job) : Life σ :=
  l.become { l.stream with board := l.stream.board.schedule job }

/-- Note a panic that escaped from a job. -/
def survive (panic : Option Panic) (s : Stream σ) : Stream σ :=
  match panic with
  | some p => s.note (.escaped p)
  | none => s

/-- **Let one deed happen.** -/
def next (l : Life σ) : Deed σ ε → Life σ
  | .add β r => l.become (l.stream.addFilter β r)
  | .receive request => l.post (.receive request)
  | .resume => l.post (.resume none)
  | .terminate ending => l.become (l.stream.terminate ending).2
  | .act _ filter index program =>
    l.become { l.stream with board := (program.run filter index l.stream.board).2 }
  | .answer h => l.become (Turn.answer l.stream h)
  | .direct c message convert =>
    let s := (l.stream.runResponseFilters c.behaviour .beforeSend message convert).2
    { l with
      stream := s
      direct := fun i => l.direct i +
        ((calls .response s.board.log).count i - (calls .response l.log).count i) }
  | .run p c env =>
    if l.Due p then
      let r := Turn.exec c p.job ⟨l.stream, env⟩
      { l with stream := survive r.1 r.2.stream, ran := p :: l.ran }
    else l

/-- **The life after some deeds.** -/
def after (id : StreamId) (settings : Settings) (deeds : List (Deed σ ε)) : Life σ :=
  deeds.foldl next (fresh id settings)

theorem after_append (id : StreamId) (settings : Settings) (deeds more : List (Deed σ ε)) :
    after id settings (deeds ++ more) = more.foldl next (after id settings deeds) :=
  List.foldl_append

end Life

/-! ## Small lives -/

/-- A filter lets everything pass. -/
def passing : Behaviour Unit where
  onRequest _ _ parts := .done ⟨(), parts, .ok .proceed⟩
  onResponse _ _ parts := .done ⟨(), parts, .ok .proceed⟩
  onDestroy _ _ := .done { filter := () }

/-- A filter is the verdicts it will give. -/
def foreseen : Behaviour (List Verdict) where
  onRequest vs _ parts := .done ⟨vs.tail, parts, .ok (vs.headD .proceed)⟩
  onResponse vs _ parts := .done ⟨vs, parts, .ok .proceed⟩
  onDestroy vs _ := .done { filter := vs }

/-- Surroundings in which nobody answers but the client, who takes every response. -/
def Surroundings.secluded (β : Behaviour σ) : Surroundings σ Unit where
  behaviour := β
  choose _ _ _ := (.ok (.error .noRoute), ())
  forward _ _ _ _ := ({ handover := .dropped }, ())
  write _ _ _ := (.ok (.ok ()), ())

end FilterProxy

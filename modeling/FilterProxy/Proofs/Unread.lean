import FilterProxy.Proofs.Recast

/-!
# Proofs/Unread — a proxy may take a stream's log away

A stream does the same on top of another log (`Stream.atop`), with as many pauses behind it.  So a
proxy may take the log away after each visit: **a job does the same on top of any log**, and in any
state in which the collaborators answer alike (`Turn.Over.exec`).
-/

namespace FilterProxy

variable {σ ε : Type}

@[simp] theorem Event.delayed_zero : Event.delayed 0 = (id : Event σ → Event σ) := by
  funext e
  cases e <;> simp only [Event.delayed, Nat.zero_add, id]

@[simp] theorem Job.delayed_zero (job : Job) : job.delayed 0 = job := by
  cases job <;> simp only [Job.delayed, Nat.zero_add]

/-! ## Boards -/

namespace Board

/-- The board with its log on top of an older one. -/
def atop (older : List (Event σ)) (b : Board σ) : Board σ := { b with log := b.log ++ older }

variable (older : List (Event σ)) (b : Board σ)

@[simp] theorem atop_log : (b.atop older).log = b.log ++ older := rfl

/-- With no pause more behind it, a recast board is on top of the log. -/
theorem recast_zero : b.recast 0 older = b.atop older := by
  simp only [recast, atop, Event.delayed_zero, List.map_id]

theorem atop_schedule (job : Job) : (b.atop older).schedule job = (b.schedule job).atop older := by
  simpa only [recast_zero] using recast_schedule 0 older b job

end Board

/-- **A program** does the same on top of any log. -/
theorem Program.run_atop {α : Type} {side : Side} (older : List (Event σ)) (filter : σ)
    (index : Nat) (program : Program side α) (b : Board σ) : program.run filter index (b.atop older)
      = ((program.run filter index b).1, (program.run filter index b).2.atop older) := by
  simpa only [Board.recast_zero] using Program.run_recast 0 older filter index program b

/-! ## Streams -/

namespace Stream

/-- The stream with its log on top of an older one. -/
def atop (older : List (Event σ)) (s : Stream σ) : Stream σ :=
  { s with board := s.board.atop older }

variable (older : List (Event σ)) (s : Stream σ)

@[simp] theorem atop_board : (s.atop older).board = s.board.atop older := rfl
@[simp] theorem atop_claimed : (s.atop older).claimed = s.claimed := rfl

@[simp] theorem atop_nil : s.atop [] = s := by
  rw [atop, Board.atop, List.append_nil]

/-- With no pause more behind it, a recast stream is on top of the log. -/
theorem recast_zero : s.recast 0 older = s.atop older := by
  simp only [recast, atop, Board.recast_zero, Nat.zero_add]

theorem addFilter_atop (β : Behaviour σ) (r : Registration σ) :
    (s.atop older).addFilter β r = (s.addFilter β r).atop older := by
  simpa only [recast_zero] using addFilter_recast 0 older s β r

theorem terminate_atop (ending : Ending) : (s.atop older).terminate ending
    = ((s.terminate ending).1, (s.terminate ending).2.atop older) := by
  simpa only [recast_zero] using terminate_recast 0 older s ending

theorem runResponseFilters_atop (β : Behaviour σ) (message : Message) (convert : Converter) :
    (s.atop older).runResponseFilters β .beforeSend message convert
      = ((s.runResponseFilters β .beforeSend message convert).1,
        (s.runResponseFilters β .beforeSend message convert).2.atop older) := by
  simpa only [recast_zero] using runResponseFilters_recast 0 older s β message convert

theorem answer_atop (x : Handover) :
    Turn.answer (s.atop older) x = (Turn.answer s x).atop older := by
  simpa only [recast_zero] using answer_recast 0 older s x

end Stream

/-! ## Turns -/

namespace Turn

/-- The second turn is the first on top of an older log, in a related state. -/
structure Over (E : ε → ε → Prop) (older : List (Event σ)) (t t' : Turn σ ε) : Prop where
  stream : t'.stream = t.stream.atop older
  env : E t.env t'.env

/-- **A job does the same** on top of any log, and in any state in which the collaborators answer
alike. -/
theorem Over.exec {E : ε → ε → Prop} {older : List (Event σ)} {c : Surroundings σ ε}
    {t t' : Turn σ ε} (hc : c.Alike E) (h : Over E older t t') (job : Job) :
    (t'.exec c job).1 = (t.exec c job).1 ∧ Over E older (t.exec c job).2 (t'.exec c job).2 := by
  have hrecast : Recast E 0 older t t' := ⟨by rw [h.stream, Stream.recast_zero], h.env⟩
  obtain ⟨hfst, hstream, henv⟩ := hrecast.exec hc job
  rw [Job.delayed_zero] at hfst hstream henv
  exact ⟨hfst, ⟨by rw [hstream, Stream.recast_zero], henv⟩⟩

end Turn

end FilterProxy

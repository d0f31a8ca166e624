import FilterProxy.Stream.Work
import FilterProxy.Proofs.Execute

/-!
# Proofs/Drive — what driving a stream comes to

A drive executes phases until one of them does not lead on.  `Turn.drive_induction` is the induction
over it: the fuel never runs out, since **every phase leaves less work ahead**.  `Turn.ran_exec`
says which jobs do not concern a stream, and from where the others drive it (`Stream.Opens`).
-/

namespace FilterProxy

variable {σ ε : Type}

theorem Phase.next_ne_done {p : Phase} (hp : p ∉ [awaitResponse, respond, done]) :
    p.next ≠ done := by cases p <;> first | decide | exact absurd (by decide) hp

namespace Stream

/-- The stream as it executes its phase. -/
def entered (s : Stream σ) : Stream σ := s.note (.entered s.phase)

@[simp] theorem entered_phase (s : Stream σ) : s.entered.phase = s.phase := rfl
@[simp] theorem entered_pausedBy (s : Stream σ) : s.entered.pausedBy = s.pausedBy := rfl
@[simp] theorem entered_generation (s : Stream σ) : s.entered.generation = s.generation := rfl
@[simp] theorem entered_filters (s : Stream σ) : s.entered.filters = s.filters := rfl
@[simp] theorem entered_log (s : Stream σ) :
    s.entered.board.log = .entered s.phase :: s.board.log := rfl
@[simp] theorem entered_claimed (s : Stream σ) : s.entered.board.claimed = s.board.claimed := rfl

/-- The stream once its phase is complete. -/
def advanced (s : Stream σ) : Stream σ :=
  { s.note (.stat (.phaseCompleted s.phase)) with phase := s.phase.next }

@[simp] theorem advanced_phase (s : Stream σ) : s.advanced.phase = s.phase.next := rfl

/-- The stream once it jumped. -/
def jumped (s : Stream σ) (q : Phase) (rest : Nat) : Stream σ :=
  { { s with jumpsLeft := rest }.note (.jumped q) with phase := q }

/-- The stream once its pause is over. -/
def woken (s : Stream σ) : Stream σ :=
  { s with pausedBy := none, board := s.board.publish .running }

/-- The stream once its pause is over and a direct reply is the response. -/
def rerouted (s : Stream σ) (reply : Message) : Stream σ :=
  { s.woken with
    phase := .filterResponse, response := reply, board := s.woken.board.takeReply.2 }

/-- The stream once it took the host's response. -/
def responded (s : Stream σ) (m : Message) : Stream σ :=
  { { s with board := s.board.closeReply.2, response := s.board.reply.getD m }.note
      (.stat (.phaseCompleted .awaitResponse)) with phase := .filterResponse }

end Stream

/-- A phase may be executed: nobody claimed the stream. -/
structure Stream.Live (s : Stream σ) : Prop where
  unclaimed : s.board.claimed = false
  notDone : s.phase ≠ .done

namespace Stream

open Board

variable {start : Nat} {s s' : Stream σ} {step : Step} {new : List (Event σ)} {is : List Nat}

theorem Executed.worked (h : Executed start s step s' new is) : Worked start s s' new is := by
  cases h <;> assumption

/-- Executing a phase moves the board. -/
theorem Executed.moves (h : Executed start s.entered step s' new is) (hl : s.Live) :
    Moves s.board s'.board :=
  h.worked.moves.head (.effect _ rfl hl.unclaimed)

theorem Executed.log (h : Executed start s.entered step s' new is) :
    s'.board.log = (new ++ [.entered s.phase]) ++ s.board.log := by
  rw [h.worked.log, entered_log, List.append_assoc]
  rfl

theorem Executed.phase (h : Executed start s.entered step s' new is) : s'.phase = s.phase :=
  h.worked.phase

/-- Only request filters take a direct reply, straight to the response filters. -/
theorem Executed.of_goto {q : Phase} (h : Executed start s.entered (.goto q) s' new is) :
    ∃ point : RequestPoint, s.phase = point.phase ∧ q = .filterResponse := by
  cases h with
  | reply hw ha hp =>
    obtain ⟨point, hpoint⟩ := Phase.exists_point hp
    exact ⟨point, hpoint, rfl⟩

/-- Only request filters go back. -/
theorem Executed.of_jump {q : Phase} (h : Executed start s.entered (.jump q) s' new is) :
    ∃ point : RequestPoint, s.phase = point.phase ∧ (q = .matchRoute ∨ q = .chooseHost) := by
  cases h with
  | @jump _ _ _ _ point hw ha hp hq => exact ⟨point, hp, hq⟩

end Stream

/-! ## Work ahead -/

namespace Stream

variable {start : Nat} {s s' : Stream σ} {new : List (Event σ)} {is : List Nat}

theorem work_advanced (h : Executed start s.entered .next s' new is) :
    s'.advanced.work < s.work := by
  cases h with
  | next hw ha hp =>
    have hd : s.phase ≠ .done := fun hd => hp (by rw [entered_phase, hd]; decide)
    have hj : s'.advanced.jumpsLeft = s.jumpsLeft := hw.jumpsLeft
    have hnumber := Phase.number_next hd
    have hle := s.phase.next.number_le
    rw [work, work, hj, advanced_phase, hw.phase, entered_phase]
    omega

theorem work_goto {q : Phase} (h : Executed start s.entered (.goto q) s' new is) :
    ({ s' with phase := q } : Stream σ).work < s.work := by
  have hj : s'.jumpsLeft = s.jumpsLeft := h.worked.jumpsLeft
  obtain ⟨point, hpoint, rfl⟩ := h.of_goto
  have hlt : s.phase.number < 8 := by rw [hpoint]; cases point <;> decide
  have hnumber : Phase.filterResponse.number = 8 := rfl
  simp only [work, hj, hnumber]
  omega

theorem work_jumped {q : Phase} {rest : Nat} (h : Executed start s.entered (.jump q) s' new is)
    (hj : s'.jumpsLeft = rest + 1) : (s'.jumped q rest).work < s.work := by
  have hj' : s.jumpsLeft = rest + 1 := h.worked.jumpsLeft.symm.trans hj
  simp only [work, jumped, note, hj']
  omega

end Stream

/-! ## The induction over a drive -/

/-- The step leads on to no other phase, or to none that it may. -/
def Step.isLast : Step → Bool
  | .next | .goto _ => false
  | _ => true

/-- What holds of a stream about to execute its phase (`P`) and leads to what holds at the end
(`Q`). -/
structure Leads (β : Behaviour σ) (P : Nat → Stream σ → Prop)
    (Q : Option Panic → Stream σ → Prop) : Prop where
  owned : ∀ {start s}, P start s → s.board.owned = true
  notDone : ∀ {start s}, P start s → s.phase ≠ .done
  halt : ∀ {start s}, P start s → s.board.claimed = true → Q none s
  stay : ∀ {start s step s' new is}, P start s → s.Live →
    Stream.Executed start s.entered step s' new is → step.isLast → ∀ panic, Q panic s'
  finish : ∀ {start s step s' new is}, P start s → s.Live →
    Stream.Executed start s.entered step s' new is → step.isLast → ∀ ending,
      Q (s'.finish β ending).1 (s'.finish β ending).2
  next : ∀ {start s s' new is}, P start s → s.Live →
    Stream.Executed start s.entered .next s' new is → P 0 s'.advanced
  goto : ∀ {start s q s' new is}, P start s → s.Live →
    Stream.Executed start s.entered (.goto q) s' new is → P 0 { s' with phase := q }
  jump : ∀ {start s q s' new is rest}, P start s → s.Live →
    Stream.Executed start s.entered (.jump q) s' new is → s'.jumpsLeft = rest + 1 →
      P 0 (s'.jumped q rest)

namespace Turn

open Board FilterProxy.Stream

variable (c : Surroundings σ ε)

/-- **Enough fuel never runs out.** -/
theorem driveFor_induction {P : Nat → Stream σ → Prop} {Q : Option Panic → Stream σ → Prop}
    (hl : Leads c.behaviour P Q) : ∀ (n start : Nat) (t : Turn σ ε), P start t.stream →
      t.stream.work ≤ n → Q (t.driveFor c n start).1 (t.driveFor c n start).2.stream
  | 0, start, t, hP, hn => by
    -- a stream about to execute its phase has work ahead
    have hlt : t.stream.phase.number < 10 := by
      have hd := hl.notDone hP
      revert hd
      cases t.stream.phase <;> decide
    rw [work] at hn
    omega
  | n + 1, start, t, hP, hn => by
    rw [driveFor]
    split
    case isTrue h =>
      rcases h with h | h
      · exact hl.halt hP h
      · exact absurd h (hl.notDone hP)
    case isFalse h =>
      obtain ⟨hc, hd⟩ := not_or.mp h
      have hlive : t.stream.Live := ⟨by simpa [Stream.claimed] using hc, hd⟩
      obtain ⟨new, is, hx⟩ := executed_step c start
        (t := { t with stream := t.stream.entered }) hd hlive.unclaimed
        (show t.stream.board.owned = true from hl.owned hP)
      have hfold : ({ t with stream := t.stream.note (.entered t.stream.phase) } : Turn σ ε)
          = { t with stream := t.stream.entered } := rfl
      simp only [hfold]
      generalize ({ t with stream := t.stream.entered } : Turn σ ε).step c start = r at hx ⊢
      obtain ⟨step, t'⟩ := r
      dsimp only at hx ⊢
      cases step with
      | next =>
        have heq : t'.advance t.stream.phase = { t' with stream := t'.stream.advanced } := by
          rw [← hx.phase]; rfl
        rw [heq]
        have hle := Nat.le_of_lt_succ (Nat.lt_of_lt_of_le (work_advanced hx) hn)
        exact driveFor_induction hl n 0 _ (hl.next hP hlive hx) hle
      | goto q =>
        have hle := Nat.le_of_lt_succ (Nat.lt_of_lt_of_le (work_goto hx) hn)
        exact driveFor_induction hl n 0 _ (hl.goto hP hlive hx) hle
      | jump q =>
        cases hj : t'.stream.jumpsLeft with
        | zero =>
          dsimp only
          exact hl.finish hP hlive hx rfl .tooManyJumps
        | succ rest =>
          dsimp only
          have hle := Nat.le_of_lt_succ (Nat.lt_of_lt_of_le (work_jumped hx hj) hn)
          exact driveFor_induction hl n 0 _ (hl.jump hP hlive hx hj) hle
      | rest => exact hl.stay hP hlive hx rfl none
      | finish ending => exact hl.finish hP hlive hx rfl ending
      | escape p => exact hl.stay hP hlive hx rfl (some p)

/-- **A drive leads from what it starts with to what it leads to.** -/
theorem drive_induction {P : Nat → Stream σ → Prop} {Q : Option Panic → Stream σ → Prop}
    (hl : Leads c.behaviour P Q) (start : Nat) (t : Turn σ ε) (h : P start t.stream) :
    Q (t.drive c start).1 (t.drive c start).2.stream :=
  driveFor_induction c hl t.stream.work start t h (Nat.le_refl _)

/-! ## Jobs -/

end Turn

namespace Stream

/-- The job does not concern the stream as it stands. -/
def Ignores (s : Stream σ) : Job → Prop
  | .receive _ => s.board.claimed = true ∨ s.phase ≠ .init
  | .resume caller => s.pausedBy = none ∨ s.board.claimed = true ∨ ¬ s.heeds caller = true
  | .response _ => s.board.claimed = true ∨ s.phase ≠ .awaitResponse
  | .timeout generation => s.pausedBy = none ∨ s.generation ≠ generation
  | .release _ => False

/-- **The job has the stream driven**, from a position on, once it is as told. -/
inductive Opens (s : Stream σ) : Job → Nat → Stream σ → Prop
  | receive {m} (hc : s.board.claimed = false) (hp : s.phase = .init) :
      Opens s (.receive m) 0 { s with request := m }
  | resume {caller index} (hc : s.board.claimed = false) (hp : s.pausedBy = some index)
      (hcaller : s.heeds caller = true)
      (hr : ¬ (s.phase < .filterResponse ∧ s.board.reply.isSome)) :
      Opens s (.resume caller) (index + 1) s.woken
  | reroute {caller index reply} (hc : s.board.claimed = false) (hp : s.pausedBy = some index)
      (hcaller : s.heeds caller = true) (hlt : s.phase < .filterResponse)
      (hr : s.board.reply = some reply) : Opens s (.resume caller) 0 (s.rerouted reply)
  | response {m} (hc : s.board.claimed = false) (hp : s.phase = .awaitResponse) :
      Opens s (.response m) 0 (s.responded m)

theorem Opens.unclaimed {s s' : Stream σ} {job : Job} {k : Nat} (h : s.Opens job k s') :
    s.board.claimed = false := by
  cases h <;> assumption

end Stream

namespace Turn

open Board FilterProxy.Stream

variable (c : Surroundings σ ε)

/-- **What a job comes to**: nothing, a drive, an inline ending, or the release. -/
inductive Ran (t : Turn σ ε) : Job → Option Panic × Turn σ ε → Prop
  | idle {job} (h : t.stream.Ignores job) : Ran t job (none, t)
  | drive {job start s} (h : t.stream.Opens job start s) :
      Ran t job ({ t with stream := s }.drive c start)
  | timeout {index} (hp : t.stream.pausedBy = some index) :
      Ran t (.timeout t.stream.generation) (t.alone (·.finish c.behaviour .stopTimeout))
  | release (ending) : Ran t (.release ending) (t.alone (·.release c.behaviour ending))

/-- Whoever is heeded ends the pause. -/
theorem resume_of_heeds {t : Turn σ ε} {caller : Option (Side × Nat)} {index : Nat}
    (hc : t.stream.board.claimed = false) (hp : t.stream.pausedBy = some index)
    (hcaller : t.stream.heeds caller = true) :
    ∃ start s, t.stream.Opens (.resume caller) start s ∧
      t.resume c caller = { t with stream := s }.drive c start := by
  have hgo : ¬ (t.stream.claimed = true ∨ ¬ t.stream.heeds caller = true) := by
    simp [Stream.claimed, hc, hcaller]
  unfold resume
  rw [hp]
  dsimp only
  rw [if_neg hgo]
  split
  case isTrue h =>
    obtain ⟨hlt, hsome⟩ := h
    obtain ⟨reply, hr⟩ := Option.isSome_iff_exists.mp hsome
    have hr : t.stream.board.reply = some reply := hr
    refine ⟨0, _, .reroute hc hp hcaller hlt hr, ?_⟩
    simp only [shortcut, takeReply, Board.publish, Board.note, hr, rerouted, woken]
  case isFalse h => exact ⟨index + 1, _, .resume hc hp hcaller h, rfl⟩

theorem ran_receive (t : Turn σ ε) (m : Message) : Ran c t (.receive m) (t.receive c m) := by
  unfold receive
  split
  case isTrue h => exact .idle h
  case isFalse h =>
    obtain ⟨hc, hp⟩ := not_or.mp h
    exact .drive (.receive (by simpa [Stream.claimed] using hc) (Decidable.not_not.mp hp))

theorem ran_resume (t : Turn σ ε) (caller : Option (Side × Nat)) :
    Ran c t (.resume caller) (t.resume c caller) := by
  cases hp : t.stream.pausedBy with
  | none =>
    unfold resume
    rw [hp]
    exact .idle (.inl hp)
  | some index =>
    by_cases h : t.stream.claimed = true ∨ ¬ t.stream.heeds caller = true
    · unfold resume
      rw [hp]
      dsimp only
      rw [if_pos h]
      exact .idle (.inr h)
    · obtain ⟨hc, hcaller⟩ := not_or.mp h
      have hc : t.stream.board.claimed = false := by simpa [Stream.claimed] using hc
      obtain ⟨start, s, hopens, heq⟩ := resume_of_heeds c hc hp (Decidable.not_not.mp hcaller)
      rw [heq]
      exact .drive hopens

theorem ran_respondWith (t : Turn σ ε) (m : Message) :
    Ran c t (.response m) (t.respondWith c m) := by
  unfold respondWith
  split
  case isTrue h => exact .idle h
  case isFalse h =>
    obtain ⟨hc, hp⟩ := not_or.mp h
    exact .drive (.response (by simpa [Stream.claimed] using hc) (Decidable.not_not.mp hp))

theorem ran_timeout (t : Turn σ ε) (generation : Nat) :
    Ran c t (.timeout generation) (t.timeout c generation) := by
  unfold timeout
  split
  case isTrue h => exact .idle (h.imp_left Option.isNone_iff_eq_none.mp)
  case isFalse h =>
    obtain ⟨hp, hg⟩ := not_or.mp h
    obtain ⟨index, hp⟩ := Option.ne_none_iff_exists'.mp (by simpa using hp)
    obtain rfl := Decidable.not_not.mp hg
    exact .timeout hp

/-- **Every job runs as told.** -/
theorem ran_exec (t : Turn σ ε) (job : Job) : Ran c t job (t.exec c job) := by
  cases job with
  | receive m => exact ran_receive c t m
  | resume caller => exact ran_resume c t caller
  | release ending => exact .release ending
  | response m => exact ran_respondWith c t m
  | timeout generation => exact ran_timeout c t generation

end Turn

namespace Stream

/-- **No job but the release takes the stream up**: it is in no pause, and claimed or in the middle
of a phase. -/
structure Left (s : Stream σ) : Prop where
  awake : s.pausedBy = none
  idle : s.board.claimed = true ∨ s.phase ≠ .init ∧ s.phase ≠ .awaitResponse

theorem Left.exec {s : Stream σ} (h : s.Left) (c : Surroundings σ ε) (env : ε) {job : Job}
    (hj : ∀ ending, job ≠ .release ending) : Turn.exec c job ⟨s, env⟩ = (none, ⟨s, env⟩) := by
  have hran := Turn.ran_exec c ⟨s, env⟩ job
  generalize Turn.exec c job ⟨s, env⟩ = r at hran ⊢
  have hpaused {i : Nat} (hp : s.pausedBy = some i) : False := by
    rw [h.awake] at hp
    cases hp
  have hphase (hc : s.board.claimed = false) : s.phase ≠ .init ∧ s.phase ≠ .awaitResponse :=
    h.idle.resolve_left (by simp [hc])
  cases hran with
  | idle => rfl
  | drive ho =>
    cases ho with
    | receive hc hp => exact absurd hp (hphase hc).1
    | resume _ hp => exact (hpaused hp).elim
    | reroute _ hp => exact (hpaused hp).elim
    | response hc hp => exact absurd hp (hphase hc).2
  | timeout hp => exact (hpaused hp).elim
  | release ending => exact absurd rfl (hj ending)

end Stream

end FilterProxy

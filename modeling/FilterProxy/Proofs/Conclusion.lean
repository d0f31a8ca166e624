import FilterProxy.Proofs.Carry
import FilterProxy.Proofs.Teardown

/-!
# Proofs/Conclusion — what a pass over request filters comes to

A phase of request filters makes one pass (`Stream.pass`) and then concludes from its result
(`Stream.Concludes`).  **A waiting direct reply is looked at on completion and on a stop only.**
-/

namespace FilterProxy

variable {σ ε φ π ω : Type}

/-- The state a pass leaves is the one the last filter it called left, if it called any; it called
it where it found it.  What each call keeps holds when that filter is called. -/
theorem Chain.Passes.last {point : π} {start : Nat} {convert : Converter}
    {call : Nat → φ → ω → Called φ ω} {wish : Option Phase} {index : Nat}
    {chain : Chain φ π} {w : ω} {is : List Nat} {r : Passed φ π ω} {P : ω → Prop}
    (hcall : ∀ i f w, P w → P (call i f w).state)
    (h : Passes point start convert call wish index chain w is r) (hw : P w) :
    is = [] ∧ r.state = w ∨ ∃ i f v, index ≤ i ∧ (chain[i - index]?).map (·.filter) = some f ∧ P v ∧
      r.state = (call i f v).state := by
  have later {e : Entry φ π} {rest : Chain φ π} {index i : Nat} {f : φ} (hi : index + 1 ≤ i)
      (hf : (rest[i - (index + 1)]?).map (·.filter) = some f) :
      ((e :: rest)[i - index]?).map (·.filter) = some f := by
    rw [show i - index = i - (index + 1) + 1 by omega]
    exact hf
  induction h with
  | nil => exact .inl ⟨rfl, rfl⟩
  | skip _ _ ih =>
    rcases ih hw with hnone | ⟨i, f, v, hi, hf, hv, hstate⟩
    · exact .inl hnone
    · exact .inr ⟨i, f, v, by omega, later hi hf, hv, hstate⟩
  | @halt _ index => exact .inr ⟨index, _, _, Nat.le_refl _, by simp, hw, rfl⟩
  | @walk _ index _ _ _ _ _ _ _ _ _ _ ih =>
    rcases ih (hcall _ _ _ hw) with ⟨-, hstate⟩ | ⟨i, f, v, hi, hf, hv, hstate⟩
    · exact .inr ⟨index, _, _, Nat.le_refl _, by simp, hw, hstate⟩
    · exact .inr ⟨i, f, v, by omega, later hi hf, hv, hstate⟩

namespace Stream

open Board FilterSet

variable (β : Behaviour σ) (point : RequestPoint) (k : Nat) (s : Stream σ)

/-- The pass a stream makes that executes the phase of `point`. -/
def pass : SetPassed σ :=
  s.entered.filters.passRequests β point k s.settings.convert ⟨s.entered.board, s.request.parts⟩

/-- The stream once that pass ended. -/
def passed : Stream σ := { s.entered with
  filters := (s.pass β point k).filters
  board := (s.pass β point k).bench.board
  request := (s.pass β point k).bench.parts.message }

variable {β point k s}

theorem pause_of_claimed (n : Nat) (hc : s.board.claimed = true) :
    s.pause n = (.rest, s) := if_pos hc

/-- The stream in another pause, by the filter at position `n`. -/
def halted (n : Nat) (s : Stream σ) : Stream σ := { s with
  pausedBy := some n, generation := s.generation + 1, board := s.board.publish (.paused s.phase) }

/-- A pause begins with its status, and with its time limit if there is one. -/
theorem pause_of_unclaimed (n : Nat) (hc : s.board.claimed = false) :
    (s.pause n).2 = match s.settings.stopTimeout with
      | none => s.halted n
      | some delay => (s.halted n).note (.armed delay (s.generation + 1)) := by
  have hclaimed : ¬ s.claimed = true := by simp [claimed, hc]
  rw [pause, if_neg hclaimed]
  dsimp only
  cases s.settings.stopTimeout <;> rfl

/-- Whatever becomes of a pause, the stream rests. -/
theorem pause_fst (n : Nat) (s : Stream σ) : (s.pause n).1 = .rest := by
  unfold pause
  split
  · rfl
  · dsimp only
    split <;> rfl

/-- **What is concluded from a pass**, given the stream it left. -/
inductive Concludes (s : Stream σ) : Except Panic Outcome → Step → Stream σ → Prop
  | next (hr : s.board.reply = none) : Concludes s (.ok .completed) .next s
  /-- The waiting reply becomes the response. -/
  | reply {outcome m} (ho : outcome = .completed ∨ ∃ n, outcome = .stopped n)
      (hr : s.board.reply = some m) :
      Concludes s (.ok outcome) (.goto .filterResponse)
        { s with board := s.board.takeReply.2, response := m }
  | pause {n} (hr : s.board.reply = none) (hc : s.board.claimed = false) :
      Concludes s (.ok (.stopped n)) .rest (s.pause n).2
  /-- The stream was ended in the course of the pass. -/
  | rest {n} (hr : s.board.reply = none) (hc : s.board.claimed = true) :
      Concludes s (.ok (.stopped n)) .rest s
  | jump {q} : Concludes s (.ok (.resumeAt q)) (.jump q) { s with filters := s.filters.takeAgain.2 }
  | abort (cause) : Concludes s (.ok (.aborted cause)) (.finish cause.ending) (s.noteAbort cause)
  | escape (p) : Concludes s (.error p) (.escape p) s

/-- A waiting reply is taken, whatever the pass came to. -/
theorem concludes_shortcut {outcome : Outcome} {m : Message} (hr : s.board.reply = some m)
    (ho : outcome = .completed ∨ ∃ n, outcome = .stopped n) :
    s.Concludes (.ok outcome) s.shortcut.1 s.shortcut.2 := by
  have hshortcut : s.shortcut
      = (.goto .filterResponse, { s with board := s.board.takeReply.2, response := m }) := by
    simp [shortcut, takeReply, hr]
  rw [hshortcut]
  exact .reply ho hr

/-- The end of a phase of request filters, given the stream their pass left. -/
def conclude (s : Stream σ) : Except Panic Outcome → Step × Stream σ
  | .error p => (.escape p, s)
  | .ok .completed => if s.board.reply.isSome then s.shortcut else (.next, s)
  | .ok (.resumeAt target) =>
    (.jump (s.filters.again.getD target), { s with filters := s.filters.takeAgain.2 })
  | .ok (.stopped index) => if s.board.reply.isSome then s.shortcut else s.pause index
  | .ok (.aborted cause) => (.finish cause.ending, s.noteAbort cause)

/-- A phase of request filters makes its pass and concludes. -/
theorem filterRequest_entered : s.entered.filterRequest β point k
    = (s.passed β point k).conclude (s.pass β point k).result := rfl

theorem concludes_conclude (result : Except Panic Outcome)
    (hagain : ∀ q, result = .ok (.resumeAt q) → s.filters.again = some q) :
    s.Concludes result (s.conclude result).1 (s.conclude result).2 := by
  rcases result with p | _ | n | q | cause
  case error => exact .escape p
  case ok.completed =>
    rw [conclude]
    cases hr : s.board.reply with
    | none => exact .next hr
    | some m => exact concludes_shortcut hr (.inl rfl)
  case ok.stopped =>
    rw [conclude]
    cases hr : s.board.reply with
    | none =>
      simp only [Option.isSome_none, Bool.false_eq_true, if_false, pause_fst]
      cases hc : s.board.claimed with
      | true => rw [pause_of_claimed n hc]; exact .rest hr hc
      | false => exact .pause hr hc
    | some m => exact concludes_shortcut hr (.inr ⟨n, rfl⟩)
  case ok.resumeAt =>
    rw [conclude, hagain q rfl]
    exact .jump
  case ok.aborted => exact .abort cause

/-- **Every pass is concluded.** -/
theorem concludes_filterRequest (ho : s.board.owned = true) :
    (s.passed β point k).Concludes (s.pass β point k).result
      (s.entered.filterRequest β point k).1 (s.entered.filterRequest β point k).2 := by
  obtain ⟨new, is, hpass⟩ := passRequests_spec β k s.settings.convert s.entered.filters
    ⟨s.entered.board, s.request.parts⟩ point ho
  rw [filterRequest_entered]
  exact concludes_conclude _ fun q hq => (hpass.again q hq).1

end Stream

namespace Turn

open FilterProxy.Stream

/-- What is done at the phase of a point is its pass… -/
theorem step_filters (c : Surroundings σ ε) {t : Turn σ ε} {point : RequestPoint}
    (hp : t.stream.phase = point.phase) (k : Nat) :
      t.step c k = t.alone (·.filterRequest c.behaviour point k) := by
  unfold step
  rw [hp]
  cases point <;> rfl

/-- …and at the phase of response filters, theirs. -/
theorem step_filterResponse (c : Surroundings σ ε) {t : Turn σ ε}
    (hp : t.stream.phase = .filterResponse)
    (k : Nat) : t.step c k = t.alone (·.filterResponse c.behaviour k) := by
  unfold step
  rw [hp]

/-- What is done at the last phase is to write the response. -/
theorem step_respond (c : Surroundings σ ε) {t : Turn σ ε}
    (hp : t.stream.phase = .respond) (k : Nat) :
    t.step c k = t.respond c := by
  unfold step
  rw [hp]

/-- The phase of a point executes its pass. -/
theorem execute_filters (c : Surroundings σ ε) {t : Turn σ ε} {point : RequestPoint}
    (hp : t.stream.phase = point.phase) (k : Nat) : t.execute c k =
      ((t.stream.entered.filterRequest c.behaviour point k).1,
        { t with stream := (t.stream.entered.filterRequest c.behaviour point k).2 }) :=
  step_filters c (t := ⟨t.stream.entered, t.env⟩) hp k

theorem execute_filterResponse (c : Surroundings σ ε) {t : Turn σ ε}
    (hp : t.stream.phase = .filterResponse)
    (k : Nat) : t.execute c k = ((t.stream.entered.filterResponse c.behaviour k).1,
      { t with stream := (t.stream.entered.filterResponse c.behaviour k).2 }) :=
  step_filterResponse c (t := ⟨t.stream.entered, t.env⟩) hp k

/-- **A phase of request filters concludes from its pass.** -/
theorem concludes_execute {c : Surroundings σ ε} {t t' : Turn σ ε} {point : RequestPoint}
    (hp : t.stream.phase = point.phase) (ho : t.stream.board.owned = true) {k : Nat} {step : Step}
    (hx : t.execute c k = (step, t')) : (t.stream.passed c.behaviour point k).Concludes
      (t.stream.pass c.behaviour point k).result step t'.stream ∧ t'.env = t.env := by
  rw [execute_filters c hp] at hx
  obtain ⟨rfl, rfl⟩ := Prod.mk.inj hx
  exact ⟨concludes_filterRequest ho, rfl⟩

end Turn

/-! ## Phases executed in the course of a deed -/

open FilterProxy.Stream Life

variable {l : Life σ}

/-- A turn in the course of a deed is driven on, and the deed leaves what that drive leaves. -/
theorem Life.Turns.drives (h : Reached none l) {d : Deed σ ε} {c : Surroundings σ ε} {k : Nat}
    {t : Turn σ ε} (ht : l.Turns d c k t) : t.stream.Live ∧ t.stream.board.owned = true ∧
      ∃ r : Option Panic × Turn σ ε,
        Turn.Drives c (k, t) r ∧ (l.next d).stream = survive r.1 r.2.stream := by
  obtain @⟨p, _, env, start, s, _, _, hp, ho, hs, hl⟩ := ht
  have howned := ho.owned h.orderly.books.owned
  refine ⟨hl, Turn.Stride.owned_strides hs howned, _,
    (Turn.drives_drive c start ⟨s, env⟩ howned).of_strides hs, ?_⟩
  rw [Life.next, if_pos hp, ho.exec]

/-- **A phase executed in the course of a deed** leads to the one its stride leads to, and the deed
leaves what the drive leaves from there. -/
theorem Life.Executes.ahead {settings : Settings} {Answers : Handover → Prop}
    (h : Lived settings Answers none l) {p : Posting} {c : Surroundings σ ε} {env : ε} {k : Nat}
    {s : Stream σ} (hx : l.Executes (.run p c env) k s) :
    ∃ env' r, s.Live ∧ Lived settings Answers (some k) { l with stream := s, ran := p :: l.ran } ∧
      Turn.Drives c (k, ⟨s, env'⟩) r ∧
      (l.next (.run p c env)).stream = survive r.1 r.2.stream ∧
      ∀ y, Turn.Stride c (k, ⟨s, env'⟩) y → y.2.stream.Live →
        l.Executes (.run p c env) y.1 y.2.stream := by
  obtain @⟨_, _, _, start, s₀, _, t, hp, ho, hs, hl⟩ := hx
  have hexecuting := (h.opened hp ho).strides (x := (start, ⟨s₀, env⟩)) (y := (k, t))
    (l := { l with stream := s₀, ran := p :: l.ran }) hs
  obtain ⟨-, -, r, hdrives, hnext⟩ := Turns.drives h.reached (.intro hp ho hs hl)
  exact ⟨t.env, r, hl, hexecuting, hdrives, hnext, fun y hy hl' => .intro hp ho (hs.tail hy) hl'⟩

/-! ## Ends -/

/-- What happened ended the stream for `r`: nobody had claimed it, and it let go of everything. -/
structure Life.Ended (l l' : Life σ) (r : Ending) : Prop where
  before : claims l.log = []
  claims : claims l'.log = [r]
  done : l'.stream.phase = .done

/-- **Whoever finishes a stream nobody claimed ends it**, and its ending is published iff no filter
panics when it is told. -/
theorem Life.Ended.of_finish {l' s' : Life σ} (hbefore : FilterProxy.claims l.log = [])
    (h : Reached none s')
    (hc : s'.stream.board.claimed = false) (β : Behaviour σ) (r : Ending)
    (hs : l'.stream = survive (s'.stream.finish β r).1 (s'.stream.finish β r).2) :
    l.Ended l' r ∧ (l'.stream.board.status = .finished r ↔
      s'.stream.filters.AllCalm β (s'.stream.board.claim r).2) := by
  have hcondemned := h.orderly.condemned_claim hc r
  rw [finish_of_unclaimed β hc] at hs
  obtain ⟨-, -, hclaims, -⟩ := hcondemned.release β
  have hcomplete := (hcondemned.complete_iff β).2
  have hdone : (Stream.release β r
      { s'.stream with board := (s'.stream.board.claim r).2 }).2.phase = .done := by
    rw [release_eq]
    rfl
  generalize Stream.release β r { s'.stream with board := (s'.stream.board.claim r).2 } = x at *
  refine ⟨⟨hbefore, ?_, ?_⟩, ?_⟩
  · rw [Life.log, hs]
    cases x.1 <;> exact hclaims
  · rw [hs, Reached.phase_survive]
    exact hdone
  · rw [hs, ← hcomplete]
    cases x.1 <;> exact Iff.rfl

end FilterProxy

import FilterProxy.Proofs.Outcome
import FilterProxy.Proofs.Shutdown

/-!
# Proofs/Prompt — completions recorded of a stream that is gone

A stream that is claimed executes no further phase, and so completes none, unless the phase it was
claimed in leads on: its completion is recorded before anybody looks at the claim.  So **a phase of
filters that claims its stream is prompt iff it does not lead on** (`Life.Acts.prompt_iff`), and
everything that happens to a claimed stream is (`Reached.prompt_foldl`).
-/

namespace FilterProxy

variable {σ ε : Type}

open Board FilterSet FilterProxy.Stream Life

/-! ## Prompt logs -/

namespace Event

/-- A phase is recorded as complete. -/
def isPhaseEnd : Event σ → Bool
  | .stat (.phaseCompleted _) => true
  | _ => false

/-- **No phase is complete once the stream is cleaned.** -/
def Prompt (e : Event σ) (older : List (Event σ)) : Prop :=
  e.isPhaseEnd = true → cleanings older = 0

variable {e : Event σ}

theorem isPhaseEnd_of_isOutside (h : e.isOutside = true) : e.isPhaseEnd = false := by
  cases e with
  | stat s => cases s <;> first | rfl | cases h
  | _ => rfl

theorem isPhaseEnd_of_isEnding (h : e.isEnding = true) : e.isPhaseEnd = false := by
  cases e with
  | stat s => cases s <;> first | rfl | cases h
  | _ => rfl

theorem isPhaseEnd_of_pass {side : Side} (h : e.inPass side = true ∨ e.byHandle = true) :
    e.isPhaseEnd = false := by
  cases e with
  | stat s => cases s <;> first | rfl | (rcases h with h | h <;> cases h)
  | _ => rfl

/-- Only writing the response records a completion itself. -/
theorem isPhaseEnd_of_within {p : Phase} (hp : p ≠ .respond) (h : e.Within p) :
    e.isPhaseEnd = false := by
  cases e with
  | stat s =>
    cases s with
    | phaseCompleted q => exact absurd h.2 hp
    | _ => rfl
  | _ => rfl

end Event

namespace Throughout

variable {new log : List (Event σ)}

theorem prompt_append (h : ∀ e ∈ new, e.isPhaseEnd = false) :
    Throughout Event.Prompt (new ++ log) ↔ Throughout Event.Prompt log := by
  refine ⟨Throughout.of_append, fun hlog => hlog.append fun newer e added hsplit he => ?_⟩
  have hend := h e (hsplit ▸ List.mem_append_cons_self)
  cases hend.symm.trans he

/-- As long as the stream is not cleaned its log is prompt. -/
theorem prompt_of_cleanings (h : cleanings log = 0) : Throughout Event.Prompt log := by
  rintro newer e older rfl -
  rw [cleanings, List.countP_append, ← cleanings, ← cleanings, cleanings_cons] at h
  omega

end Throughout

namespace Board.Books

variable {b : Board σ}

theorem prompt (h : b.Books) (hc : b.claimed = false) : Throughout Event.Prompt b.log :=
  .prompt_of_cleanings (by rw [h.cleanings, h.unclaimed hc]; rfl)

theorem cleanings_ne_zero (h : b.Books) (hc : b.claimed = true) :
    FilterProxy.cleanings b.log ≠ 0 := by
  obtain ⟨r, hr⟩ := h.claimed hc
  rw [h.cleanings, hr]
  exact nofun

end Board.Books

theorem Reached.prompt_survive {panic : Option Panic} {s : Stream σ} :
    Throughout Event.Prompt (Life.survive panic s).board.log ↔
      Throughout Event.Prompt s.board.log := by
  obtain ⟨new, hlog, houtside⟩ := Reached.survive_log panic s
  rw [hlog, Throughout.prompt_append fun e he => Event.isPhaseEnd_of_isOutside (houtside e he)]

theorem Stream.prompt_finish {s : Stream σ} (β : Behaviour σ) (r : Ending)
    (ho : s.board.owned = true) :
    Throughout Event.Prompt (s.finish β r).2.board.log ↔ Throughout Event.Prompt s.board.log := by
  obtain ⟨new, hlog, hending⟩ := finish_log β r s ho
  rw [hlog, Throughout.prompt_append fun e he => Event.isPhaseEnd_of_isEnding (hending e he)]

/-! ## One phase of filters -/

section

variable {c : Surroundings σ ε} {k : Nat} {t t' : Turn σ ε} {step : Step}
  {r : Option Panic × Turn σ ε}
  (hl : t.stream.Live) (hb : t.stream.board.Books) (hs : t.stream.phase.side?.isSome)
  (hx : t.execute c k = (step, t'))

include hl hb hs hx

/-- A phase of filters records no completion by itself. -/
theorem Turn.prompt_execute : Throughout Event.Prompt t'.stream.board.log := by
  obtain ⟨new, is, hexec⟩ := executed_execute hl hb.owned hx
  have hp : t.stream.phase ≠ .respond := fun hp => by rw [hp] at hs; cases hs
  have hnew : ∀ e ∈ new ++ [.entered t.stream.phase], e.isPhaseEnd = false := fun e he => by
    rcases List.mem_append.mp he with he | he
    · exact Event.isPhaseEnd_of_within hp (hexec.worked.within e he)
    · obtain rfl := List.mem_singleton.mp he
      rfl
  rw [hexec.log, Throughout.prompt_append hnew]
  exact hb.prompt hl.unclaimed

/-- **A phase of filters that claims its stream is prompt iff it does not lead on**: the drive stops
behind it. -/
theorem Turn.Drives.prompt_iff (hd : Drives c (k, t) r) (hc : t'.stream.board.claimed = true) :
    Throughout Event.Prompt (Life.survive r.1 r.2.stream).board.log ↔ step ≠ .next := by
  obtain ⟨new, is, hexec⟩ := executed_execute hl hb.owned hx
  have hlog := prompt_execute hl hb hs hx
  have hb' : t'.stream.board.Books := (hexec.moves hl).books hb
  -- wherever a stride leads, the stream is claimed
  have strode {y : Nat × Turn σ ε} (hy : Stride c (k, t) y) (hc : y.2.stream.board.claimed = true) :
      r = (none, y.2) := (hd.of_strides (.single hy)).eq_of_stops (.halt (.inl hc))
  have finished (ending : Ending) : t'.alone (·.finish c.behaviour ending) = (none, t') := by
    rw [alone, finish_of_claimed c.behaviour hc]
  rw [Reached.prompt_survive]
  cases step with
  | next =>
    rw [strode (.next hl hx) hc]
    refine iff_of_false (fun hprompt => ?_) (fun hn => hn rfl)
    exact hb'.cleanings_ne_zero hc (hprompt [] _ _ rfl rfl)
  | goto q =>
    rw [strode (.goto hl hx) hc]
    exact iff_of_true hlog (by simp)
  | jump q =>
    refine iff_of_true ?_ (by simp)
    cases hj : t'.stream.jumpsLeft with
    | zero =>
      rw [hd.eq_of_stops (.overrun hl hx hj), finished]
      exact hlog
    | succ rest =>
      rw [strode (.jump hl hx hj) hc]
      exact (Throughout.prompt_append (List.forall_mem_singleton.mpr rfl)).mpr hlog
  | rest =>
    rw [hd.eq_of_stops (.rest hl hx)]
    exact iff_of_true hlog (by simp)
  | finish ending =>
    rw [hd.eq_of_stops (.finish hl hx), finished]
    exact iff_of_true hlog (by simp)
  | escape p =>
    rw [hd.eq_of_stops (.escape hl hx)]
    exact iff_of_true hlog (by simp)

/-- A phase of filters that gives its stream up is prompt. -/
theorem Turn.Drives.prompt_of_finish (hd : Drives c (k, t) r) {ending : Ending}
    (hstep : step = .finish ending) :
    Throughout Event.Prompt (Life.survive r.1 r.2.stream).board.log := by
  subst hstep
  obtain ⟨new, is, hexec⟩ := executed_execute hl hb.owned hx
  rw [Reached.prompt_survive, hd.eq_of_stops (.finish hl hx), alone, Stream.prompt_finish]
  · exact prompt_execute hl hb hs hx
  · exact (hexec.moves hl).owned.trans hb.owned

end

/-! ## Deeds -/

namespace Reached

variable {l : Life σ}

/-- Beside the phases no completion is recorded. -/
theorem uncompleted_beside (h : Reached none l) {d : Deed σ ε} (hd : ∀ p c env, d ≠ .run p c env) :
    ∃ new, (l.next d).log = new ++ l.log ∧ ∀ e ∈ new, e.isPhaseEnd = false := by
  have hyields := h.yields_next d
  generalize l.next d = l' at hyields
  cases hyields with
  | add new _ _ _ hlog hnew =>
    exact ⟨new, hlog, fun e he => Event.isPhaseEnd_of_isOutside (hnew e he)⟩
  | board new _ hm hlog hnew =>
    exact ⟨new, hlog, fun e he => Event.isPhaseEnd_of_isOutside (hnew e he)⟩
  | direct m hp => exact ⟨_, hp.log, fun e he => Event.isPhaseEnd_of_pass (hp.kinds e he)⟩
  | @abort c _ _ r new is m cause hp =>
    obtain ⟨noted, hnoted, houtside, hmoves, -⟩ := noteAbort_spec (l.directly r m is).stream cause
    obtain ⟨more, hmore, hending⟩ := finish_log c.behaviour cause.ending _
      (hmoves.owned.trans (hp.moves.owned.trans h.orderly.books.owned))
    refine ⟨more ++ (noted ++ new), ?_, fun e he => ?_⟩
    · refine hmore.trans ?_
      rw [hnoted, show (l.directly r m is).stream.board.log = new ++ l.log from hp.log]
      simp only [List.append_assoc]
    · rcases List.mem_append.mp he with he | he
      · exact Event.isPhaseEnd_of_isEnding (hending e he)
      rcases List.mem_append.mp he with he | he
      · exact Event.isPhaseEnd_of_isOutside (houtside e he)
      · exact Event.isPhaseEnd_of_pass (hp.kinds e he)
  | idle => exact absurd rfl (hd _ _ _)
  | settled => exact absurd rfl (hd _ _ _)
  | release => exact absurd rfl (hd _ _ _)

/-- **Of a claimed stream no completion is recorded.** -/
theorem uncompleted_next (h : Reached none l) (hc : l.stream.board.claimed = true) (d : Deed σ ε) :
    ∃ new, (l.next d).log = new ++ l.log ∧ ∀ e ∈ new, e.isPhaseEnd = false := by
  by_cases hrun : ∃ p c env, d = .run p c env
  case neg => exact h.uncompleted_beside fun p c env hd => hrun ⟨p, c, env, hd⟩
  obtain ⟨p, c, env, rfl⟩ := hrun
  by_cases hj : ∀ r, p.job ≠ .release r
  case pos =>
    exact ⟨[], congrArg (·.board.log) (stream_run_of_claimed hc hj c env), List.forall_mem_nil _⟩
  obtain ⟨r, hj⟩ := not_forall_not.mp hj
  by_cases hp : l.Due p
  case neg => exact ⟨[], by rw [Life.next, if_neg hp]; rfl, List.forall_mem_nil _⟩
  have hstream : (l.next (.run p c env)).stream
      = Life.survive (l.stream.release c.behaviour r).1 (l.stream.release c.behaviour r).2 := by
    rw [Life.next, if_pos hp]
    dsimp only
    rw [hj]
    rfl
  obtain ⟨new, hlog, hending⟩ := release_log c.behaviour r l.stream h.orderly.books.owned
  obtain ⟨escaped, hescaped, houtside⟩ := survive_log (l.stream.release c.behaviour r).1
    (l.stream.release c.behaviour r).2
  refine ⟨escaped ++ new, ?_, fun e he => ?_⟩
  · rw [Life.log, hstream, hescaped, hlog, List.append_assoc]
    rfl
  · rcases List.mem_append.mp he with he | he
    · exact Event.isPhaseEnd_of_isOutside (houtside e he)
    · exact Event.isPhaseEnd_of_isEnding (hending e he)

/-- **Whatever happens to a claimed stream** leaves its log as prompt as it was. -/
theorem prompt_foldl (more : List (Deed σ ε)) (h : Reached none l)
    (hc : l.stream.board.claimed = true) :
    Throughout Event.Prompt (more.foldl Life.next l).log ↔ Throughout Event.Prompt l.log := by
  induction more generalizing l with
  | nil => rfl
  | cons d more ih =>
    obtain ⟨r, hr⟩ := h.orderly.books.claimed hc
    have hclaimed : (l.next d).stream.board.claimed = true :=
      (h.next_deed d).orderly.books.claimed_of_claims (h.claims_foldl [d] hr)
    obtain ⟨new, hlog, hnew⟩ := h.uncompleted_next hc d
    rw [List.foldl_cons, ih (h.next_deed d) hclaimed, hlog, Throughout.prompt_append hnew]

end Reached

section

variable {id : StreamId} {settings : Settings} {deeds : List (Deed σ ε)}
  {c : Surroundings σ ε} {k : Nat} {t t' : Turn σ ε} {step : Step}

/-- **A phase that gives its stream up, or in the course of which somebody claimed it**, is driven
to an end whose log is as prompt as the log is ever after. -/
theorem Life.Acts.exists_drives (ha : Acts id settings deeds c k t) {ending : Ending}
    (hclaims : (∃ t', t.execute c k = (.finish ending, t') ∧ t'.stream.board.claimed = false) ∨
      FilterProxy.claims (t.execute c k).2.stream.board.log = [ending]) :
    ∃ r : Option Panic × Turn σ ε, Turn.Drives c (k, t) r ∧
      (Throughout Event.Prompt (after id settings deeds).log ↔
        Throughout Event.Prompt (Life.survive r.1 r.2.stream).board.log) := by
  obtain @⟨before, d, more, _, _, _, rfl, ht⟩ := ha
  have h : Reached none (after id settings before) := reached_after id settings before
  obtain ⟨-, -, r, hdrives, hnext⟩ := ht.drives h
  have hclaimed : ((after id settings before).next d).stream.board.claimed = true :=
    (h.next_deed d).orderly.books.claimed_of_claims
      (ht.claims (lived_after id settings before) hclaims)
  refine ⟨r, hdrives, ?_⟩
  rw [after_append, List.foldl_cons, (h.next_deed d).prompt_foldl more hclaimed, Life.log, hnext]

/-- **A stream claimed in the course of a phase of filters** has a prompt log ever after iff that
phase did not lead on. -/
theorem Life.Acts.prompt_iff (ha : Acts id settings deeds c k t) (hs : t.stream.phase.side?.isSome)
    (hx : t.execute c k = (step, t')) (hc : t'.stream.board.claimed = true) :
    Throughout Event.Prompt (after id settings deeds).log ↔ step ≠ .next := by
  obtain ⟨new, is, hexec⟩ := Turn.executed_execute ha.live ha.books.owned hx
  obtain ⟨ending, hending⟩ := ((hexec.moves ha.live).books ha.books).claimed hc
  obtain ⟨r, hdrives, hprompt⟩ := ha.exists_drives (.inr (by rw [hx]; exact hending))
  exact hprompt.trans (hdrives.prompt_iff ha.live ha.books hs hx hc)

/-- A stream that a phase of filters gives up has a prompt log ever after. -/
theorem Life.Acts.prompt_of_finish (ha : Acts id settings deeds c k t)
    (hs : t.stream.phase.side?.isSome)
    {ending : Ending} (hx : t.execute c k = (.finish ending, t')) :
    Throughout Event.Prompt (after id settings deeds).log := by
  cases hc : t'.stream.board.claimed with
  | true => exact (ha.prompt_iff hs hx hc).mpr (by simp)
  | false =>
    obtain ⟨r, hdrives, hprompt⟩ := ha.exists_drives (.inl ⟨t', hx, hc⟩)
    exact hprompt.mpr (hdrives.prompt_of_finish ha.live ha.books hs hx rfl)

end

end FilterProxy

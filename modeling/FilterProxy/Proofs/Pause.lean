import FilterProxy.Proofs.Deeds

/-!
# Proofs/Pause — what ends the pause of a response filter

A response filter that stops the stream holds it until somebody ends the pause.  `Life.Ends` are the
four rightful ways: the filter itself, the embedder, the time limit of that very pause, and the end
of the stream.  **There is a fifth**: the job an accepted direct reply put out resumes whatever
pause it meets, and it may still wait in the pool when the response filters are reached
(`held_next_iff`).
-/

namespace FilterProxy

variable {σ ε : Type}

/-- The response filter at `index` holds the stream in pause number `generation`. -/
structure Stream.Held (s : Stream σ) (index generation : Nat) : Prop where
  phase : s.phase = .filterResponse
  pausedBy : s.pausedBy = some index
  generation : s.generation = generation
  unclaimed : s.board.claimed = false

namespace Stream

variable {start : Nat} {s s' : Stream σ} {step : Step} {new : List (Event σ)} {is : List Nat}

/-- A phase that leads on begins no pause. -/
theorem Executed.generation (h : Executed start s.entered step s' new is) (hs : step ≠ .rest) :
    s'.generation = s.generation := by
  cases h with
  | pause => exact absurd rfl hs
  | _ hw ha => exact ha.generation

/-- A pause that a phase begins is a new one. -/
theorem Executed.new_pause (h : Executed start s.entered step s' new is) (hb : s.pausedBy = none) :
    s'.pausedBy = none ∨ s.generation < s'.generation := by
  cases h with
  | pause hw hp hn hpaused hgeneration hr hc =>
    rw [entered_generation] at hgeneration
    exact .inr (by omega)
  | _ hw ha => exact .inl (ha.pausedBy.trans hb)

end Stream

/-- The deed is a resumption taken from the pool. -/
def Deed.isResumption : Deed σ ε → Bool
  | .run ⟨.resume _, _⟩ _ _ => true
  | _ => false

namespace Life

/-- **The rightful ends of a pause.** -/
inductive Ends (l : Life σ) (index generation : Nat) : Deed σ ε → Prop
  /-- The filter that stopped the stream resumes it. -/
  | owner {byReply c env} (h : l.Due ⟨.resume (some (.response, index)), byReply⟩) :
      Ends l index generation (.run ⟨.resume (some (.response, index)), byReply⟩ c env)
  /-- The embedder resumes the stream. -/
  | embedder {c env} (h : l.Due ⟨.resume none, false⟩) :
      Ends l index generation (.run ⟨.resume none, false⟩ c env)
  /-- The time limit set for this pause has passed. -/
  | watchdog {byReply c env} (h : l.Due ⟨.timeout generation, byReply⟩) :
      Ends l index generation (.run ⟨.timeout generation, byReply⟩ c env)
  /-- The stream is ended, not resumed. -/
  | termination {d} (hd : d.isResumption = false)
      (hc : (l.next d).stream.board.claimed = true) : Ends l index generation d

/-- The deed runs the job that an accepted direct reply put out. -/
def RunsReply (l : Life σ) (d : Deed σ ε) : Prop :=
  ∃ c env, d = .run ⟨.resume none, true⟩ c env ∧ l.Due ⟨.resume none, true⟩

end Life

/-- The deed lets the pause last: unless it is a direct run, **it calls no filter and no
collaborator**. -/
structure Life.Lasts (l : Life σ) (index generation : Nat) (d : Deed σ ε) : Prop where
  held : (l.next d).stream.Held index generation
  quiet : d.isDirect = false →
    ∃ new, (l.next d).log = new ++ l.log ∧ ∀ e ∈ new, e.isOutside = true

namespace Reached

open Board FilterSet FilterProxy.Stream Life

variable {l : Life σ} {index generation : Nat}

/-- **A drive brings about new pauses only.** -/
theorem leads_new_pause (β : Behaviour σ) (l : Life σ) (generation : Nat) :
    Leads β (fun start s => Reached (some start) (l.become s) ∧ s.generation = generation)
      (fun _ s => s.pausedBy = none ∨ generation < s.generation) where
  owned h := h.1.orderly.books.owned
  notDone h := h.1.poised.1
  halt h _ := .inl h.1.poised.2
  stay h hl hx _ _ := h.2 ▸ hx.new_pause h.1.poised.2
  finish := by
    intro start s step s' new is h hl hx _ ending
    rcases s'.finish_pausedBy β ending with hs | hs
    · rw [hs, ← h.2]
      exact hx.new_pause h.1.poised.2
    · exact .inl hs
  next h hl hx := ⟨h.1.next hl hx, (hx.generation (by simp)).trans h.2⟩
  goto h hl hx := ⟨h.1.goto hl hx, (hx.generation (by simp)).trans h.2⟩
  jump h hl hx hj := ⟨h.1.jump hl hx hj, (hx.generation (by simp)).trans h.2⟩

/-- **Whoever is heeded ends the pause**, whatever the drive comes to. -/
theorem not_held_resume (h : Reached none l) (hh : l.stream.Held index generation)
    {caller : Option (Side × Nat)} (hcaller : l.stream.heeds caller = true)
    (c : Surroundings σ ε) (env : ε) :
    ¬ (Turn.exec c (.resume caller) ⟨l.stream, env⟩).2.stream.Held index generation := by
  obtain ⟨start, s, hopens, heq⟩ :=
    Turn.resume_of_heeds c (t := ⟨l.stream, env⟩) hh.unclaimed hh.pausedBy hcaller
  change ¬ (Turn.resume c caller ⟨l.stream, env⟩).2.stream.Held index generation
  rw [heq]
  cases hopens with
  | resume hc hp =>
    have hnew := Turn.drive_induction c (leads_new_pause c.behaviour l generation)
      _ ⟨l.stream.woken, env⟩ ⟨h.resume hc hp, hh.generation⟩
    intro hheld
    rcases hnew with hnew | hnew
    · rw [hheld.pausedBy] at hnew; cases hnew
    · rw [hheld.generation] at hnew; exact Nat.lt_irrefl _ hnew
  | reroute hc hp hcaller hlt hr =>
    rw [show l.stream.phase = _ from hh.phase] at hlt
    exact absurd hlt (by decide)

/-- A resumption of a filter that did not bring the pause about changes nothing. -/
theorem resume_of_not_heeds {t : Turn σ ε} {caller : Option (Side × Nat)}
    (hcaller : ¬ t.stream.heeds caller = true) (c : Surroundings σ ε) :
    t.resume c caller = (none, t) := by
  unfold Turn.resume
  cases t.stream.pausedBy with
  | none => rfl
  | some index => exact if_pos (.inr hcaller)

theorem heeds_iff (hh : l.stream.Held index generation) (caller : Option (Side × Nat)) :
    l.stream.heeds caller = true ↔ caller = none ∨ caller = some (.response, index) := by
  rcases caller with _ | ⟨side, i⟩
  · simp [heeds]
  · cases side with
    | request =>
      have hn : pausesAt l.stream.phase .request = false := by rw [hh.phase]; rfl
      simp [heeds, hn]
    | response =>
      have hy : pausesAt l.stream.phase .response = true := by rw [hh.phase]; rfl
      simp only [heeds, hy, hh.pausedBy, Bool.true_and, beq_iff_eq, Option.some.injEq,
        reduceCtorEq, false_or, Prod.mk.injEq, true_and]
      exact eq_comm

theorem held_survive (panic : Option Panic) (s : Stream σ) :
    (Life.survive panic s).Held index generation ↔ s.Held index generation := by
  cases panic with
  | none => rfl
  | some p => exact ⟨fun h => ⟨h.1, h.2, h.3, h.4⟩, fun h => ⟨h.1, h.2, h.3, h.4⟩⟩

/-- What is done to the board alone ends a pause only by claiming the stream. -/
theorem held_or_claimed (hh : l.stream.Held index generation) {s : Stream σ}
    (hp : s.phase = l.stream.phase) (hb : s.pausedBy = l.stream.pausedBy)
    (hg : s.generation = l.stream.generation) :
    s.board.claimed = true ∨ s.Held index generation := by
  cases hc : s.board.claimed with
  | true => exact .inl rfl
  | false =>
    exact .inr ⟨hp.trans hh.phase, hb.trans hh.pausedBy, hg.trans hh.generation, hc⟩

/-- A deed that runs no job ends a pause only by claiming the stream. -/
theorem claimed_or_lasts_of_no_run (h : Reached none l) (hh : l.stream.Held index generation)
    {d : Deed σ ε} (hd : ∀ p c env, d ≠ .run p c env) :
    (l.next d).stream.board.claimed = true ∨ l.Lasts index generation d := by
  have ho := h.orderly.books.owned
  suffices hkept : ∀ l', l.Yields d l' → l'.stream.board.claimed = true ∨
      l'.stream.Held index generation ∧ (d.isDirect = false →
        ∃ new, l'.log = new ++ l.log ∧ ∀ e ∈ new, e.isOutside = true) from
    (hkept _ (h.yields_next d)).imp_right fun hlasts => ⟨hlasts.1, hlasts.2⟩
  intro l' hyields
  cases hyields with
  | @add _ r b new f _ _ hlog hnew =>
    have hkept := held_or_claimed
      (s := Stream.enlist { l.stream with board := b } (r.withFilter f)) hh rfl rfl rfl
    exact hkept.imp_right fun hheld => ⟨hheld, fun _ => ⟨new, hlog, hnew⟩⟩
  | @board _ b new _ hm hlog hnew =>
    have hkept := held_or_claimed (s := { l.stream with board := b }) hh rfl rfl rfl
    exact hkept.imp_right fun hheld => ⟨hheld, fun _ => ⟨new, hlog, hnew⟩⟩
  | @direct _ _ _ r _ is m hp =>
    have hkept := held_or_claimed (s := (l.directly r m is).stream) hh rfl rfl rfl
    exact hkept.imp_right fun hheld => ⟨hheld, by simp [Deed.isDirect]⟩
  | @abort c _ _ r _ is m cause hp =>
    obtain ⟨-, -, -, hmoves, -⟩ := noteAbort_spec (l.directly r m is).stream cause
    exact .inl (claimed_finish c.behaviour cause.ending
      (hmoves.owned.trans (hp.moves.owned.trans ho)))
  | idle | settled | release => exact absurd rfl (hd _ _ _)

/-- A job that no longer concerns the stream. -/
theorem lasts_of_idle (hh : l.stream.Held index generation) {p : Posting} {c : Surroundings σ ε}
    {env : ε} (hidle : Turn.exec c p.job ⟨l.stream, env⟩ = (none, ⟨l.stream, env⟩)) :
    l.Lasts index generation (.run p c env) := by
  have hs : (l.next (.run p c env)).stream = l.stream := by
    rw [Life.next]
    split
    · rw [hidle]; rfl
    · rfl
  exact ⟨hs ▸ hh, fun _ => ⟨[], by rw [Life.log, hs]; rfl, by simp⟩⟩

theorem next_of_not_due {p : Posting} (hp : ¬ l.Due p) (c : Surroundings σ ε) (env : ε) :
    l.next (.run p c env) = l := by rw [Life.next, if_neg hp]

/-- **A deed that is no resumption** ends the pause only by claiming the stream. -/
theorem claimed_or_lasts (h : Reached none l) (hh : l.stream.Held index generation)
    {d : Deed σ ε} (hd : d.isResumption = false) :
    (l.next d).stream.board.claimed = true ∨ l.Lasts index generation d := by
  cases d with
  | run p c env =>
    by_cases hp : l.Due p
    case neg => exact .inr ⟨by rw [next_of_not_due hp]; exact hh, fun _ =>
      ⟨[], by rw [next_of_not_due hp]; rfl, by simp⟩⟩
    have hran := Turn.ran_exec c ⟨l.stream, env⟩ p.job
    generalize hr : Turn.exec c p.job ⟨l.stream, env⟩ = r at hran
    rcases p with ⟨job, byReply⟩
    dsimp only at hran
    -- no job of another kind counts at the phase of the response filters
    cases hran with
    | idle => exact .inr (lasts_of_idle hh hr)
    | drive ho =>
      cases ho with
      | receive hc hphase => cases hh.phase.symm.trans hphase
      | resume => cases hd
      | reroute => cases hd
      | response hc hphase => cases hh.phase.symm.trans hphase
    | timeout hpause =>
      refine .inl ?_
      rw [Life.next, if_pos hp]
      dsimp only
      rw [claimed_survive, hr]
      exact claimed_finish c.behaviour .stopTimeout h.orderly.books.owned
    | release ending =>
      have hmem := (mem_releases_of_due hp rfl).2
      rw [h.orderly.releases_of_unclaimed hh.unclaimed] at hmem
      cases hmem
  | _ => exact h.claimed_or_lasts_of_no_run hh (by simp)

/-- **Every deed ends the pause in one of five ways, or lets it last.** -/
theorem ends_or_lasts (h : Reached none l) (hh : l.stream.Held index generation) (d : Deed σ ε) :
    (l.Ends index generation d ∨ l.RunsReply d) ∨ l.Lasts index generation d := by
  cases hd : d.isResumption with
  | false => exact (h.claimed_or_lasts hh hd).imp_left fun hc => .inl (.termination hd hc)
  | true =>
    obtain ⟨caller, byReply, c, env, rfl⟩ : ∃ caller byReply c env,
        d = .run ⟨.resume caller, byReply⟩ c env := by
      rcases d with _ | _ | _ | _ | _ | _ | _ | ⟨⟨_ | caller | _ | _ | _, byReply⟩, c, env⟩
      case run.resume => exact ⟨caller, byReply, c, env, rfl⟩
      all_goals cases hd
    by_cases hdue : l.Due ⟨.resume caller, byReply⟩
    case neg =>
      exact .inr ⟨by rw [next_of_not_due hdue]; exact hh, fun _ =>
        ⟨[], by rw [next_of_not_due hdue]; rfl, by simp⟩⟩
    by_cases hcaller : l.stream.heeds caller = true
    case neg => exact .inr (lasts_of_idle hh (resume_of_not_heeds hcaller c))
    refine .inl ?_
    rcases (heeds_iff hh caller).mp hcaller with rfl | rfl
    · cases byReply with
      | false => exact .inl (.embedder hdue)
      | true => exact .inr ⟨c, env, rfl, hdue⟩
    · exact .inl (.owner hdue)

/-- A due resumption that is heeded ends the pause. -/
theorem not_held_run (h : Reached none l) (hh : l.stream.Held index generation)
    {caller : Option (Side × Nat)} {byReply : Bool} (hdue : l.Due ⟨.resume caller, byReply⟩)
    (hcaller : l.stream.heeds caller = true) (c : Surroundings σ ε) (env : ε) :
    ¬ (l.next (.run ⟨.resume caller, byReply⟩ c env)).stream.Held index generation := by
  rw [Life.next, if_pos hdue]
  exact fun hheld => h.not_held_resume hh hcaller c env ((held_survive _ _).mp hheld)

/-- **All five ways end the pause.** -/
theorem not_held_of_ends (h : Reached none l) (hh : l.stream.Held index generation)
    {d : Deed σ ε} (hd : l.Ends index generation d ∨ l.RunsReply d) :
    ¬ (l.next d).stream.Held index generation := by
  rcases hd with hd | ⟨c, env, rfl, hdue⟩
  · cases hd with
    | owner hdue => exact h.not_held_run hh hdue ((heeds_iff hh _).mpr (.inr rfl)) _ _
    | embedder hdue => exact h.not_held_run hh hdue ((heeds_iff hh _).mpr (.inl rfl)) _ _
    | @watchdog byReply c env hdue =>
      have heq : Turn.exec c (.timeout generation) ⟨l.stream, env⟩
          = Turn.alone ⟨l.stream, env⟩ (·.finish c.behaviour .stopTimeout) :=
        if_neg (by simp [hh.pausedBy, hh.generation])
      rw [Life.next, if_pos hdue]
      dsimp only
      rw [held_survive, heq]
      intro hheld
      have hc := claimed_finish c.behaviour .stopTimeout h.orderly.books.owned
      cases hc.symm.trans hheld.unclaimed
    | termination _ hc => exact fun hheld => by rw [hheld.unclaimed] at hc; cases hc
  · exact h.not_held_run hh hdue ((heeds_iff hh _).mpr (.inl rfl)) _ _

/-- A pause that is over was ended by one of the deeds since. -/
theorem exists_end (more : List (Deed σ ε)) (h : Reached none l)
    (hh : l.stream.Held index generation)
    (hover : ¬ (more.foldl Life.next l).stream.Held index generation) :
    ∃ before d rest, more = before ++ d :: rest ∧
      (before.foldl Life.next l).stream.Held index generation ∧
      ((before.foldl Life.next l).Ends index generation d ∨
        (before.foldl Life.next l).RunsReply d) := by
  induction more generalizing l with
  | nil => exact absurd hh hover
  | cons d more ih =>
    rcases h.ends_or_lasts hh d with hends | hlasts
    · exact ⟨[], d, more, rfl, hh, hends⟩
    · obtain ⟨before, d', rest, rfl, hheld, hends⟩ := ih (h.next_deed d) hlasts.held hover
      exact ⟨d :: before, d', rest, rfl, hheld, hends⟩

end Reached

open Life in
/-- **A pause of a response filter ends rightfully, except by the job of a direct reply**: that job
is the one deed that ends it against the rule, and it always does.  While the pause lasts, no filter
and no collaborator is called. -/
theorem held_next_iff (id : StreamId) (settings : Settings) (deeds : List (Deed σ ε))
    (index generation : Nat) (hh : (after id settings deeds).stream.Held index generation) :
    let l := after id settings deeds
    (∀ d : Deed σ ε,
      (((l.next d).stream.Held index generation ∨ l.Ends index generation d) ↔ ¬ l.RunsReply d) ∧
      (l.Ends index generation d → ¬ (l.next d).stream.Held index generation) ∧
      ((l.next d).stream.Held index generation → l.Lasts index generation d)) ∧
    ∀ more : List (Deed σ ε),
      ¬ (after id settings (deeds ++ more)).stream.Held index generation →
        ∃ before d rest, more = before ++ d :: rest ∧
          (after id settings (deeds ++ before)).stream.Held index generation ∧
          ((after id settings (deeds ++ before)).Ends index generation d ∨
            (after id settings (deeds ++ before)).RunsReply d) := by
  intro l
  have h : Reached none l := reached_after id settings deeds
  refine ⟨fun d => ⟨⟨?_, fun hd => ?_⟩, fun hends => h.not_held_of_ends hh (.inl hends), ?_⟩, ?_⟩
  · rintro (hheld | hends) hreply
    · exact h.not_held_of_ends hh (.inr hreply) hheld
    · obtain ⟨c, env, rfl, -⟩ := hreply
      cases hends with
      | termination hd => cases hd
  · rcases h.ends_or_lasts hh d with (hends | hreply) | hlasts
    · exact .inr hends
    · exact absurd hreply hd
    · exact .inl hlasts.held
  · intro hheld
    rcases h.ends_or_lasts hh d with hends | hlasts
    · exact absurd hheld (h.not_held_of_ends hh hends)
    · exact hlasts
  · intro more hover
    simp only [after_append] at hover ⊢
    exact h.exists_end more hh hover

/-! ## A reply that ends a pause -/

/-- A filter is the verdict it answers; a request filter sends a direct reply first. -/
def replying : Behaviour Verdict where
  onRequest v _ parts := .act (.reply 403 {}) (.done ⟨v, parts, .ok v⟩)
  onResponse v _ parts := .done ⟨v, parts, .ok v⟩
  onDestroy v _ := .done { filter := v }

/-- A request filter replies, and the first of two response filters stops the stream. -/
def repliedAndStopped : List (Deed Verdict Unit) :=
  [.add replying (.request .stop .beforeRoute), .add replying (.response .stop .beforeSend),
    .add replying (.response .proceed .beforeSend), .receive {},
    .run ⟨.receive {}, false⟩ (.secluded replying) ()]

/-- The pool takes the job the reply put out. -/
def runReply : Deed Verdict Unit := .run ⟨.resume none, true⟩ (.secluded replying) ()

theorem held_repliedAndStopped : (Life.after ⟨1⟩ {} repliedAndStopped).stream.Held 0 1 :=
  ⟨by decide +kernel, by decide +kernel, by decide +kernel, by decide +kernel⟩

theorem held_next_iff_runReply :
    (Life.after ⟨1⟩ {} repliedAndStopped).stream.Held 0 1 ∧
      ¬ (((Life.after ⟨1⟩ {} repliedAndStopped).next runReply).stream.Held 0 1 ∨
        (Life.after ⟨1⟩ {} repliedAndStopped).Ends 0 1 runReply) :=
  ⟨held_repliedAndStopped, fun h =>
    (((held_next_iff ⟨1⟩ {} repliedAndStopped 0 1 held_repliedAndStopped).1 runReply).1.mp h)
      ⟨_, _, rfl, by decide +kernel⟩⟩

/-- **The reply's job lets the second response filter run and the response be written**, though
nobody rightfully ended the pause of the first. -/
theorem reply_ends_pause :
    (Life.after ⟨1⟩ {} repliedAndStopped).stream.Held 0 1 ∧
      ¬ (Life.after ⟨1⟩ {} repliedAndStopped).Ends 0 1 runReply ∧
      ¬ ((Life.after ⟨1⟩ {} repliedAndStopped).next runReply).stream.Held 0 1 ∧
      calls .response (Life.after ⟨1⟩ {} repliedAndStopped).log = [0] ∧
      calls .response ((Life.after ⟨1⟩ {} repliedAndStopped).next runReply).log = [1, 0] ∧
      ((Life.after ⟨1⟩ {} repliedAndStopped).next runReply).stream.board.status
        = .finished .completed := by
  refine ⟨held_repliedAndStopped, fun h => ?_, fun h => ?_, by decide +kernel, by decide +kernel,
    by decide +kernel⟩
  · cases h with
    | termination hd => cases hd
  · exact absurd h.phase (by decide +kernel)

end FilterProxy

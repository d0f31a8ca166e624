import FilterProxy.Proofs.Board.Stir
import FilterProxy.Proofs.Reach

/-!
# Proofs/Deeds — what one deed does to a life

`Life.Yields` says once what a deed comes to: something about the board alone, a direct run, a drive
that settles, or the release.  **Every deed yields** (`Reached.yields_next`), hence every life is
reached (`reached_after`), and a released stream does nothing any more but what comes from outside.
-/

namespace FilterProxy

variable {σ ε : Type}

open Board FilterSet FilterProxy.Stream Life

namespace Reached

variable {l : Life σ}

/-! ## Drives -/

/-- What a drive keeps of the life it started with. -/
structure Onward (l : Life σ) (s : Stream σ) : Prop where
  log : l.log <:+ s.board.log
  fixed : l.stream.filters.Fixed s.filters

/-- Driving a life came to rest at a reached stream, or ended it there and then. -/
def Settled (β : Behaviour σ) (l : Life σ) (panic : Option Panic) (s : Stream σ) : Prop :=
  ∃ s₀, Reached none (l.become s₀) ∧ s₀.phase ≠ .done ∧ Onward l s₀ ∧
    (s = s₀ ∨ ∃ ending, (panic, s) = s₀.finish β ending)

theorem Onward.executed {start : Nat} {s s' : Stream σ} {step : Step} {new is} (h : Onward l s)
    (hl : s.Live) (hx : Executed start s.entered step s' new is) : Onward l s' :=
  ⟨h.log.trans (hx.moves hl).suffix, h.fixed.trans hx.worked.fixed⟩

theorem leads_settled (β : Behaviour σ) (l : Life σ) :
    Leads β (fun start s => Reached (some start) (l.become s) ∧ Onward l s) (Settled β l) where
  owned h := h.1.orderly.books.owned
  notDone h := h.1.poised.1
  halt h hc := ⟨_, h.1.halt hc, h.1.poised.1, h.2, .inl rfl⟩
  stay h hl hx hlast panic :=
    ⟨_, h.1.stay hl hx hlast, by rw [hx.phase]; exact hl.notDone, h.2.executed hl hx, .inl rfl⟩
  finish h hl hx hlast ending :=
    ⟨_, h.1.stay hl hx hlast, by rw [hx.phase]; exact hl.notDone, h.2.executed hl hx,
      .inr ⟨ending, rfl⟩⟩
  next h hl hx := by
    obtain ⟨hlog, hfixed⟩ := h.2.executed hl hx
    exact ⟨h.1.next hl hx, hlog.trans (List.suffix_cons _ _), hfixed⟩
  goto h hl hx := by
    obtain ⟨hlog, hfixed⟩ := h.2.executed hl hx
    exact ⟨h.1.goto hl hx, hlog, hfixed⟩
  jump h hl hx hj := by
    obtain ⟨hlog, hfixed⟩ := h.2.executed hl hx
    exact ⟨h.1.jump hl hx hj, hlog.trans (List.suffix_cons _ _), hfixed⟩

/-- **Driving a reached life settles it.** -/
theorem settled_drive (c : Surroundings σ ε) {start : Nat} {t : Turn σ ε}
    (h : Reached (some start) (l.become t.stream)) (ho : Onward l t.stream) :
    Settled c.behaviour l (t.drive c start).1 (t.drive c start).2.stream :=
  Turn.drive_induction c (leads_settled c.behaviour l) start t ⟨h, ho⟩

theorem Settled.reached {β : Behaviour σ} {panic : Option Panic} {s : Stream σ}
    (h : Settled β l panic s) : Reached none (l.become s) := by
  obtain ⟨s₀, hs₀, -, -, rfl | ⟨ending, h⟩⟩ := h
  · exact hs₀
  · rw [show s = _ from congrArg Prod.snd h]
    exact hs₀.finish β ending

/-- A job that has a stream at rest driven. -/
theorem opened (h : Reached none l) {job : Job} {k : Nat} {s : Stream σ}
    (ho : l.stream.Opens job k s) : Reached (some k) (l.become s) := by
  cases ho with
  | receive hc hp => exact h.receive hc hp _
  | resume hc hp => exact h.resume hc hp
  | reroute hc hp hcaller hlt hr => exact h.reroute hc hp hlt hr
  | response hc hp => exact h.response hc hp _

theorem Onward.of_opens {job : Job} {k : Nat} {s : Stream σ} (ho : l.stream.Opens job k s) :
    Onward l s := by
  cases ho with
  | receive => exact ⟨List.suffix_refl _, .refl _⟩
  | _ => exact ⟨List.suffix_cons _ _, .refl _⟩

/-- **A job that is no release** leaves a life it no longer concerns alone, or settles it. -/
theorem settled_exec (h : Reached none l) (c : Surroundings σ ε) (env : ε) {job : Job}
    (hj : ∀ ending, job ≠ .release ending) :
    Turn.exec c job ⟨l.stream, env⟩ = (none, ⟨l.stream, env⟩) ∨
      l.stream.phase ≠ .done ∧ Settled c.behaviour l (Turn.exec c job ⟨l.stream, env⟩).1
        (Turn.exec c job ⟨l.stream, env⟩).2.stream := by
  have hran := Turn.ran_exec c ⟨l.stream, env⟩ job
  generalize Turn.exec c job ⟨l.stream, env⟩ = r at hran ⊢
  cases hran with
  | idle => exact .inl rfl
  | drive ho =>
    exact .inr ⟨h.orderly.not_done ho.unclaimed, settled_drive c (h.opened ho) (.of_opens ho)⟩
  | timeout hp =>
    have hd : l.stream.phase ≠ .done := fun hd => by
      have hside := h.poised _ hp
      rw [hd] at hside
      cases hside
    exact .inr ⟨hd, l.stream, h, hd, ⟨List.suffix_refl _, .refl _⟩, .inr ⟨.stopTimeout, rfl⟩⟩
  | release ending => exact absurd rfl (hj ending)

theorem survive (h : Reached none l) (panic : Option Panic) :
    Reached none (l.become (Life.survive panic l.stream)) := by
  rcases panic with _ | p
  · exact h
  · exact h.outside [.escaped p] (.single (.note _ rfl)) rfl (by simp [Event.isOutside])

end Reached

open FilterSet in
/-- What a direct run comes to, given what its pass left. -/
theorem Stream.runResponseFilters_eq (β : Behaviour σ) (message : Message) (convert : Converter)
    {s : Stream σ} {r : SetPassed σ}
    (hr : passResponses β .beforeSend 0 convert s.filters ⟨s.board, message.parts⟩ = r) :
    let s' := { s with
      filters := r.filters, board := r.bench.board, response := r.bench.parts.message }
    (s.runResponseFilters β .beforeSend message convert).2 = match r.result with
      | .ok (.aborted cause) => ((s'.noteAbort cause).finish β cause.ending).2
      | _ => s' := by
  intro s'
  unfold runResponseFilters passResponse
  dsimp only
  rw [hr]
  rcases r with ⟨_ | _ | _ | _ | cause, filters, bench⟩
  case ok.aborted =>
    dsimp only
    split <;> rfl
  all_goals rfl

/-! ## Deeds -/

/-- **What a deed comes to.** -/
inductive Life.Yields (l : Life σ) : Deed σ ε → Life σ → Prop
  /-- The filter acts on the board and is seated as it is then. -/
  | add {β r b} (new) (f : σ) (hs : Stirred l.stream.board b) (hm : Moves l.stream.board b)
      (hlog : b.log = new ++ l.log) (hnew : ∀ e ∈ new, e.isOutside = true) :
      Yields l (.add β r) (l.become (Stream.enlist { l.stream with board := b } (r.withFilter f)))
  /-- The deed concerns the board alone, if anything. -/
  | board {d b} (new) (hd : d.isDirect = false) (hm : Moves l.stream.board b)
      (hlog : b.log = new ++ l.log) (hnew : ∀ e ∈ new, e.isOutside = true) :
      Yields l d (l.become { l.stream with board := b })
  | direct {c message convert r new is} (m)
      (hp : ResponsePass .beforeSend 0 l.stream.filters l.stream.board r new is)
      (hs : Stirred l.stream.board r.bench.board) :
      Yields l (.direct c message convert) (l.directly r m is)
  /-- A direct run is given up, and the stream with it. -/
  | abort {c message convert r new is} (m) (cause : Abort)
      (hp : ResponsePass .beforeSend 0 l.stream.filters l.stream.board r new is)
      (hs : Stirred l.stream.board r.bench.board) :
      Yields l (.direct c message convert) ((l.directly r m is).become
        (((l.directly r m is).stream.noteAbort cause).finish c.behaviour cause.ending).2)
  /-- The job no longer concerns the stream. -/
  | idle {p c env} (hp : l.Due p) (hj : ∀ ending, p.job ≠ .release ending) :
      Yields l (.run p c env) { l with ran := p :: l.ran }
  | settled {p c env panic s} (hp : l.Due p) (hj : ∀ ending, p.job ≠ .release ending)
      (hd : l.stream.phase ≠ .done)
      (hs : Reached.Settled c.behaviour { l with ran := p :: l.ran } panic s) :
      Yields l (.run p c env) { l with stream := survive panic s, ran := p :: l.ran }
  | release {p c env ending} (hp : l.Due p) (hj : p.job = .release ending) :
      Yields l (.run p c env) { l with
        stream := survive (l.stream.release c.behaviour ending).1
          (l.stream.release c.behaviour ending).2
        ran := p :: l.ran }

namespace Reached

variable {l : Life σ}

theorem yields_run (h : Reached none l) (p : Posting) (c : Surroundings σ ε) (env : ε) :
    l.Yields (.run p c env) (l.next (.run p c env)) := by
  by_cases hp : l.Due p
  case neg =>
    rw [Life.next, if_neg hp]
    exact .board [] rfl .refl rfl (by simp)
  rw [Life.next, if_pos hp]
  by_cases hj : ∃ ending, p.job = .release ending
  · obtain ⟨ending, hj⟩ := hj
    rw [hj]
    exact .release hp hj
  · have hj : ∀ ending, p.job ≠ .release ending := fun ending he => hj ⟨ending, he⟩
    rcases settled_exec (h.take hp hj) c env hj with hidle | ⟨hd, hs⟩
    · have hidle : Turn.exec c p.job ⟨l.stream, env⟩ = (none, ⟨l.stream, env⟩) := hidle
      rw [hidle]
      exact .idle hp hj
    · exact .settled hp hj hd hs

/-- The calls of a direct run are those its pass made: nothing after the pass calls a filter. -/
theorem direct_eq {c : Surroundings σ ε} {message : Message} {convert : Converter} (m : Message)
    {r : SetPassed σ} {new is} (more : List (Event σ)) {s : Stream σ}
    (hp : ResponsePass .beforeSend 0 l.stream.filters l.stream.board r new is)
    (hs : (l.stream.runResponseFilters c.behaviour .beforeSend message convert).2 = s)
    (hlog : s.board.log = more ++ r.bench.board.log)
    (hmore : ∀ e ∈ more, e.call? .response = none) :
    l.next (.direct c message convert) = (l.directly r m is).become s := by
  have hsplit : calls .response s.board.log = is.reverse ++ calls .response l.log := by
    rw [hlog, hp.log, calls, List.filterMap_append, List.filterMap_eq_nil_iff.mpr hmore,
      List.filterMap_append, ← calls, hp.calls]
    rfl
  have hcount (i : Nat) :
      (calls .response s.board.log).count i - (calls .response l.log).count i = is.count i := by
    rw [hsplit, List.count_append, List.count_reverse, Nat.add_sub_cancel]
  rw [Life.next, hs]
  simp only [hcount]
  rfl

theorem yields_direct (h : Reached none l) (c : Surroundings σ ε) (message : Message)
    (convert : Converter) :
    l.Yields (.direct c message convert) (l.next (.direct c message convert)) := by
  have ho := h.orderly.books.owned
  obtain ⟨new, is, hp⟩ := passResponses_spec c.behaviour 0 convert l.stream.filters
    ⟨l.stream.board, message.parts⟩ .beforeSend ho
  have hs := stirred_passResponses c.behaviour .beforeSend 0 convert l.stream.filters
    ⟨l.stream.board, message.parts⟩ ho
  have hrun := runResponseFilters_eq c.behaviour message convert (s := l.stream) rfl
  generalize passResponses c.behaviour .beforeSend 0 convert l.stream.filters
    ⟨l.stream.board, message.parts⟩ = r at hp hs hrun
  dsimp only at hp hs hrun
  split at hrun
  case h_1 cause hcause =>
    obtain ⟨noted, hnoted, houtside, hmoves, -⟩ := noteAbort_spec { l.stream with
      filters := r.filters, board := r.bench.board, response := r.bench.parts.message } cause
    obtain ⟨more, hmore, hending⟩ := finish_log c.behaviour cause.ending _
      (hmoves.owned.trans (hp.moves.owned.trans ho))
    rw [direct_eq r.bench.parts.message (more ++ noted) hp hrun
      (by rw [hmore, hnoted, List.append_assoc])]
    · exact .abort r.bench.parts.message cause hp hs
    · intro e he
      rcases List.mem_append.mp he with he | he
      · exact Event.call?_of_isEnding .response (hending e he)
      · exact Event.call?_of_isOutside .response (houtside e he)
  case h_2 =>
    rw [direct_eq r.bench.parts.message [] hp hrun rfl (by simp)]
    exact .direct r.bench.parts.message hp hs

/-- **Every deed yields.** -/
theorem yields_next (h : Reached none l) (d : Deed σ ε) : l.Yields d (l.next d) := by
  have ho := h.orderly.books.owned
  have scheduled {d : Deed σ ε} (hd : d.isDirect = false) {job : Job}
      (hj : ∀ ending, job ≠ .release ending) : l.Yields d (l.post job) := by
    refine .board [.scheduled job] hd ?_ (by rw [schedule_of_owned ho]; rfl)
      (by simp [Event.isOutside])
    rw [schedule_of_owned ho]
    refine .single (.note _ ?_)
    rcases job with _ | _ | ending | _ | _
    case release => exact absurd rfl (hj ending)
    all_goals rfl
  cases d with
  | add β r =>
    have htouched := touched_introduce β l.stream.filters l.stream.board r
    obtain ⟨new, hlog, hnew⟩ := htouched.log (fun _ => Event.isQuiet_of_isIntroduction) ho
    refine .add new _ (stirred_introduce β l.stream.filters ho r)
      (htouched.moves (fun _ => Event.isQuiet_of_isIntroduction) ho) hlog fun e he => ?_
    exact (hnew e he).elim Event.isOutside_of_isIntroduction Event.isOutside_of_byHandle
  | receive request => exact scheduled rfl (by simp)
  | resume => exact scheduled rfl (by simp)
  | terminate ending =>
    obtain ⟨new, hlog, hnew⟩ := l.stream.board.terminate_log ending ho
    exact .board new rfl (.single (.terminate _ ending ho)) hlog hnew
  | act side filter index program =>
    have htouched := touched_run filter index program l.stream.board
    obtain ⟨new, hlog, hnew⟩ := htouched.log (fun _ => Event.isQuiet_of_isLook) ho
    exact .board new rfl (htouched.moves (fun _ => Event.isQuiet_of_isLook) ho) hlog
      fun e he => Event.isOutside_of_handle (hnew e he)
  | answer answer =>
    obtain ⟨new, hlog, hnew, hmoves, heq⟩ := Turn.answer_spec l.stream answer ho
    have hnext : l.next (.answer answer : Deed σ ε)
        = l.become { l.stream with board := (Turn.answer l.stream answer).board } :=
      congrArg l.become heq
    rw [hnext]
    exact .board new rfl hmoves hlog hnew
  | direct c message convert => exact h.yields_direct c message convert
  | run p c env => exact h.yields_run p c env

theorem survive_log (panic : Option Panic) (s : Stream σ) :
    ∃ new, (Life.survive panic s).board.log = new ++ s.board.log ∧
      ∀ e ∈ new, e.isOutside = true := by
  rcases panic with _ | p
  · exact ⟨[], rfl, by simp⟩
  · exact ⟨[.escaped p], rfl, by simp [Event.isOutside]⟩

theorem claimed_survive (panic : Option Panic) (s : Stream σ) :
    (Life.survive panic s).board.claimed = s.board.claimed := by cases panic <;> rfl

theorem phase_survive (panic : Option Panic) (s : Stream σ) :
    (Life.survive panic s).phase = s.phase := by cases panic <;> rfl

theorem awake_survive (panic : Option Panic) (s : Stream σ) : s.Awake (Life.survive panic s) := by
  cases panic <;> exact ⟨rfl, rfl⟩

/-- **The log only grows.** -/
theorem suffix_next (h : Reached none l) (d : Deed σ ε) : l.log <:+ (l.next d).log := by
  have ho := h.orderly.books.owned
  have grown {s s' : Stream σ} (hs : ∃ new, s'.board.log = new ++ s.board.log ∧
      ∀ e ∈ new, e.isEnding = true) : s.board.log <:+ s'.board.log := by
    obtain ⟨new, hlog, -⟩ := hs
    exact ⟨new, hlog.symm⟩
  have survived (panic : Option Panic) (s : Stream σ) :
      s.board.log <:+ (Life.survive panic s).board.log := by
    obtain ⟨new, hlog, -⟩ := survive_log panic s
    exact ⟨new, hlog.symm⟩
  have hyields := h.yields_next d
  generalize l.next d = l' at hyields
  cases hyields with
  | add new f hs hm => exact hm.suffix
  | board new _ hm => exact hm.suffix
  | direct m hp => exact hp.moves.suffix
  | @abort c _ _ r _ is m cause hp =>
    obtain ⟨-, -, -, hmoves, -⟩ := noteAbort_spec (l.directly r m is).stream cause
    have hgrown := grown (finish_log c.behaviour cause.ending _
      (hmoves.owned.trans (hp.moves.owned.trans ho)))
    exact (hp.moves.suffix.trans hmoves.suffix).trans hgrown
  | idle => exact List.suffix_refl _
  | @settled p c env panic s hp hj _ hs =>
    obtain ⟨s₀, hs₀, -, ⟨hlog, -⟩, rfl | ⟨ending, hfinish⟩⟩ := hs
    · exact hlog.trans (survived panic s)
    · have hgrown := grown (finish_log c.behaviour ending s₀ hs₀.orderly.books.owned)
      rw [← hfinish] at hgrown
      exact (hlog.trans hgrown).trans (survived panic s)
  | @release p c env ending hp hj =>
    exact (grown (release_log c.behaviour ending l.stream ho)).trans (survived _ _)

/-! ## Every life is reached -/

theorem noteAbort (h : Reached none l) (cause : Abort) :
    Reached none (l.become (l.stream.noteAbort cause)) := by
  obtain ⟨new, hnew, houtside, hmoves, heq⟩ := noteAbort_spec l.stream cause
  rw [heq]
  exact h.outside new hmoves hnew houtside

theorem next_deed (h : Reached none l) (d : Deed σ ε) : Reached none (l.next d) := by
  have hyields := h.yields_next d
  generalize l.next d = l' at hyields
  cases hyields with
  | add new f hs hm hlog hnew => exact (h.outside new hm hlog hnew).add _
  | board new hd hm hlog hnew => exact h.outside new hm hlog hnew
  | direct m hp => exact h.direct hp m
  | @abort c _ _ _ _ _ m cause hp =>
    exact ((h.direct hp m).noteAbort cause).finish c.behaviour cause.ending
  | idle hp hj => exact h.take hp hj
  | settled hp hj hd hs => exact hs.reached.survive _
  | release hp hj => exact (h.release hp hj _).survive _

end Reached

theorem Reached.foldl (more : List (Deed σ ε)) {l : Life σ} (h : Reached none l) :
    Reached none (more.foldl Life.next l) := by
  induction more generalizing l with
  | nil => exact h
  | cons d more ih => exact ih (h.next_deed d)

theorem Reached.suffix_foldl (more : List (Deed σ ε)) {l : Life σ} (h : Reached none l) :
    l.log <:+ (more.foldl Life.next l).log := by
  induction more generalizing l with
  | nil => exact List.suffix_refl _
  | cons d more ih => exact (h.suffix_next d).trans (ih (h.next_deed d))

/-- **Every life is reached.** -/
theorem reached_after (id : StreamId) (settings : Settings) (deeds : List (Deed σ ε)) :
    Reached none (Life.after id settings deeds) :=
  Reached.foldl deeds (.fresh id settings)

/-! ## Released streams -/

/-- **What a released stream still does**: nothing but direct runs calls a filter, nobody is told a
farewell, and cleanup and status stand. -/
structure Life.Rests (l l' : Life σ) : Prop where
  phase : l.stream.phase = .done → l'.stream.phase = .done
  frozen : l.stream.board.Frozen l'.stream.board
  farewells : ∀ side, farewells side l'.log = farewells side l.log
  calls : ∀ side i, (calls side l'.log).count i + l.byDirect side i
    = (calls side l.log).count i + l'.byDirect side i

namespace Life.Rests

theorem of_board {l l' : Life σ} (hp : l'.stream.phase = l.stream.phase)
    (hb : l'.stream.board = l.stream.board) (hd : l'.direct = l.direct) : l.Rests l' := by
  rcases l with ⟨⟨⟩, ran, direct⟩
  rcases l' with ⟨⟨⟩, ran', direct'⟩
  subst hp hb hd
  exact ⟨id, ⟨rfl, rfl, rfl, rfl⟩, fun _ => rfl, fun side _ => by cases side <;> rfl⟩

theorem refl (l : Life σ) : l.Rests l := of_board rfl rfl rfl

theorem trans {l₁ l₂ l₃ : Life σ} (h : l₁.Rests l₂) (h' : l₂.Rests l₃) : l₁.Rests l₃ where
  phase hd := h'.phase (h.phase hd)
  frozen := h.frozen.trans h'.frozen
  farewells side := (h'.farewells side).trans (h.farewells side)
  calls side i := by
    have := h.calls side i
    have := h'.calls side i
    omega

theorem of_outside {l : Life σ} {b : Board σ} {new : List (Event σ)}
    (hc : l.stream.board.claimed = true) (hm : Board.Moves l.stream.board b)
    (hlog : b.log = new ++ l.log) (hnew : ∀ e ∈ new, e.isOutside = true) :
    l.Rests (l.become { l.stream with board := b }) := by
  refine ⟨id, hm.frozen hc, fun side => ?_, fun side i => ?_⟩
  · exact (congrArg _ hlog).trans
      (farewells_append (fun e he => Event.mild_of_isOutside (hnew e he)) side)
  · rw [Life.become_log, hlog,
      calls_append fun e he => Event.call?_of_isOutside side (hnew e he)]
    cases side <;> rfl

theorem directly {l : Life σ} {r : SetPassed σ} {new is} (hc : l.stream.board.claimed = true)
    (hp : FilterSet.ResponsePass .beforeSend 0 l.stream.filters l.stream.board r new is)
    (m : Message) : l.Rests (l.directly r m is) where
  phase := id
  frozen := hp.moves.frozen hc
  farewells side := (congrArg _ hp.log).trans
    (farewells_append (fun e he => Event.mild_of_pass (hp.kinds e he)) side)
  calls := calls_directly hp m

end Life.Rests

namespace Reached

variable {l : Life σ}

/-- **Every deed lets a released stream rest.** -/
theorem rests_next (h : Reached none l) (hd : l.stream.phase = .done) (d : Deed σ ε) :
    l.Rests (l.next d) := by
  obtain ⟨hc, hdue⟩ := h.orderly.released hd
  have hyields := h.yields_next d
  generalize l.next d = l' at hyields
  cases hyields with
  | add new f hs hm hlog hnew =>
    exact (Rests.of_outside hc hm hlog hnew).trans (.of_board rfl rfl rfl)
  | board new _ hm hlog hnew => exact .of_outside hc hm hlog hnew
  | direct m hp => exact .directly hc hp m
  | @abort c _ _ r _ is m cause hp =>
    have hdirectly := Rests.directly hc hp m
    obtain ⟨noted, hnoted, houtside, hmoves, heq⟩ := noteAbort_spec (l.directly r m is).stream cause
    have hclaimed := hp.moves.claimed hc
    have hrests := Rests.of_outside (l := l.directly r m is) hclaimed hmoves hnoted houtside
    rw [← heq] at hrests
    rw [finish_of_claimed c.behaviour (hmoves.claimed hclaimed)]
    exact hdirectly.trans hrests
  | idle => exact .of_board rfl rfl rfl
  | settled _ _ hd' => exact absurd hd hd'
  | release hp hj => exact absurd hp (hdue _ _ hj)

theorem rests_foldl (more : List (Deed σ ε)) (h : Reached none l)
    (hd : l.stream.phase = .done) : l.Rests (more.foldl Life.next l) := by
  induction more generalizing l with
  | nil => exact .refl l
  | cons d more ih =>
    have hrests := h.rests_next hd d
    exact hrests.trans (ih (h.next_deed d) (hrests.phase hd))

end Reached

end FilterProxy

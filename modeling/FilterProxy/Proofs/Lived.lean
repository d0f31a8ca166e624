import FilterProxy.Proofs.Course
import FilterProxy.Proofs.Sequel

/-!
# Proofs/Lived — lives by exact small steps

`Reached` allows more than streams do.  `Lived` does not: a job is taken only for what it is, every
phase executed has its sequel, and a drive stops only where drives stop.  **Every life is lived**
(`lived_after`), and so is every stream in the course of a deed (`Lived.of_executes`).
-/

namespace FilterProxy

variable {σ ε : Type}

open Board FilterSet FilterProxy.Stream Life

/-- What is known of a phase that was executed. -/
structure Stream.Traced (k : Nat) (s : Stream σ) (step : Step) (s' : Stream σ)
    (new : List (Event σ)) (is : List Nat) : Prop where
  executed : Executed k s.entered step s' new is
  sequel : s.Sequel step s'

theorem Turn.traced_execute {c : Surroundings σ ε} {k : Nat} {t : Turn σ ε} (hl : t.stream.Live)
    (ho : t.stream.board.owned = true) {step : Step} {t' : Turn σ ε}
    (h : t.execute c k = (step, t')) :
    ∃ new is, t.stream.Traced k step t'.stream new is := by
  obtain ⟨new, is, hx⟩ := executed_execute hl ho h
  have hsequel := sequel_execute c hl ho (k := k)
  rw [h] at hsequel
  exact ⟨new, is, hx, hsequel⟩

/-- **The exact small steps** of a stream with these settings, whose transport answers later only as
allowed.  As with `Reached`, a life is at rest or about to execute its phase. -/
inductive Lived (settings : Settings) (Answers : Handover → Prop) : Option Nat → Life σ → Prop
  | fresh (id) : Lived settings Answers none (.fresh id settings)
  | add {l} (h : Lived settings Answers none l) (r) :
      Lived settings Answers none (l.become (l.stream.enlist r))
  /-- Something stirs the board from outside. -/
  | stir {l b} (new) (h : Lived settings Answers none l) (hs : Stirred l.stream.board b)
      (hm : Moves l.stream.board b) (hlog : b.log = new ++ l.log)
      (hnew : ∀ e ∈ new, e.isOutside = true) :
      Lived settings Answers none (l.become { l.stream with board := b })
  | answer {l x} (h : Lived settings Answers none l) (hx : Answers x) :
      Lived settings Answers none (l.become (Turn.answer l.stream x))
  | direct {l r new is} (h : Lived settings Answers none l)
      (hp : ResponsePass .beforeSend 0 l.stream.filters l.stream.board r new is)
      (hs : Stirred l.stream.board r.bench.board) (m) :
      Lived settings Answers none (l.directly r m is)
  | finish {l} (h : Lived settings Answers none l) (β : Behaviour σ) (ending) :
      Lived settings Answers none (l.become (l.stream.finish β ending).2)
  /-- A job is taken that does not concern the stream, or that may only end it. -/
  | take {l p} (h : Lived settings Answers none l) (hp : l.Due p)
      (hi : l.stream.Ignores p.job ∨ ∃ generation, p.job = .timeout generation) :
      Lived settings Answers none { l with ran := p :: l.ran }
  | release {l p ending} (h : Lived settings Answers none l) (hp : l.Due p)
      (hj : p.job = .release ending) (β : Behaviour σ) :
      Lived settings Answers none
        { l with stream := (l.stream.release β ending).2, ran := p :: l.ran }
  | opened {l p k s} (h : Lived settings Answers none l) (hp : l.Due p)
      (ho : l.stream.Opens p.job k s) :
      Lived settings Answers (some k) { l with stream := s, ran := p :: l.ran }
  | halt {k l} (h : Lived settings Answers (some k) l) (hc : l.stream.board.claimed = true) :
      Lived settings Answers none l
  | next {k l s new is} (h : Lived settings Answers (some k) l) (hl : l.stream.Live)
      (hx : l.stream.Traced k .next s new is) :
        Lived settings Answers (some 0) (l.become s.advanced)
  | goto {k l q s new is} (h : Lived settings Answers (some k) l) (hl : l.stream.Live)
      (hx : l.stream.Traced k (.goto q) s new is) :
      Lived settings Answers (some 0) (l.become { s with phase := q })
  | jump {k l q s new is rest} (h : Lived settings Answers (some k) l) (hl : l.stream.Live)
      (hx : l.stream.Traced k (.jump q) s new is) (hj : s.jumpsLeft = rest + 1) :
      Lived settings Answers (some 0) (l.become (s.jumped q rest))
  | rest {k l s new is} (h : Lived settings Answers (some k) l) (hl : l.stream.Live)
      (hx : l.stream.Traced k .rest s new is) : Lived settings Answers none (l.become s)
  | ended {k l s new is ending} (h : Lived settings Answers (some k) l) (hl : l.stream.Live)
      (hx : l.stream.Traced k (.finish ending) s new is) (β : Behaviour σ) :
      Lived settings Answers none (l.become (s.finish β ending).2)
  /-- No jump is left for the one asked for. -/
  | overrun {k l q s new is} (h : Lived settings Answers (some k) l) (hl : l.stream.Live)
      (hx : l.stream.Traced k (.jump q) s new is) (hj : s.jumpsLeft = 0) (β : Behaviour σ) :
      Lived settings Answers none
        (l.become (survive (s.finish β .tooManyJumps).1 (s.finish β .tooManyJumps).2))
  | escape {k l s new is panic} (h : Lived settings Answers (some k) l) (hl : l.stream.Live)
      (hx : l.stream.Traced k (.escape panic) s new is) :
      Lived settings Answers none (l.become (s.note (.escaped panic)))

namespace Lived

variable {settings : Settings} {Answers : Handover → Prop} {l : Life σ}

/-- Exact small steps are small steps. -/
theorem reached {start : Option Nat} (h : Lived settings Answers start l) : Reached start l := by
  induction h with
  | fresh id => exact .fresh id settings
  | add h r ih => exact ih.add r
  | stir new h hs hm hlog hnew ih => exact ih.outside new hm hlog hnew
  | @answer l x h hx ih =>
    obtain ⟨new, hlog, hnew, hm, heq⟩ := Turn.answer_spec l.stream x ih.orderly.books.owned
    rw [heq]
    exact ih.outside new hm hlog hnew
  | direct h hp hs m ih => exact ih.direct hp m
  | finish h β ending ih => exact ih.finish β ending
  | take h hp hi ih =>
    refine ih.take hp fun ending hj => ?_
    rcases hi with hi | ⟨generation, hi⟩
    · rw [hj] at hi; exact hi
    · rw [hj] at hi; cases hi
  | release h hp hj β ih => exact ih.release hp hj β
  | opened h hp ho ih => exact (ih.take hp fun ending hj => by rw [hj] at ho; cases ho).opened ho
  | halt h hc ih => exact ih.halt hc
  | next h hl hx ih => exact ih.next hl hx.executed
  | goto h hl hx ih => exact ih.goto hl hx.executed
  | jump h hl hx hj ih => exact ih.jump hl hx.executed hj
  | rest h hl hx ih => exact ih.stay hl hx.executed rfl
  | ended h hl hx β ih => exact (ih.stay hl hx.executed rfl).finish β _
  | overrun h hl hx hj β ih => exact ((ih.stay hl hx.executed rfl).finish β _).survive _
  | escape h hl hx ih => exact (ih.stay hl hx.executed rfl).survive (some _)

theorem owned {start : Option Nat} (h : Lived settings Answers start l) :
    l.stream.board.owned = true := h.reached.orderly.books.owned

theorem survive (h : Lived settings Answers none l) (panic : Option Panic) :
    Lived settings Answers none (l.become (Life.survive panic l.stream)) := by
  rcases panic with _ | p
  · exact h
  · exact h.stir [.escaped p] (.single (.note _ rfl)) (.single (.note _ rfl)) rfl
      (by simp [Event.isOutside])

/-! ## Drives -/

/-- What a drive passes through is lived. -/
theorem strides {c : Surroundings σ ε} {x y : Nat × Turn σ ε}
    (h : Lived settings Answers (some x.1) (l.become x.2.stream))
    (hs : Relation.ReflTransGen (Turn.Stride c) x y) :
    Lived settings Answers (some y.1) (l.become y.2.stream) := by
  induction hs with
  | refl => exact h
  | tail _ hs ih =>
    have ho := ih.owned
    cases hs with
    | next hl hx =>
      obtain ⟨new, is, hx⟩ := Turn.traced_execute hl ho hx
      rw [Turn.advance_of_executed hx.executed]
      exact ih.next hl hx
    | goto hl hx =>
      obtain ⟨new, is, hx⟩ := Turn.traced_execute hl ho hx
      exact ih.goto hl hx
    | jump hl hx hj =>
      obtain ⟨new, is, hx⟩ := Turn.traced_execute hl ho hx
      exact ih.jump hl hx hj

/-- What a drive leaves is lived. -/
theorem drives {c : Surroundings σ ε} {x : Nat × Turn σ ε} {r : Option Panic × Turn σ ε}
    (h : Lived settings Answers (some x.1) (l.become x.2.stream)) (hd : Turn.Drives c x r) :
    Lived settings Answers none (l.become (Life.survive r.1 r.2.stream)) := by
  obtain ⟨y, hs, hstop⟩ := hd
  have hy := h.strides hs
  have ho := hy.owned
  cases hstop with
  | halt hstop =>
    rcases hstop with hc | hd
    · exact hy.halt hc
    · exact absurd hd hy.reached.poised.1
  | rest hl hx =>
    obtain ⟨new, is, hx⟩ := Turn.traced_execute hl ho hx
    exact hy.rest hl hx
  | finish hl hx =>
    obtain ⟨new, is, hx⟩ := Turn.traced_execute hl ho hx
    exact (hy.ended hl hx c.behaviour).survive _
  | overrun hl hx hj =>
    obtain ⟨new, is, hx⟩ := Turn.traced_execute hl ho hx
    exact hy.overrun hl hx hj c.behaviour
  | escape hl hx =>
    obtain ⟨new, is, hx⟩ := Turn.traced_execute hl ho hx
    exact hy.escape hl hx

/-! ## Deeds -/

/-- A deed that runs no job and answers nothing stirs the board. -/
theorem stirred_next (h : Lived settings Answers none l) (d : Deed σ ε)
    (hr : ∀ p c env, d ≠ .run p c env) (ha : ∀ x, d ≠ .answer x) (hd : d.isDirect = false) :
    Stirred l.stream.board (l.next d).stream.board := by
  have ho := h.owned
  cases d with
  | add β r => exact stirred_introduce β l.stream.filters ho r
  | receive request => exact stirred_schedule ho nofun
  | resume => exact stirred_schedule ho nofun
  | terminate ending => exact stirred_terminate ho ending
  | act side filter index program => exact stirred_run filter index program ho
  | answer x => exact absurd rfl (ha x)
  | direct => cases hd
  | run p c env => exact absurd rfl (hr p c env)

theorem next_run (h : Lived settings Answers none l) (p : Posting)
    (c : Surroundings σ ε) (env : ε) :
    Lived settings Answers none (l.next (.run p c env)) := by
  by_cases hp : l.Due p
  case neg => rw [Life.next, if_neg hp]; exact h
  rw [Life.next, if_pos hp]
  have hran := Turn.ran_exec c ⟨l.stream, env⟩ p.job
  generalize Turn.exec c p.job ⟨l.stream, env⟩ = r at hran
  rcases p with ⟨job, byReply⟩
  dsimp only at hran
  cases hran with
  | idle hi => exact h.take hp (.inl hi)
  | @drive _ k s ho =>
    have hopened := h.opened hp ho
    exact hopened.drives (x := (k, ⟨s, env⟩)) (l := { l with stream := s, ran := _ :: l.ran })
      (Turn.drives_drive c k ⟨s, env⟩ hopened.owned)
  | timeout hpause =>
    exact ((h.take hp (.inr ⟨_, rfl⟩)).finish c.behaviour .stopTimeout).survive _
  | release ending => exact (h.release hp rfl c.behaviour).survive _

/-- **Every deed is made of exact small steps.** -/
theorem next_deed (h : Lived settings Answers none l) (d : Deed σ ε)
    (ha : ∀ x, d = .answer x → Answers x) : Lived settings Answers none (l.next d) := by
  by_cases hrun : ∃ p c env, d = .run p c env
  · obtain ⟨p, c, env, rfl⟩ := hrun
    exact h.next_run p c env
  by_cases hanswer : ∃ x, d = .answer x
  · obtain ⟨x, rfl⟩ := hanswer
    exact h.answer (ha x rfl)
  have hyields := h.reached.yields_next d
  have hstirred := h.stirred_next d (fun p c env hd => hrun ⟨p, c, env, hd⟩)
    fun x hd => hanswer ⟨x, hd⟩
  generalize l.next d = l' at hyields hstirred
  cases hyields with
  | add new f hs hm hlog hnew => exact (h.stir new hs hm hlog hnew).add _
  | board new hd hm hlog hnew => exact h.stir new (hstirred hd) hm hlog hnew
  | direct m hp hs => exact h.direct hp hs m
  | abort m cause hp hs =>
    have hdirect := h.direct hp hs m
    obtain ⟨new, hnew, houtside, hmoves, heq⟩ := noteAbort_spec (l.directly _ m _).stream cause
    have hnoted := hdirect.stir new (Sequel.stirred_noteAbort .refl cause) hmoves hnew houtside
    rw [← heq] at hnoted
    exact hnoted.finish _ cause.ending
  | idle => exact absurd ⟨_, _, _, rfl⟩ hrun
  | settled => exact absurd ⟨_, _, _, rfl⟩ hrun
  | release => exact absurd ⟨_, _, _, rfl⟩ hrun

theorem foldl (more : List (Deed σ ε)) (h : Lived settings Answers none l)
    (ha : ∀ x, .answer x ∈ more → Answers x) :
    Lived settings Answers none (more.foldl Life.next l) := by
  induction more generalizing l with
  | nil => exact h
  | cons d more ih =>
    refine ih (h.next_deed d fun x hd => ha x ?_) fun x hx => ha x (List.mem_cons_of_mem d hx)
    rw [hd]
    exact List.mem_cons_self

end Lived

/-- **Every life is lived.** -/
theorem lived_after (id : StreamId) (settings : Settings) (deeds : List (Deed σ ε)) :
    Lived settings (fun x => Deed.answer x ∈ deeds) none (after id settings deeds) :=
  Lived.foldl deeds (.fresh id) fun _ hx => hx

/-! ## The phases a deed executes -/

/-- **In the course of the deed the stream executes its phase**, as it then is, with the filters
from a position on. -/
inductive Life.Executes (l : Life σ) : Deed σ ε → Nat → Stream σ → Prop
  | intro {p c env start s k t} (hp : l.Due p) (ho : l.stream.Opens p.job start s)
      (hs : Relation.ReflTransGen (Turn.Stride c) (start, ⟨s, env⟩) (k, t)) (hl : t.stream.Live) :
      Executes l (.run p c env) k t.stream

/-- A stream that executes its phase is lived. -/
theorem Lived.of_executes {settings : Settings} {Answers : Handover → Prop} {l : Life σ}
    {d : Deed σ ε} {k : Nat} {s : Stream σ} (h : Lived settings Answers none l)
    (hx : l.Executes d k s) : ∃ p c env, d = .run p c env ∧ l.Due p ∧
      Lived settings Answers (some k) { l with stream := s, ran := p :: l.ran } := by
  obtain @⟨p, c, env, start, s₀, k, t, hp, ho, hs, hl⟩ := hx
  refine ⟨p, c, env, rfl, hp, ?_⟩
  exact (h.opened hp ho).strides (x := (start, ⟨s₀, env⟩)) (y := (k, t))
    (l := { l with stream := s₀, ran := p :: l.ran }) hs

namespace Stream.Opens

variable {s s' : Stream σ} {job : Job} {k : Nat}

/-- The log of a stream that is opened grows by no phase. -/
theorem log (h : s.Opens job k s') :
    ∃ new, s'.board.log = new ++ s.board.log ∧ ∀ e ∈ new, e.enters? = none := by
  cases h with
  | receive => exact ⟨[], rfl, by simp⟩
  | resume => exact ⟨[.published .running], rfl, by simp [Event.enters?]⟩
  | reroute => exact ⟨[.published .running], rfl, by simp [Event.enters?]⟩
  | response => exact ⟨[.stat (.phaseCompleted .awaitResponse)], rfl, by simp [Event.enters?]⟩

theorem owned (h : s.Opens job k s') (ho : s.board.owned = true) : s'.board.owned = true := by
  cases h <;> exact ho

theorem claimed_eq (h : s.Opens job k s') : s'.board.claimed = s.board.claimed := by
  cases h <;> rfl

/-- A job opens a stream in one way. -/
theorem unique (h : s.Opens job k s') {k' : Nat} {s'' : Stream σ} (h' : s.Opens job k' s'') :
    k = k' ∧ s' = s'' := by
  cases h <;> cases h' <;> simp_all

theorem not_ignores (h : s.Opens job k s') : ¬ s.Ignores job := by
  cases h <;> simp_all [Ignores]

/-- **A job runs as it is opened.** -/
theorem exec (h : s.Opens job k s') (c : Surroundings σ ε) (env : ε) :
    Turn.exec c job ⟨s, env⟩ = Turn.drive c k ⟨s', env⟩ := by
  have hran := Turn.ran_exec c ⟨s, env⟩ job
  generalize Turn.exec c job ⟨s, env⟩ = r at hran
  cases hran with
  | idle hi => exact absurd hi h.not_ignores
  | drive h' =>
    obtain ⟨rfl, rfl⟩ := h.unique h'
    rfl
  | timeout => cases h
  | release => cases h

end Stream.Opens

namespace Reached

variable {l : Life σ}

/-- A job that does not have the stream driven enters no phase. -/
theorem quiet_run (h : Reached none l) {p : Posting} {c : Surroundings σ ε} {env : ε}
    (hd : l.Due p → ∀ k s, ¬ l.stream.Opens p.job k s) :
    ∃ new, (l.next (.run p c env)).log = new ++ l.log ∧ ∀ e ∈ new, e.enters? = none := by
  have ho := h.orderly.books.owned
  have ended {s : Stream σ} (panic : Option Panic) (hs : ∃ new, s.board.log = new ++ l.log ∧
      ∀ e ∈ new, e.isEnding = true) : ∃ new, (Life.survive panic s).board.log = new ++ l.log ∧
        ∀ e ∈ new, e.enters? = none := by
    obtain ⟨new, hlog, hnew⟩ := hs
    obtain ⟨more, hmore, houtside⟩ := survive_log panic s
    refine ⟨more ++ new, by rw [hmore, hlog, List.append_assoc], fun e he => ?_⟩
    rcases List.mem_append.mp he with he | he
    · exact (Event.tame_of_isOutside (houtside e he)).enters
    · exact (Event.tame_of_isEnding (hnew e he)).enters
  by_cases hp : l.Due p
  case neg => exact ⟨[], by rw [Life.next, if_neg hp]; rfl, by simp⟩
  rw [Life.next, if_pos hp]
  have hran := Turn.ran_exec c ⟨l.stream, env⟩ p.job
  have hd := hd hp
  generalize Turn.exec c p.job ⟨l.stream, env⟩ = r at hran
  generalize p.job = job at hran hd
  cases hran with
  | idle => exact ⟨[], rfl, by simp⟩
  | drive hopens => exact absurd hopens (hd _ _)
  | timeout => exact ended _ (finish_log c.behaviour .stopTimeout l.stream ho)
  | release ending => exact ended _ (release_log c.behaviour ending l.stream ho)

/-- Whatever does not have the stream driven enters no phase. -/
theorem quiet_next (h : Reached none l) {d : Deed σ ε}
    (hd : ∀ p c env, d = .run p c env → l.Due p → ∀ k s, ¬ l.stream.Opens p.job k s) :
    ∃ new, (l.next d).log = new ++ l.log ∧ ∀ e ∈ new, e.enters? = none := by
  by_cases hrun : ∃ p c env, d = .run p c env
  · obtain ⟨p, c, env, rfl⟩ := hrun
    exact h.quiet_run (hd p c env rfl)
  have hyields := h.yields_next d
  generalize l.next d = l' at hyields
  cases hyields with
  | add new f _ hm hlog hnew =>
    exact ⟨new, hlog, fun e he => (Event.tame_of_isOutside (hnew e he)).enters⟩
  | board new _ hm hlog hnew =>
    exact ⟨new, hlog, fun e he => (Event.tame_of_isOutside (hnew e he)).enters⟩
  | direct m hp hs => exact ⟨_, hp.log, fun e he => (Event.tame_of_pass (hp.kinds e he)).enters⟩
  | @abort c _ _ r new is m cause hp hs =>
    obtain ⟨noted, hnoted, houtside, hmoves, -⟩ := noteAbort_spec (l.directly r m is).stream cause
    obtain ⟨more, hmore, hending⟩ := finish_log c.behaviour cause.ending _
      (hmoves.owned.trans (hp.moves.owned.trans h.orderly.books.owned))
    refine ⟨more ++ (noted ++ new), ?_, fun e he => ?_⟩
    · refine hmore.trans ?_
      rw [hnoted, show (l.directly r m is).stream.board.log = new ++ l.log from hp.log]
      simp only [List.append_assoc]
    · rcases List.mem_append.mp he with he | he
      · exact (Event.tame_of_isEnding (hending e he)).enters
      rcases List.mem_append.mp he with he | he
      · exact (Event.tame_of_isOutside (houtside e he)).enters
      · exact (Event.tame_of_pass (hp.kinds e he)).enters
  | idle => exact absurd ⟨_, _, _, rfl⟩ hrun
  | settled => exact absurd ⟨_, _, _, rfl⟩ hrun
  | release => exact absurd ⟨_, _, _, rfl⟩ hrun

/-- **The log tells the phases a deed executes**, each with the log it found. -/
theorem entered_iff (h : Reached none l) (d : Deed σ ε) (p : Phase) (older : List (Event σ)) :
    (.entered p :: older <:+ (l.next d).log ∧ l.log <:+ older) ↔
      ∃ k s, l.Executes d k s ∧ s.phase = p ∧ s.board.log = older := by
  by_cases hd : ∃ q c env k s, d = .run q c env ∧ l.Due q ∧ l.stream.Opens q.job k s
  case neg =>
    obtain ⟨new, hlog, hnew⟩ := h.quiet_next fun q c env hrun hq k s hopens =>
      hd ⟨q, c, env, k, s, hrun, hq, hopens⟩
    constructor
    · rintro ⟨hin, hfrom⟩
      rw [hlog, entered_suffix_append hnew] at hin
      exact absurd hfrom (not_suffix_of_cons_suffix hin)
    · rintro ⟨k, s, ⟨hq, hopens, -⟩, -⟩
      exact absurd ⟨_, _, _, _, _, rfl, hq, hopens⟩ hd
  obtain ⟨q, c, env, start, s₀, rfl, hq, hopens⟩ := hd
  have ho₀ := hopens.owned h.orderly.books.owned
  have hiff := (Turn.drives_drive c start ⟨s₀, env⟩ ho₀).entered_iff ho₀ p older
  obtain ⟨more, hmore, houtside⟩ :=
    survive_log (Turn.drive c start ⟨s₀, env⟩).1 (Turn.drive c start ⟨s₀, env⟩).2.stream
  have hlog : (l.next (.run q c env)).log = more
    ++ (Turn.drive c start ⟨s₀, env⟩).2.stream.board.log := by
    rw [Life.next, if_pos hq, hopens.exec]
    exact hmore
  rw [hlog, entered_suffix_append fun e he => (Event.tame_of_isOutside (houtside e he)).enters]
  obtain ⟨new, hnew, hquiet⟩ := hopens.log
  constructor
  · rintro ⟨hin, hfrom⟩
    have hfrom₀ : s₀.board.log <:+ older := by
      rcases suffix_or_of_cons_suffix hin
        ((Turn.drives_drive c start ⟨s₀, env⟩ ho₀).suffix ho₀) with hin₀ | hfrom₀
      · rw [hnew, entered_suffix_append hquiet] at hin₀
        exact absurd hfrom (not_suffix_of_cons_suffix hin₀)
      · exact hfrom₀
    obtain ⟨y, hy, hl, hp, hlog⟩ := hiff.mp ⟨hin, hfrom₀⟩
    exact ⟨y.1, y.2.stream, .intro hq hopens hy hl, hp, hlog⟩
  · rintro ⟨k, s, @⟨_, _, _, _, _, _, t, -, hopens', hs, hl⟩, hp, holder⟩
    obtain ⟨rfl, rfl⟩ := hopens.unique hopens'
    obtain ⟨hin, hfrom⟩ := hiff.mpr ⟨(k, t), hs, hl, hp, holder⟩
    refine ⟨hin, List.IsSuffix.trans ?_ hfrom⟩
    rw [show s₀.board.log = new ++ l.log from hnew]
    exact List.suffix_append _ _

end Reached

end FilterProxy

import FilterProxy.Proofs.Sweep

/-!
# Proofs/Rounds — pauses neither skip nor repeat a filter

A stream that stays at a phase of filters, pause after pause, makes one **round** of them
(`Life.Round`).  Every turn at such a phase belongs to a round, and what a round has called is **the
first of the positions** bound to its phase, however many filters were added meanwhile.  So none is
called twice, and a round that leads on to the next phase has called them all.
-/

namespace FilterProxy

variable {σ ε : Type}

open Board FilterSet FilterProxy.Stream Life

/-! ## Turns in the course of a life -/

/-- The stream stands where it executed its phase last. -/
structure Stream.Follows (s s' : Stream σ) : Prop where
  phase : s'.phase = s.phase
  log : ∃ new, s'.board.log = new ++ .entered s.phase :: s.board.log ∧ ∀ e ∈ new, e.enters? = none

namespace Stream.Follows

variable {s s' s'' : Stream σ}

/-- Nothing was entered since. -/
theorem grow (h : s.Follows s') (hp : s''.phase = s'.phase)
    (hlog : ∃ new, s''.board.log = new ++ s'.board.log ∧ ∀ e ∈ new, e.enters? = none) :
      s.Follows s'' := by
  obtain ⟨new, hnew, hquiet⟩ := h.log
  obtain ⟨more, hmore, hquiet'⟩ := hlog
  refine ⟨hp.trans h.phase, more ++ new, by rw [hmore, hnew, List.append_assoc], fun e he => ?_⟩
  rcases List.mem_append.mp he with he | he
  · exact hquiet' e he
  · exact hquiet e he

theorem head (h : s.Follows s') : (entries s'.board.log).head? = some s'.phase := by
  obtain ⟨new, hlog, hquiet⟩ := h.log
  rw [hlog, entries_append hquiet, h.phase]
  rfl

/-- **A stream stands at one turn only.** -/
theorem unique {r : Stream σ} (h : s.Follows s') (h' : r.Follows s') :
    s.board.log = r.board.log := by
  have within {a b : Stream σ} (ha : a.Follows s') (hb : b.Follows s') : a.board.log
    <:+ b.board.log →
      a.board.log = b.board.log := fun hs => by
    obtain ⟨new, hlog, hquiet⟩ := ha.log
    obtain ⟨new', hlog', -⟩ := hb.log
    exact (eq_of_entered hquiet ⟨new', by rw [← hlog', hlog]⟩ hs).2.symm
  have suffix {a : Stream σ} (ha : a.Follows s') : a.board.log <:+ s'.board.log := by
    obtain ⟨new, hlog, -⟩ := ha.log
    exact hlog ▸ (List.suffix_cons _ _).trans (List.suffix_append _ _)
  rcases List.suffix_or_suffix_of_suffix (suffix h) (suffix h') with hs | hs
  · exact within h h' hs
  · exact (within h' h hs).symm

end Stream.Follows

namespace Turn

variable {c : Surroundings σ ε} {x y : Nat × Turn σ ε}

/-- Strides that logged nothing are none. -/
theorem Stride.eq_of_log (h : Relation.ReflTransGen (Stride c) x y)
    (ho : x.2.stream.board.owned = true)
    (hlog : y.2.stream.board.log = x.2.stream.board.log) : x = y := by
  rcases Relation.ReflTransGen.cases_head h with rfl | ⟨z, hz, hy⟩
  · rfl
  · obtain ⟨new, hnew, -⟩ := hz.log ho
    have hgrown := suffix_strides hy ((hz.moves ho).owned.trans ho)
    rw [hnew, hlog] at hgrown
    exact absurd (List.suffix_refl _)
      (not_suffix_of_cons_suffix ((List.suffix_append _ _).trans hgrown))

/-- **A stride to a phase of filters begins with the first of them**, and from another phase. -/
theorem Stride.anew (h : Stride c x y) (ho : x.2.stream.board.owned = true)
    (hp : y.2.stream.phase.side?.isSome) :
    y.1 = 0 ∧ (entries y.2.stream.board.log).head? ≠ some y.2.stream.phase := by
  cases h with
  | @next k t t' hl h =>
    obtain ⟨new, is, hx⟩ := executed_execute hl ho h
    rw [advance_of_executed hx]
    refine ⟨rfl, ?_⟩
    have hentries : entries t'.stream.advanced.board.log = t.stream.phase
      :: entries t.stream.board.log :=
      (entries_cons_of_none rfl _).trans hx.entries
    have hphase : t'.stream.advanced.phase = t.stream.phase.next := congrArg Phase.next hx.phase
    rw [hentries, hphase]
    cases hx with
    | next hw ha hp' =>
      intro heq
      have heq : t.stream.phase = t.stream.phase.next := Option.some.inj heq
      have hnumber := Phase.number_next hl.notDone
      rw [← heq] at hnumber
      omega
  | goto hl h =>
    obtain ⟨new, is, hx⟩ := executed_execute hl ho h
    obtain ⟨point, hpoint, rfl⟩ := hx.of_goto
    refine ⟨rfl, ?_⟩
    have hentries := congrArg List.head? hx.entries
    rw [hpoint] at hentries
    refine fun heq => ?_
    have heq : some point.phase = some Phase.filterResponse := hentries.symm.trans heq
    cases point <;> cases heq
  | jump hl h hj =>
    obtain ⟨new, is, hx⟩ := executed_execute hl ho h
    obtain ⟨point, -, rfl | rfl⟩ := hx.of_jump <;> cases hp

end Turn

section

variable {l : Life σ} {d d' : Deed σ ε} {c c' : Surroundings σ ε} {k k' : Nat} {t t' : Turn σ ε}

/-- A turn in the course of the deed is found in the log. -/
theorem Life.Turns.entered (h : Reached none l) (ht : l.Turns d c k t) :
    l.log <:+ t.stream.board.log ∧
      .entered t.stream.phase :: t.stream.board.log <:+ (l.next d).log := by
  have hx : l.Executes d k t.stream := by
    obtain ⟨hp, ho, hs, hl⟩ := ht
    exact .intro hp ho hs hl
  exact ((h.entered_iff d t.stream.phase t.stream.board.log).mpr ⟨k, _, hx, rfl, rfl⟩).symm

/-- **A turn is told by the log it finds.** -/
theorem Life.Turns.unique (h : Reached none l) (ht : l.Turns d c k t) (ht' : l.Turns d c' k' t')
    (hlog : t.stream.board.log = t'.stream.board.log) : c = c' ∧ k = k' ∧ t = t' := by
  obtain @⟨p, _, env, start, s, _, _, hp, ho, hs, hl⟩ := ht
  obtain @⟨_, _, _, _, _, _, _, -, ho', hs', hl'⟩ := ht'
  obtain ⟨rfl, rfl⟩ := ho.unique ho'
  have howned := ho.owned h.orderly.books.owned
  have hunique : Relator.RightUnique (Turn.Stride c) := fun _ _ _ => Turn.Stride.unique
  have heq : (k, t) = (k', t') := by
    rcases Relation.ReflTransGen.total_of_right_unique hunique hs hs' with hmore | hmore
    · exact Turn.Stride.eq_of_log hmore (Turn.Stride.owned_strides hs howned) hlog.symm
    · exact (Turn.Stride.eq_of_log hmore (Turn.Stride.owned_strides hs' howned) hlog).symm
  exact ⟨rfl, congrArg Prod.fst heq, congrArg Prod.snd heq⟩

end

section

variable {id : StreamId} {settings : Settings} {deeds before more : List (Deed σ ε)}
  {c c' : Surroundings σ ε} {k k' : Nat} {t t' : Turn σ ε} {d d' : Deed σ ε}

/-- A turn of an earlier deed is found in the log of a later one. -/
theorem Life.Turns.earlier (ht : (after id settings before).Turns d c k t)
    (ht' : (after id settings (before ++ d :: more)).Turns d' c' k' t') :
    .entered t.stream.phase :: t.stream.board.log <:+ t'.stream.board.log := by
  have h := reached_after id settings before
  have hlater := (h.next_deed d).suffix_foldl more
  have hbetween := (ht'.entered (reached_after ..)).1
  rw [after_append] at hbetween
  exact ((ht.entered h).2.trans hlater).trans hbetween

/-- **No two turns of a life find the same log.** -/
theorem Life.Acts.unique (ha : Acts id settings deeds c k t) (ha' : Acts id settings deeds c' k' t')
    (hlog : t.stream.board.log = t'.stream.board.log) : c = c' ∧ k = k' ∧ t = t' := by
  obtain @⟨before, d, more, _, _, _, hd, ht⟩ := ha
  obtain @⟨before', d', more', _, _, _, hd', ht'⟩ := ha'
  rcases List.append_eq_append_iff.mp (hd.symm.trans hd')
    with ⟨rest, rfl, hrest⟩ | ⟨rest, rfl, hrest⟩
  · cases rest with
    | nil =>
      obtain ⟨rfl, -⟩ := List.cons.inj hrest
      rw [List.append_nil] at ht'
      exact ht.unique (reached_after ..) ht' hlog
    | cons f rest =>
      obtain ⟨rfl, -⟩ := List.cons.inj hrest
      exact absurd (hlog ▸ List.suffix_refl _) (not_suffix_of_cons_suffix (ht.earlier ht'))
  · cases rest with
    | nil =>
      obtain ⟨rfl, -⟩ := List.cons.inj hrest
      rw [List.append_nil] at ht
      exact ht.unique (reached_after ..) ht' hlog
    | cons f rest =>
      obtain ⟨rfl, -⟩ := List.cons.inj hrest
      exact absurd (hlog ▸ List.suffix_refl _) (not_suffix_of_cons_suffix (ht'.earlier ht))

end

/-! ## The turn a stream is paused at -/

/-- **Filters are only added.** -/
theorem Reached.extends_next {l : Life σ} (h : Reached none l) (d : Deed σ ε) :
    l.stream.filters.Extends (l.next d).stream.filters := by
  have survived (panic : Option Panic) (s : Stream σ) : (Life.survive panic s).filters
    = s.filters := by
    cases panic <;> rfl
  have hyields := h.yields_next d
  generalize l.next d = l' at hyields
  cases hyields with
  | add r => exact extends_enlist _ _
  | board => exact (Fixed.refl _).extends
  | direct m hp => exact hp.fixed.extends
  | @abort c _ _ r new is m cause hp =>
    obtain ⟨-, -, -, hmoves, heq⟩ := noteAbort_spec (l.directly r m is).stream cause
    have hfinish := finish_fixed c.behaviour ((l.directly r m is).stream.noteAbort cause)
      cause.ending
      (hmoves.owned.trans (hp.moves.owned.trans h.orderly.books.owned))
    rw [heq] at hfinish
    have hfixed : l.stream.filters.Fixed (l.directly r m is).stream.filters := hp.fixed
    rw [heq]
    exact (hfixed.trans hfinish).extends
  | idle => exact (Fixed.refl _).extends
  | @settled p c env panic s hp hj hd hs =>
    rw [show ({ l with stream := Life.survive panic s, ran := p :: l.ran } : Life σ).stream.filters
      = s.filters from survived panic s]
    obtain ⟨s₀, hs₀, -, ⟨-, hfixed⟩, rfl | ⟨ending, hfinish⟩⟩ := hs
    · exact hfixed.extends
    · rw [show s = _ from congrArg Prod.snd hfinish]
      exact (hfixed.trans (finish_fixed c.behaviour s₀ ending hs₀.orderly.books.owned)).extends
  | @release p c env ending hp hj =>
    exact (survived _ _).symm ▸
      (release_fixed c.behaviour l.stream ending h.orderly.books.owned).extends

/-- A stream is in a pause that began at the turn. -/
structure Turn.PausesAt (c : Surroundings σ ε) (k : Nat) (t : Turn σ ε) (n : Nat)
    (s : Stream σ) : Prop where
  paused : (t.execute c k).2.stream.pausedBy = some n
  follows : t.stream.Follows s
  added : t.stream.filters.Extends s.filters

/-- A drive that stops in a pause made its last turn there. -/
theorem Turn.Stops.pausesAt {c : Surroundings σ ε} {x : Nat × Turn σ ε}
    {r : Option Panic × Turn σ ε}
    (h : Stops c x r) (ho : x.2.stream.board.owned = true) (hb : x.2.stream.pausedBy = none)
    (hc : (survive r.1 r.2.stream).board.claimed = false) {n : Nat}
    (hn : (survive r.1 r.2.stream).pausedBy = some n) :
    x.2.stream.Live ∧ Turn.PausesAt c x.1 x.2 n (survive r.1 r.2.stream) := by
  have ended {t t' : Turn σ ε} {k : Nat} {step : Step} (hl : t.stream.Live)
      (ho : t.stream.board.owned = true) (hx : t.execute c k = (step, t')) (ending : Ending)
      (hc : (survive (t'.stream.finish c.behaviour ending).1
        (t'.stream.finish c.behaviour ending).2).board.claimed = false) : False := by
    obtain ⟨new, is, hexec⟩ := executed_execute hl ho hx
    rw [Reached.claimed_survive,
      claimed_finish c.behaviour ending ((hexec.moves hl).owned.trans ho)] at hc
    cases hc
  cases h with
  | halt => cases hb.symm.trans hn
  | @rest k t t' hl hx =>
    obtain ⟨new, is, hexec⟩ := executed_execute hl ho hx
    exact ⟨hl, by rw [hx]; exact hn, ⟨hexec.phase, new, hexec.worked.log, fun e he =>
      Event.enters?_of_within (hexec.worked.within e he)⟩, hexec.worked.fixed.extends⟩
  | finish hl hx => exact (ended hl ho hx _ hc).elim
  | overrun hl hx hj => exact (ended hl ho hx _ hc).elim
  | escape hl hx =>
    obtain ⟨new, is, hexec⟩ := executed_execute hl ho hx
    cases hexec with
    | escape hw ha =>
      have hawake := ha.pausedBy
      rw [entered_pausedBy, hb] at hawake
      cases hawake.symm.trans hn

/-- **What leaves a stream in a pause** began that pause, or found it there and entered no phase. -/
theorem Lived.pausesAt_next {settings : Settings} {Answers : Handover → Prop} {l : Life σ}
    (h : Lived settings Answers none l) (d : Deed σ ε) {n : Nat}
    (hc : (l.next d).stream.board.claimed = false) (hn : (l.next d).stream.pausedBy = some n) :
    (l.stream.board.claimed = false ∧ l.stream.pausedBy = some n ∧
        (l.next d).stream.phase = l.stream.phase ∧
        ∃ new, (l.next d).log = new ++ l.log ∧ ∀ e ∈ new, e.enters? = none) ∨
      ∃ c k t, l.Turns d c k t ∧ Turn.PausesAt c k t n (l.next d).stream := by
  have ho := h.owned
  by_cases hrun : ∃ p c env, d = .run p c env
  case neg =>
    have hrun : ∀ p c env, d ≠ .run p c env := fun p c env hd => hrun ⟨p, c, env, hd⟩
    obtain ⟨hbeside, -⟩ := l.beside_next ho d hrun
    have hstays := hbeside.stays hc
    exact .inl ⟨hbeside.board.unclaimed hc, hstays.pausedBy.symm.trans hn, hstays.phase,
      h.reached.quiet_next fun p c env hd => absurd hd (hrun p c env)⟩
  obtain ⟨p, c, env, rfl⟩ := hrun
  by_cases hp : l.Due p
  case neg =>
    rw [Life.next, if_neg hp] at hc hn ⊢
    exact .inl ⟨hc, hn, rfl, [], rfl, by simp⟩
  rw [Life.next, if_pos hp] at hc hn ⊢
  dsimp only [Life.log] at hc hn ⊢
  have hran := Turn.ran_exec c ⟨l.stream, env⟩ p.job
  generalize Turn.exec c p.job ⟨l.stream, env⟩ = r at hran hc hn ⊢
  obtain ⟨job, byReply⟩ := p
  dsimp only at hran
  cases hran with
  | idle => exact .inl ⟨hc, hn, rfl, [], rfl, by simp⟩
  | @drive _ start s hopens =>
    have ho' := hopens.owned ho
    obtain ⟨⟨k, t⟩, hs, hstop⟩ := Turn.drives_drive c start ⟨s, env⟩ ho'
    have hexecuting := (h.opened hp hopens).strides (x := (start, ⟨s, env⟩)) (y := (k, t))
      (l := { l with stream := s, ran := _ :: l.ran }) hs
    obtain ⟨hl, hpauses⟩ := hstop.pausesAt hexecuting.owned hexecuting.reached.poised.2 hc hn
    exact .inr ⟨c, k, t, .intro hp hopens hs hl, hpauses⟩
  | timeout =>
    rw [Reached.claimed_survive] at hc
    cases (claimed_finish c.behaviour .stopTimeout ho).symm.trans hc
  | release ending =>
    rw [Reached.claimed_survive] at hc
    have hclaimed := (h.reached.orderly.condemned_due hp rfl).claimed
    cases (claimed_release c.behaviour ending ho hclaimed).symm.trans hc

namespace Life

section

variable {id : StreamId} {settings : Settings} {deeds : List (Deed σ ε)}

/-- **A life in a pause** is paused at a turn of its own. -/
theorem exists_pausesAt (before more : List (Deed σ ε)) (hd : deeds = before ++ more) {n : Nat}
    (hc : (after id settings before).stream.board.claimed = false)
    (hn : (after id settings before).stream.pausedBy = some n) :
    ∃ c k t, Acts id settings deeds c k t ∧ Turn.PausesAt c k t n
      (after id settings before).stream := by
  induction before using List.reverseRecOn generalizing more with
  | nil => cases hn
  | append_singleton before d ih =>
    have hd : deeds = before ++ d :: more := by rw [hd, List.append_assoc]; rfl
    have h := lived_after id settings before
    rw [after_append] at hc hn ⊢
    rcases h.pausesAt_next d hc hn with ⟨hc', hn', hphase, hlog⟩ | ⟨c, k, t, ht, hpauses⟩
    · obtain ⟨c, k, t, ha, hpauses⟩ := ih (d :: more) hd hc' hn'
      exact ⟨c, k, t, ha, hpauses.paused, hpauses.follows.grow hphase hlog,
        hpauses.added.trans (h.reached.extends_next d)⟩
    · exact ⟨c, k, t, .intro hd ht, hpauses⟩

variable {c c' : Surroundings σ ε} {k k' n : Nat} {t t' : Turn σ ε}

/-- **A turn at a phase of filters comes from another phase** and begins with the first of them, or
it goes on behind the filter that paused the stream there. -/
theorem Acts.begins_or_goes_on (ha : Acts id settings deeds c k t)
    (hs : t.stream.phase.side?.isSome) :
    k = 0 ∧ (entries t.stream.board.log).head? ≠ some t.stream.phase ∨
      ∃ c' k' t' n, Acts id settings deeds c' k' t' ∧ Turn.PausesAt c' k' t' n t.stream ∧
      k = n + 1 := by
  obtain @⟨before, _, more, _, _, _, hd, @⟨p, _, env, start, s, _, _, -, hopens, hstrides, hl⟩⟩ :=
    ha
  have h := reached_after id settings before
  have ho := h.orderly.books.owned
  have ho' := hopens.owned ho
  rcases Relation.ReflTransGen.cases_tail hstrides with heq | ⟨⟨k', t'⟩, hz, hstride⟩
  case inr => exact .inl (hstride.anew (Turn.Stride.owned_strides hz ho') hs)
  obtain ⟨rfl, rfl⟩ := Prod.mk.inj heq
  have standing {q : Phase} (hc : (after id settings before).stream.board.claimed = false)
      (hq : (after id settings before).stream.phase = q) (hne : q ≠ .init) :
      (entries (after id settings before).log).head? = some q :=
    hq ▸ (h.onCourse.standing.started hc (hq ▸ hne)).1
  obtain ⟨job, byReply⟩ := p
  dsimp only at hopens hs
  cases hopens with
  | receive hc hp =>
    have hs : (after id settings before).stream.phase.side?.isSome := hs
    rw [hp] at hs
    cases hs
  | @resume caller index hc hpaused hcaller hr =>
    obtain ⟨c', k', t', ha, hpauses⟩ := exists_pausesAt before (_ :: more) hd hc hpaused
    exact .inr ⟨c', k', t', index, ha, ⟨hpauses.paused,
      hpauses.follows.grow rfl ⟨[.published .running], rfl, by simp [Event.enters?]⟩,
        hpauses.added⟩, rfl⟩
  | @reroute caller index reply hc hpaused hcaller hlt hr =>
    refine .inl ⟨rfl, fun heq => ?_⟩
    have hne : (after id settings before).stream.phase ≠ .init := fun hinit => by
      have := h.poised index hpaused
      rw [hinit] at this
      cases this
    have hphase : (after id settings before).stream.phase = .filterResponse :=
      Option.some.inj ((standing hc rfl hne).symm.trans heq)
    rw [hphase] at hlt
    exact absurd hlt (by decide)
  | response hc hp =>
    refine .inl ⟨rfl, fun heq => ?_⟩
    have heq : some Phase.awaitResponse = some Phase.filterResponse :=
      (standing hc hp (by decide)).symm.trans heq
    cases heq

end

/-! ## Rounds -/

/-- **A round of the filters of a phase**, up to a turn that executes the phase: the filters as the
round began, and the positions called in the turns before, in order. -/
inductive Round (id : StreamId) (settings : Settings) (deeds : List (Deed σ ε)) (side : Side) :
    Surroundings σ ε → Nat → Turn σ ε → FilterSet σ → List Nat → Prop
  /-- The phase executed last is another one. -/
  | begin {c k t} (ha : Acts id settings deeds c k t)
      (hnew : (entries t.stream.board.log).head? ≠ some t.stream.phase) :
      Round id settings deeds side c k t t.stream.filters []
  /-- The phase is executed again, and no other was executed since. -/
  | goOn {c k t began called c' k' t'} (hr : Round id settings deeds side c k t began called)
      (ha : Acts id settings deeds c' k' t') (hf : t.stream.Follows t'.stream) :
      Round id settings deeds side c' k' t' began (called ++ t.called c side k)

section

variable {id : StreamId} {settings : Settings} {deeds : List (Deed σ ε)}
  {c : Surroundings σ ε} {k : Nat}
  {t : Turn σ ε} {side : Side} {began : FilterSet σ} {called : List Nat}

theorem Round.acts (h : Round id settings deeds side c k t began called) :
    Acts id settings deeds c k t := by
  cases h <;> assumption

theorem Acts.sweeps (ha : Acts id settings deeds c k t) (hs : t.stream.phase.side? = some side) :
    t.Sweeps c side k := by
  refine Turn.sweeps ha.live ha.books.owned ?_ hs
  obtain ⟨-, hp, hopens, hstrides, hl⟩ := ha
  obtain ⟨_, _, _, _, _, hlived⟩ := (lived_after ..).of_executes (.intro hp hopens hstrides hl)
  exact hlived.reached.poised.2

/-- **A round has called all positions before the start of its turn**, and they are still those. -/
theorem Round.called_eq (h : Round id settings deeds side c k t began called)
    (hs : t.stream.phase.side? = some side) :
    called = (t.stream.filters.positions 0 t.stream.phase).filter (· < k) ∧
      began.Extends t.stream.filters := by
  induction h with
  | begin ha hnew =>
    rcases ha.begins_or_goes_on (by rw [hs]; rfl) with ⟨rfl, -⟩ | ⟨_, _, _, _, _, hpauses, -⟩
    · exact ⟨by simp, (Fixed.refl _).extends⟩
    · exact absurd hpauses.follows.head hnew
  | @goOn c k t began called c' k' t' hr ha hf ih =>
    rcases ha.begins_or_goes_on (by rw [hs]; rfl)
      with ⟨-, hnew⟩ | ⟨c₀, k₀, t₀, n, ha₀, hpauses, rfl⟩
    · exact absurd hf.head hnew
    obtain ⟨rfl, rfl, rfl⟩ := hr.acts.unique ha₀ (hf.unique hpauses.follows)
    rw [hf.phase] at hs ⊢
    obtain ⟨hcalled, hadded⟩ := ih hs
    refine ⟨?_, hadded.trans hpauses.added⟩
    have hsweeps := hr.acts.sweeps hs
    obtain ⟨hmem, hlast⟩ := hsweeps.paused n hpauses.paused
    obtain ⟨rest, hrest⟩ := hsweeps.called
    have hsplit := t.stream.filters.positions_split k t.stream.phase
    have hrising := t.stream.filters.pairwise_positions 0 t.stream.phase
    rw [← hsplit, ← hcalled, ← hrest, ← List.append_assoc] at hrising
    obtain ⟨hrising, -, hbehind⟩ := List.pairwise_append.mp hrising
    have hn := mem_positions.mp (hrest ▸ List.mem_append_left rest hmem)
    refine hrising.eq_of_mem_iff ((pairwise_positions _ _ _).filter _) fun i => ?_
    rw [List.mem_append, List.mem_filter, mem_positions, decide_eq_true_eq, Nat.lt_succ_iff]
    constructor
    · rintro (hi | hi)
      · rw [hcalled, List.mem_filter, mem_positions, decide_eq_true_eq] at hi
        exact ⟨⟨Nat.zero_le _, hpauses.added.bound hi.1.2⟩, Nat.le_trans (Nat.le_of_lt hi.2) hn.1⟩
      · have hbound := (mem_positions.mp (hrest ▸ List.mem_append_left rest hi)).2
        exact ⟨⟨Nat.zero_le _, hpauses.added.bound hbound⟩, hlast i hi⟩
    · rintro ⟨⟨-, hi⟩, hle⟩
      have hi := (hpauses.added.bound_iff hn.2 hle).mp hi
      by_cases hlt : i < k
      · exact .inl
          (by rw [hcalled]; exact List.mem_filter.mpr ⟨mem_positions.mpr ⟨Nat.zero_le _,
            hi⟩, by simpa⟩)
      · have hthere : i ∈ t.called c side k ++ rest :=
          hrest ▸ mem_positions.mpr ⟨Nat.le_of_not_lt hlt, hi⟩
        rcases List.mem_append.mp hthere with hthere | hlate
        · exact .inr hthere
        · exact absurd (hbehind n (List.mem_append_right _ hmem) i hlate) (Nat.not_lt_of_le hle)

/-- **Every turn at a phase of filters belongs to a round.** -/
theorem Acts.round (ha : Acts id settings deeds c k t) (hs : t.stream.phase.side? = some side) :
    ∃ began called, Round id settings deeds side c k t began called := by
  -- a round goes on from a turn that found a shorter log
  induction hn : t.stream.board.log.length using Nat.strong_induction_on generalizing c k t with
  | h n ih =>
    rcases ha.begins_or_goes_on (by rw [hs]; rfl) with ⟨-, hnew⟩ | ⟨c', k', t', i, ha', hpauses, -⟩
    · exact ⟨_, _, .begin ha hnew⟩
    · have hlt : t'.stream.board.log.length < n := by
        obtain ⟨new, hlog, -⟩ := hpauses.follows.log
        rw [← hn, hlog, List.length_append, List.length_cons]
        omega
      obtain ⟨began, called, hround⟩ := ih _ hlt ha' (hpauses.follows.phase ▸ hs) rfl
      exact ⟨_, _, hround.goOn ha hpauses.follows⟩

end

end Life

/-- **Pauses neither skip nor repeat a filter.**  Every turn at a phase of filters belongs to a
round.  The round begins, with nothing called and from the first filter, wherever the phase executed
last is another one.  What it has called when the turn is over are the first of the positions bound
to the phase, in order, each once; and if the phase then leads on to the next one, without a wish of
a response filter to go back, every filter was called that was there as the round began, and every
one added since. -/
theorem rounds_neither_skip_nor_repeat (id : StreamId) (settings : Settings)
    (deeds : List (Deed σ ε)) {c : Surroundings σ ε} {k : Nat} {t : Turn σ ε} {side : Side}
    (ha : Acts id settings deeds c k t) (hs : t.stream.phase.side? = some side) :
    (∃ began called, Round id settings deeds side c k t began called) ∧
      ∀ began called, Round id settings deeds side c k t began called →
        let all := called ++ t.called c side k
        let bound := t.stream.filters.positions 0 t.stream.phase
        ((entries t.stream.board.log).head? ≠ some t.stream.phase →
            k = 0 ∧ called = [] ∧ began = t.stream.filters) ∧
          all <+: bound ∧ all.Pairwise (· < ·) ∧ all.head? = bound.head? ∧
          ((t.execute c k).1 = .next → ¬ t.Wishes c side k →
            all = bound ∧ ∀ i, began.Bound t.stream.phase i → all.count i = 1) := by
  refine ⟨ha.round hs, fun began called hr => ?_⟩
  intro all bound
  obtain ⟨hcalled, hadded⟩ := hr.called_eq hs
  have hsweeps := ha.sweeps hs
  have hsplit : called ++ t.stream.filters.positions k t.stream.phase = bound :=
    hcalled ▸ t.stream.filters.positions_split k t.stream.phase
  have hrising : bound.Pairwise (· < ·) := t.stream.filters.pairwise_positions 0 t.stream.phase
  have hbegins : all <+: bound := hsplit ▸ (List.prefix_append_right_inj called).mpr hsweeps.called
  have hall : all.Pairwise (· < ·) := hrising.sublist hbegins.sublist
  refine ⟨fun hnew => ?_, hbegins, hall, ?_, fun hnext hwish => ?_⟩
  · have hk : k = 0 := by
      rcases ha.begins_or_goes_on (by rw [hs]; rfl) with ⟨hk, -⟩ | ⟨_, _, _, _, _, hpauses, -⟩
      · exact hk
      · exact absurd hpauses.follows.head hnew
    cases hr with
    | begin => exact ⟨hk, rfl, rfl⟩
    | goOn _ _ hf => exact absurd hf.head hnew
  · obtain ⟨more, hmore⟩ := hbegins
    by_cases hnil : all = []
    · obtain ⟨hnone, hsilent⟩ := List.append_eq_nil_iff.mp hnil
      rw [hnil, ← hsplit, hnone, hsweeps.none_to_call hsilent]
      rfl
    · exact hmore ▸ (List.head?_append_of_ne_nil all hnil).symm
  · have heq : all = bound := by rw [← hsplit, ← hsweeps.all hnext hwish]
    refine ⟨heq, fun i hi => ?_⟩
    have hmem : i ∈ bound := mem_positions.mpr ⟨Nat.zero_le i, hadded.bound hi⟩
    exact List.count_eq_one_of_mem hall.nodup (heq ▸ hmem)

/-- A filter is the verdict it answers. -/
def answering : Behaviour Verdict where
  onRequest v _ parts := .done ⟨v, parts, .ok v⟩
  onResponse v _ parts := .done ⟨v, parts, .ok v⟩
  onDestroy v _ := .done { filter := v }

/-- The second of three filters stops the stream; meanwhile the first asks in vain to go on, and a
fourth filter is added.  Then the second asks. -/
def interrupted : List (Deed Verdict Unit) :=
  [.add answering (.request .proceed .beforeRoute), .add answering (.request .stop .beforeRoute),
    .add answering (.request .proceed .beforeRoute), .receive {},
      .run ⟨.receive {}, false⟩ (.secluded answering) (),
    .act .request .proceed 0 (.act .resume (.done ())),
    .run ⟨.resume (some (.request, 0)), false⟩ (.secluded answering) (),
    .add answering (.request .proceed .beforeRoute),
      .act .request .stop 1 (.act .resume (.done ()))]

/-- The pool takes the job of the filter that stopped the stream. -/
def continued : List (Deed Verdict Unit) :=
  interrupted ++ [.run ⟨.resume (some (.request, 1)), false⟩ (.secluded answering) ()]

/-- The stream goes on behind the second filter. -/
def continuing : Turn Verdict Unit := ⟨(after ⟨1⟩ {} interrupted).stream.woken, ()⟩

theorem acts_continuing : Acts ⟨1⟩ {} continued (.secluded answering) 2 continuing := by
  refine .intro rfl (.intro (by decide +kernel) (.resume ?_ ?_ ?_ ?_) .refl ⟨?_, ?_⟩)
  all_goals decide +kernel

theorem rounds_neither_skip_nor_repeat_continuing :
    Acts ⟨1⟩ {} continued (.secluded answering) 2 continuing ∧ ∃ began called,
      Round ⟨1⟩ {} continued .request (.secluded answering) 2 continuing began called ∧
        called ++ continuing.called (.secluded answering) .request 2 = [0, 1, 2, 3] := by
  obtain ⟨⟨began, called, hround⟩, hall⟩ := rounds_neither_skip_nor_repeat ⟨1⟩ {} continued
    acts_continuing (show continuing.stream.phase.side? = some .request by decide +kernel)
  obtain ⟨-, -, -, -, hnext⟩ := hall began called hround
  obtain ⟨heq, -⟩ := hnext (by decide +kernel) fun hwish => absurd hwish.1 nofun
  exact ⟨acts_continuing, began, called, hround, heq.trans (by decide +kernel)⟩

end FilterProxy

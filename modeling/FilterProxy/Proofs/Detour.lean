import FilterProxy.Proofs.Cut
import FilterProxy.Proofs.Lag
import FilterProxy.Proofs.Rest

/-!
# Proofs/Detour — a stop that the filter takes back at once

A filter stops a stream, and its own call for the stream to go on is what happens next.  The job of
that call then does what the turn would have done without the stop: **the stop was a detour**
(`stop_then_continue`).  It has left an interlude in the log and one pause in the count, so that
from then on the life is one pause behind the one without it (`Turn.Severed.lags`), and the two echo
each other for good (`Life.Echoes`).
-/

namespace FilterProxy

variable {σ ε : Type}

open Board FilterSet FilterProxy.Stream Life

/-- A job that is put out is due. -/
theorem Reached.due_post {l : Life σ} (h : Reached none l) {job : Job} (hj : job ≠ .resume none) :
    (l.post job).Due ⟨job, false⟩ := by
  have hran := h.ran_le ⟨job, false⟩
  have hlog : (l.post job).log = .scheduled job :: l.log := by
    rw [Life.post, become_log, Board.schedule_of_owned h.orderly.books.owned]
    rfl
  have hposted : posted (l.post job).log = ⟨job, false⟩ :: posted l.log := by
    rw [hlog, posted]
    simp [Event.posting?, hj]
  rw [Due, hposted, List.count_cons_self]
  exact Nat.lt_succ_of_le hran

/-! ## Turns in the course of a life -/

namespace Life.Turns

variable {l : Life σ} {p : Posting} {c : Surroundings σ ε} {env : ε} {k : Nat} {t : Turn σ ε}

/-- **The job is done as the turn is driven on.** -/
theorem exec_eq (h : Reached none l) (ht : l.Turns (.run p c env) c k t) :
    l.Due p ∧ Turn.exec c p.job ⟨l.stream, env⟩ = t.drive c k := by
  obtain @⟨_, _, _, start, s, _, _, hp, ho, hs, hl⟩ := ht
  have howned := ho.owned h.orderly.books.owned
  have hrest := (Turn.drives_drive c start ⟨s, env⟩ howned).of_strides hs
  obtain ⟨z, hz, hstop⟩ := Turn.drives_drive c k t (Turn.Stride.owned_strides hs howned)
  exact ⟨hp, (ho.exec c env).trans ((hrest.of_strides hz).eq_of_stops hstop)⟩

theorem next_eq (h : Reached none l) (ht : l.Turns (.run p c env) c k t) : l.next (.run p c env)
    = { l with stream := survive (t.drive c k).1 (t.drive c k).2.stream, ran := p :: l.ran } := by
  obtain ⟨hp, hexec⟩ := ht.exec_eq h
  rw [Life.next, if_pos hp, hexec]

/-- **A stream that executes its phase is at work.** -/
theorem at_work {settings : Settings} {Answers : Handover → Prop}
    (h : Lived settings Answers none l)
    {d : Deed σ ε} (ht : l.Turns d c k t) : t.stream.Live ∧ t.stream.board.owned = true ∧
      t.stream.pausedBy = none ∧ t.stream.board.status = .running ∧ t.stream.filters.InPlace := by
  obtain @⟨p, _, env, start, s, _, _, hp, ho, hs, hl⟩ := ht
  have hlived := (h.opened hp ho).strides (x := (start, ⟨s, env⟩)) (y := (k, t))
    (l := { l with stream := s, ran := p :: l.ran }) hs
  exact ⟨hl, hlived.owned, hlived.reached.poised.2,
    hlived.running hl.unclaimed hlived.reached.poised.2,
    hlived.reached.inPlace⟩

/-- The books on its time limits are kept as well. -/
theorem settings_eq {id : StreamId} {settings : Settings} {deeds : List (Deed σ ε)} {d : Deed σ ε}
    (ht : (after id settings deeds).Turns d c k t) : t.stream.settings = settings := by
  have hacts : Acts id settings (deeds ++ [d]) c k t := .intro rfl ht
  obtain ⟨l, hl, hlive, -, hwatched⟩ := (carries_watched _ settings).acts hacts
  rw [← hl] at hlive ⊢
  exact (hwatched hlive.unclaimed).same

end Life.Turns

/-! ## Where the two runs part -/

/-- **The filter that stops the stream speaks for its position.** -/
theorem Turn.Cut.seat_eq {c₁ c : Surroundings σ ε} {k : Nat} {t : Turn σ ε} {side : Side}
    {v : Chain.Visit (Seated σ) (Workbench σ)} (h : t.Cut c₁ c k side v)
    (hi : t.stream.filters.InPlace) :
    v.left.filter.seat = v.index := by
  cases h with
  | @request point _ _ hp hv hcut hc hr =>
    have hmeets := Chain.meets_pass point k t.stream.settings.convert (callRequest c₁.behaviour)
      t.stream.filters.requests ⟨{ t.stream.entered.board with point := some point },
        t.stream.request.parts⟩
    rw [hv] at hmeets
    exact (seat_left (fun _ _ _ => rfl) hv).trans
      (hi.seat_request (hmeets.filters v List.mem_append_cons_self))
  | response hp hv hcut hc hr =>
    have hmeets := Chain.meets_pass .beforeSend k .keep (callResponse c₁.behaviour)
      t.stream.filters.responses
      ⟨t.stream.entered.board.closeReply.2, t.stream.response.parts⟩
    rw [hv] at hmeets
    exact (seat_left (seat_callResponse _) hv).trans
      (hi.seat_response (hmeets.filters v List.mem_append_cons_self))

namespace Turn.Severed

variable {c₁ c : Surroundings σ ε} {k : Nat} {t : Turn σ ε} {side : Side}
  {v : Chain.Visit (Seated σ) (Workbench σ)} {z : Stream σ} {point : Option RequestPoint}

/-- The one run rests at the filter. -/
theorem drive_stopped (h : t.Severed c₁ c k side v z point) (hl : t.stream.Live)
    (ho : t.stream.board.owned = true) :
    t.drive c₁ k = (none, { t with stream := z.pausedAt v.index point }) :=
  (Turn.drives_drive c₁ k t ho).eq_of_stops (.rest hl h.stopped)

/-- The call to go on wakes the stream again. -/
theorem opens (h : t.Severed c₁ c k side v z point) :
    ((z.pausedAt v.index point).beckoned side v.index).Opens (.resume (some (side, v.index)))
    (v.index + 1)
      ((z.pausedAt v.index point).beckoned side v.index).woken := by
  obtain ⟨hpausedBy, hunclaimed, hreply, hphase, -⟩ := pausedAt_keeps h.unclaimed v.index point
  have hboard : ((z.pausedAt v.index point).beckoned side v.index).board
      = (z.pausedAt v.index point).board.schedule (.resume (some (side, v.index))) := rfl
  refine .resume ?_ hpausedBy ?_ ?_
  · rw [hboard, Board.schedule]
    split <;> exact hunclaimed
  · have hp : ((z.pausedAt v.index point).beckoned side v.index).phase
      = t.stream.phase := hphase.trans h.phase
    have hb : ((z.pausedAt v.index point).beckoned side v.index).pausedBy
      = some v.index := hpausedBy
    simp [Stream.heeds, hp, hb, h.pausesAt]
  · rintro ⟨-, hr⟩
    have hnone : ((z.pausedAt v.index point).beckoned side v.index).board.reply = none := by
      rw [hboard, Board.schedule]
      split <;> exact hreply.trans h.reply
    rw [hnone] at hr
    cases hr

/-- **Both runs go on like one** that has no log behind it. -/
theorem exists_same (h : t.Severed c₁ c k side v z point) (hl : t.stream.Live) :
    ∃ r : Option Panic × Turn σ ε, Turn.Same (· = ·) 0 z.board.log r (t.drive c k) ∧
      Turn.Same (· = ·) 1 (z.interlude side v.index ++ z.board.log) r
        (({ t with stream := ((z.pausedAt v.index point).beckoned side v.index).woken } :
        Turn σ ε).drive c
          (v.index + 1)) := by
  obtain ⟨-, hunclaimed, -, hphase, hjumps⟩ := pausedAt_keeps h.unclaimed v.index point
  generalize hw : ((z.pausedAt v.index point).beckoned side v.index).woken = w
  have hagain := h.again
  rw [hw] at hagain
  have hwphase : w.phase = t.stream.phase := by rw [← hw]; exact hphase.trans h.phase
  have hwjumps : w.jumpsLeft = t.stream.jumpsLeft := by rw [← hw]; exact hjumps.trans h.jumpsLeft
  have hwclaimed : w.board.claimed = false := by rw [← hw]; exact h.opens.unclaimed
  -- as much may be left to do as before
  have hwork : w.work = t.stream.work := by rw [Stream.work, Stream.work, hwjumps, hwphase]
  have hgoes {s : Stream σ} (hc : s.board.claimed = false) (hp : s.phase = t.stream.phase) :
      ¬ (s.claimed = true ∨ s.phase = .done) :=
    not_or.mpr ⟨by simp [Stream.claimed, hc], hp ▸ hl.notDone⟩
  obtain ⟨n, hn⟩ : ∃ n, t.stream.work = n + 1 := by
    have hnumber : t.stream.phase.number ≠ 10 := by
      have hdone := hl.notDone
      revert hdone
      cases t.stream.phase <;> simp [Phase.number]
    have hle := t.stream.phase.number_le
    exact Nat.exists_eq_succ_of_ne_zero (by rw [Stream.work]; omega)
  have hstraight : Turn.Recast (· = ·) 0 z.board.log ⟨z.bare, t.env⟩ { t with stream := z } :=
    ⟨z.bare_recast_zero.symm, rfl⟩
  have hresumed : Turn.Recast (· = ·) 1 (z.interlude side v.index ++ z.board.log) ⟨z.bare, t.env⟩
      { t with stream := z.bare.recast 1 (z.interlude side v.index ++ z.board.log) } := ⟨rfl, rfl⟩
  have hsame := hstraight.step c.alike_eq (v.index + 1)
  have hsame' := hresumed.step c.alike_eq (v.index + 1)
  rw [← h.straight] at hsame
  rw [← hagain] at hsame'
  refine ⟨Turn.onward c n t.stream.phase ((⟨z.bare, t.env⟩ : Turn σ ε).step c (v.index + 1)), ?_,
    ?_⟩
  · rw [Turn.drive, hn, Turn.driveFor_succ, if_neg (hgoes hl.unclaimed rfl)]
    exact Turn.Recast.onward n (fun start _ _ hr => hr.driveFor c.alike_eq n start)
      t.stream.phase hsame
  · rw [Turn.drive, hwork, hn, Turn.driveFor_succ, if_neg (hgoes hwclaimed hwphase), hwphase]
    exact Turn.Recast.onward n (fun start _ _ hr => hr.driveFor c.alike_eq n start)
      t.stream.phase hsame'

/-- The extra pause is over, and nothing else was put out but the job of the call. -/
theorem gap (h : t.Severed c₁ c k side v z point) (settings : Settings)
    (hs : z.settings = settings) :
    Life.Gap settings z.generation ⟨.resume (some (side, v.index)), false⟩ z.board.log
      (z.interlude side v.index ++ z.board.log) where
  latest := h.latest.symm
  posted p hp := by
    have hstopped : posted (z.phase.stopped v.index ++ z.board.log) = posted z.board.log := by
      cases z.phase <;> rfl
    have hpause :
      (posted ((z.settings.stopTimeout.map fun delay => Event.armed delay (z.generation + 1)).toList
        ++ .published (.paused z.phase) :: z.phase.stopped v.index ++ z.board.log)).count p
          = (posted z.board.log).count p := by
      rw [← hstopped]
      cases z.settings.stopTimeout with
      | none => rfl
      | some delay => exact List.count_cons_of_ne fun heq => by rw [← heq] at hp; cases hp
    have hcalled : posted (z.interlude side v.index ++ z.board.log)
        = ⟨.resume (some (side, v.index)), false⟩
          :: posted ((z.settings.stopTimeout.map fun delay =>
          Event.armed delay (z.generation + 1)).toList
            ++ .published (.paused z.phase) :: z.phase.stopped v.index ++ z.board.log) := by
      simp [interlude, posted, Event.posting?]
    rw [hcalled, List.count_cons, hpause, List.count_singleton]
  ended hlimited := by
    obtain ⟨delay, hdelay⟩ := Option.isSome_iff_exists.mp hlimited
    refine ⟨[.entered z.phase, .published .running, .scheduled (.resume (some (side, v.index)))],
      delay,
      .published (.paused z.phase) :: z.phase.stopped v.index ++ z.board.log, ?_,
      .published .running, by simp, Option.some_ne_none _⟩
    rw [interlude, hs, hdelay]
    rfl

end Turn.Severed

/-! ## The two runs -/

namespace Life

/-- **The life `l'` does what `l` does**: the same was logged since `older'` and `older`, but that
every time limit set since has a number more, and the streams are the same, but for the log and the
count of pauses. -/
structure Echoes (older older' : List (Event σ)) (l l' : Life σ) : Prop where
  log : ∃ later, l.log = later ++ older ∧ l'.log = later.map (Event.delayed 1) ++ older'
  stream : l'.stream = { l.stream with
    generation := l.stream.generation + 1, board := { l.stream.board with log := l'.log } }

theorem Lags.echoes {q : Posting} {older older' : List (Event σ)} {l l' : Life σ}
    (h : Lags q older older' l l') :
    Echoes older older' l l' := by
  obtain ⟨y, hl, hl'⟩ := h.stream
  refine ⟨⟨y.board.log, ?_, ?_⟩, ?_⟩
  · rw [Life.log, hl]
    rfl
  · rw [Life.log, hl']
    rfl
  · rw [Life.log, hl', hl, Stream.recast, Nat.add_comm]
    rfl

/-- The call of the filter that stopped the stream, through the handle it was given, and the job it
puts out. -/
def beckon (side : Side) (v : Chain.Visit (Seated σ) (Workbench σ)) : Deed σ ε :=
  .act side v.left.filter.filter v.left.filter.seat (.act .resume (.done ()))

/-- The job of that call. -/
def beckoning (side : Side) (i : Nat) : Posting := ⟨.resume (some (side, i)), false⟩

end Life

namespace Turn.Severed

variable {c₁ c : Surroundings σ ε} {k : Nat} {t : Turn σ ε} {side : Side}
  {v : Chain.Visit (Seated σ) (Workbench σ)}
  {z : Stream σ} {point : Option RequestPoint} {l : Life σ} {p : Posting} {env : ε}

theorem interlude_eq (h : t.Severed c₁ c k side v z point) (i : Nat) :
    z.interlude side i = t.stream.interlude side i := by
  rw [interlude, interlude, h.phase, h.settings, h.generation]

/-- **Once its call has had its way, the one run is a pause behind the other.** -/
theorem lags (h : t.Severed c₁ c k side v z point) (hreached : Reached none l) (hl : t.stream.Live)
    (ho : t.stream.board.owned = true) (hseat : v.left.filter.seat = v.index)
    (hstop : l.Turns (.run p c₁ env) c₁ k t) (hgo : l.Turns (.run p c env) c k t) :
    let stopped := l.next (.run p c₁ env)
    let called := stopped.next (beckon side v : Deed σ ε)
    stopped.stream = z.pausedAt v.index point ∧ called.Due (beckoning side v.index) ∧
      called.stream = (z.pausedAt v.index point).beckoned side v.index ∧
      Lags (beckoning side v.index) z.board.log (z.interlude side v.index ++ z.board.log)
        (l.next (.run p c env))
        (called.next (.run (beckoning side v.index) c t.env)) := by
  intro stopped called
  have hstopped : stopped = { l with stream := z.pausedAt v.index point, ran := p :: l.ran } := by
    refine (hstop.next_eq hreached).trans ?_
    rw [h.drive_stopped hl ho]
    rfl
  have hcalled : called = stopped.post (.resume (some (side, v.index))) :=
    show stopped.post (.resume (some (side, v.left.filter.seat))) = _ by rw [hseat]
  have hdue : called.Due (beckoning side v.index) := by
    rw [hcalled]
    exact (hreached.next_deed _).due_post nofun
  have hstream : called.stream = (z.pausedAt v.index point).beckoned side v.index := by
    rw [hcalled, hstopped]; rfl
  refine ⟨congrArg Life.stream hstopped, hdue, hstream, ?_⟩
  have hresumed : called.next (.run (beckoning side v.index) c t.env)
      = { called with
        stream := survive
          (Turn.drive c (v.index + 1)
            ⟨((z.pausedAt v.index point).beckoned side v.index).woken, t.env⟩).1
          (Turn.drive c (v.index + 1) ⟨((z.pausedAt v.index point).beckoned side v.index).woken,
            t.env⟩).2.stream
        ran := beckoning side v.index :: called.ran } := by
    rw [Life.next, if_pos hdue, hstream]
    rw [show Turn.exec c (beckoning side v.index).job _ = _ from h.opens.exec c t.env]
  obtain ⟨r, ⟨hpanic, hsame, -⟩, ⟨hpanic', hsame', -⟩⟩ := h.exists_same hl
  rw [hgo.next_eq hreached, hresumed]
  refine ⟨⟨survive r.1 r.2.stream, ?_, ?_⟩, fun p' _ => ?_⟩
  · dsimp only
    rw [hpanic, hsame, survive_recast, Stream.recast_zero]
  · dsimp only
    rw [hpanic', hsame', survive_recast]
  · rw [hcalled, hstopped]
    simp only [Life.post, become_ran]
    rw [List.count_cons, List.count_singleton]

end Turn.Severed

/-- **A stop that the filter takes back at once is as good as none.**  The surroundings `c₁` and `c`
make the same of a job up to one answer of one filter, which is to stop in `c₁` and to go on in `c`.
Then the job leaves the stream paused by that filter in `c₁`.  If the filter next calls for it to go
on, and the job of that call runs before anything else, then all is as in `c`: the same was logged
from the answer on, and the collaborators are left in the same state.  **Whatever happens from now
on, the two lives echo each other**: only the interlude was logged as well, and later time limits
have a number more.  Nothing that may happen in `c` is left out. -/
theorem stop_then_continue (id : StreamId) (settings : Settings) (deeds : List (Deed σ ε))
    {p : Posting} {c₁ c : Surroundings σ ε} {env : ε} {k : Nat} {t : Turn σ ε} {side : Side}
    {v : Chain.Visit (Seated σ) (Workbench σ)}
    (hstop : (after id settings deeds).Turns (.run p c₁ env) c₁ k t)
    (hgo : (after id settings deeds).Turns (.run p c env) c k t) (hcut : t.Cut c₁ c k side v) :
    let l := after id settings deeds
    let straight := l.next (.run p c env)
    let stopped := l.next (.run p c₁ env)
    let called := stopped.next (beckon side v : Deed σ ε)
    let resumed := called.next (.run (beckoning side v.index) c t.env)
    stopped.stream.pausedBy = some v.index ∧ called.Due (beckoning side v.index) ∧
      (Turn.exec c₁ p.job ⟨l.stream, env⟩).2.env = t.env ∧
      (Turn.exec c (beckoning side v.index).job ⟨called.stream, t.env⟩).2.env
        = (Turn.exec c p.job ⟨l.stream, env⟩).2.env ∧
      (∀ more : List (Deed σ ε), Echoes v.left.state.board.log
        (t.stream.interlude side v.index ++ v.left.state.board.log)
        ((more.filterMap (Deed.sooner t.stream.generation)).foldl next straight)
          (more.foldl next resumed)) ∧
      ∀ rest : List (Deed σ ε), ∃ more : List (Deed σ ε),
        more.filterMap (Deed.sooner t.stream.generation) = rest := by
  intro l straight stopped called resumed
  have hlived := lived_after id settings deeds
  have hkept := kept_after id settings deeds
  obtain ⟨hlive, ho, hb, hs, hplace⟩ := hgo.at_work hlived
  obtain ⟨z, point, hz⟩ := hcut.exists_severed ho hb hs
  obtain ⟨hstopped, hdue, hcalled, hlags⟩ :=
    hz.lags hlived.reached hlive ho (hcut.seat_eq hplace) hstop hgo
  have hgap := hz.gap settings (hz.settings.trans hgo.settings_eq)
  obtain ⟨r, ⟨-, -, henv⟩, ⟨-, -, henv'⟩⟩ := hz.exists_same hlive
  rw [hz.generation, hz.interlude_eq, hz.board] at hgap
  rw [hz.interlude_eq, hz.board] at hlags
  refine ⟨?_, hdue, ?_, ?_, fun more => ?_, Deed.exists_filterMap_sooner _⟩
  · rw [hstopped]
    exact (pausedAt_keeps hz.unclaimed v.index point).1
  · rw [(hstop.exec_eq hlived.reached).2, hz.drive_stopped hlive ho]
  · rw [hcalled, show Turn.exec c (beckoning side v.index).job _ = _ from hz.opens.exec c t.env,
      (hgo.exec_eq hlived.reached).2]
    exact henv'.symm.trans henv
  · exact (hlags.foldl hgap more (hkept.next _) (((hkept.next _).next _).next _)).echoes

/-- Filters that are `true` answer `verdict`, the others let the stream go on. -/
def answeringWith (verdict : Verdict) : Behaviour Bool where
  onRequest f _ parts := .done ⟨f, parts, .ok (if f then verdict else .proceed)⟩
  onResponse f _ parts := .done ⟨f, parts, .ok (if f then verdict else .proceed)⟩
  onDestroy f _ := .done { filter := f }

/-- A request waits for a stream with three filters. -/
def awaited : List (Deed Bool Unit) :=
  ([false, true, false].map fun f => .add (answeringWith .proceed) (.request f .beforeRoute))
    ++ [.receive {}]

/-- The stream comes to its first filters. -/
def consulting : Turn Bool Unit :=
  (⟨{ (after ⟨1⟩ {} awaited).stream with request := {} }.entered, ()⟩ :
    Turn Bool Unit).advance .init

/-- The call of the second filter, which stops the stream. -/
def consultation : Chain.Visit (Seated Bool) (Workbench Bool) :=
  let bench :=
    ⟨{ consulting.stream.entered.board with point := some .beforeRoute },
      consulting.stream.request.parts⟩
  let w := (callRequest (answeringWith .stop) 0 ⟨false, 0⟩ bench).state
  ⟨1, ⟨true, 1⟩, w, callRequest (answeringWith .stop) 1 ⟨true, 1⟩ w⟩

/-- Whatever its filters do, the stream comes there. -/
theorem turns_consulting (β : Behaviour Bool) :
    (after ⟨1⟩ {} awaited).Turns (.run ⟨.receive {}, false⟩ (.secluded β) ())
    (.secluded β) 0 consulting := by
  have hstart : Turn.Stride (.secluded β)
      (0, ⟨{ (after ⟨1⟩ {} awaited).stream with request := {} }, ()⟩) (0, consulting) :=
    .next ⟨rfl, by decide +kernel⟩ rfl
  exact .intro (by decide +kernel) (.receive rfl rfl) (.single hstart) ⟨rfl, by decide +kernel⟩

theorem cut_consulting : consulting.Cut (.secluded (answeringWith .stop))
    (.secluded (answeringWith .proceed)) 0
    .request consultation := by
  have hphase : consulting.stream.phase = RequestPoint.beforeRoute.phase := rfl
  refine .request hphase (show _ = [⟨0, ⟨false, 0⟩, _, _⟩] ++ [consultation] from rfl) ?_ rfl rfl
  exact
    { alike := List.forall_mem_singleton.mpr rfl
      wishless := List.forall_mem_singleton.mpr rfl
      stop := rfl
      go := rfl
      convert_stop := rfl
      convert_proceed := rfl }

/-- The stream that was stopped on the way finds no route in the end, like the other one. -/
theorem stop_then_continue_consulting :
    let l := after ⟨1⟩ {} awaited
    let going : Surroundings Bool Unit := .secluded (answeringWith .proceed)
    let stopped := l.next (.run ⟨.receive {}, false⟩ (.secluded (answeringWith .stop)) ())
    let resumed := (stopped.next (beckon .request consultation : Deed Bool Unit)).next
      (.run (beckoning .request 1) going ())
    l.Turns (.run ⟨.receive {}, false⟩ going ()) going 0 consulting ∧
      consulting.Cut (.secluded (answeringWith .stop)) going 0 .request consultation ∧
      stopped.stream.pausedBy = some 1 ∧ resumed.stream.board.status = .finished .noRoute := by
  obtain ⟨hpaused, -, -, -, hechoes, -⟩ :=
    stop_then_continue ⟨1⟩ {} awaited (turns_consulting _) (turns_consulting _) cut_consulting
  refine ⟨turns_consulting _, cut_consulting, hpaused, ?_⟩
  refine (congrArg (fun s : Stream Bool => s.board.status) (hechoes []).stream).trans ?_
  decide +kernel

end FilterProxy

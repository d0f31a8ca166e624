import FilterProxy.Proofs.Accounts
import FilterProxy.Proofs.Journey
import FilterProxy.Proofs.Rest

/-!
# Proofs/Conduct — what a proxy of configured filters does with a request

Every stream of such a proxy has the filters of the configuration, in its order, and nobody keeps a
handle of theirs.  So its life goes from stage to stage (`Plan.Stage`): the request is to come, the
host is to answer, or nothing drives the stream any more.  **The stage tells what was done**
(`Plan.Stage.conducts`).
-/

namespace FilterProxy

variable {σ ε : Type}

open Board FilterProxy.Stream Life

/-! ## Deeds that leave the filters alone -/

/-- Something is done to the stream beside its jobs, and not through a handle of its filters. -/
inductive Deed.Nudges : Deed Builtin ε → Prop
  | receive (m) : Nudges (.receive m)
  | resume : Nudges .resume
  | terminate (ending) : Nudges (.terminate ending)
  | answer (x) : Nudges (.answer x)
  | direct (c message convert) (hβ : c.behaviour = Builtin.behaviour) :
      Nudges (.direct c message convert)

/-- The filters are left as they are configured. -/
inductive Deed.Plain : Deed Builtin ε → Prop
  | nudge {d} (h : d.Nudges) : Plain d
  | run (p c env) (hβ : c.behaviour = Builtin.behaviour) : Plain (.run p c env)

namespace Turn.Drives

variable {c : Surroundings σ ε} {x : Nat × Turn σ ε} {r r' : Option Panic × Turn σ ε}

/-- **There is one way for a drive to end.** -/
theorem unique (h : Drives c x r) (h' : Drives c x r') : r = r' := by
  obtain ⟨z, hz, hstop⟩ := h'
  exact (h.of_strides hz).eq_of_stops hstop

end Turn.Drives

namespace Stream.Spent

variable {es : List (Event σ)} {is : List Nat} {s : Stream σ}

/-- A spent stream stays spent, whatever is done to its board from outside. -/
theorem outside (h : s.Spent es is) {b : Board σ} {new : List (Event σ)} (hm : Moves s.board b)
    (hlog : b.log = new ++ s.board.log) (hnew : ∀ e ∈ new, e.isOutside = true) :
    ({ s with board := b } : Stream σ).Spent es is where
  pausedBy := h.pausedBy
  idle := h.idle.imp_left hm.claimed
  tells := by
    rw [hlog]
    exact h.tells.outside hnew

theorem survive (h : s.Spent es is) (panic : Option Panic) :
    (Life.survive panic s).Spent es is := by
  cases panic with
  | none => exact h
  | some p => exact ⟨h.pausedBy, h.idle, h.tells.note rfl rfl⟩

/-- **No job but the release changes a spent stream.** -/
theorem exec (h : s.Spent es is) (c : Surroundings σ ε) (env : ε) {job : Job}
    (hj : ∀ ending, job ≠ .release ending) : Turn.exec c job ⟨s, env⟩ = (none, ⟨s, env⟩) :=
  Left.exec ⟨h.pausedBy, h.idle⟩ c env hj

/-- The release leaves it spent. -/
theorem release (h : s.Spent es is) (β : Behaviour σ) (ending : Ending) (ho : s.board.owned = true)
    (hc : s.board.claimed = true) : (s.release β ending).2.Spent es is where
  pausedBy := by rw [release_eq]; rfl
  idle := .inl (claimed_release β ending ho hc)
  tells := by
    obtain ⟨new, hlog, hnew⟩ := release_log β ending s ho
    rw [hlog]
    exact h.tells.ending hnew

end Stream.Spent

/-! ## Stages of a life -/

/-- **A filter that is added** does nothing, and belongs to the plan. -/
theorem Plan.Follows.addFilter {plan : Plan} {s : Stream Builtin} {es : List (Event Builtin)}
    {is : List Nat} (h : plan.Follows es is s) (r : Registration Builtin) :
    Plan.Follows (plan ++ [r]) es is (s.addFilter Builtin.behaviour r) := by
  have hadded : s.addFilter Builtin.behaviour r
      = (s.note (.added r.side (s.filters.size r.side) r.filter)).enlist r := by
    cases r <;> rfl
  obtain ⟨hrequests, hresponses⟩ := s.filters.unseated_enlist r
  rw [hadded]
  exact { h.note rfl rfl with
    requests := by
      rw [Plan.requests, List.filterMap_append]; exact hrequests.trans
        (congrArg (· ++ _) h.requests)
    responses := by
      rw [Plan.responses, List.filterMap_append]; exact hresponses.trans
        (congrArg (· ++ _) h.responses) }

/-- A panic that escapes from a job leaves the stream where it is. -/
theorem Plan.Follows.survive {plan : Plan} {s : Stream Builtin} {es : List (Event Builtin)}
    {is : List Nat}
    (h : plan.Follows es is s) (panic : Option Panic) :
      plan.Follows es is (Life.survive panic s) := by
  cases panic with
  | none => exact h
  | some p => exact h.note rfl rfl

/-- **A direct run leaves a stream on its way**, unless a converter breaks it off. -/
theorem Plan.Follows.direct {plan : Plan} {s : Stream Builtin} {es : List (Event Builtin)}
    {is : List Nat} (h : plan.Follows es is s) (message : Message) (convert : Converter) :
    let s' := (s.runResponseFilters Builtin.behaviour .beforeSend message convert).2
    plan.Follows es is s' ∧ s'.phase = s.phase ∨ s'.board.claimed = true ∧ s'.Spent es is := by
  obtain ⟨result, new, parts, hpass, hnew, -⟩ := passResponses_eq (s := s.filters)
    (w := ⟨s.board, message.parts⟩)
    convert h.responses h.replaced
  rw [runResponseFilters_eq _ _ _ hpass]
  let s' : Stream Builtin :=
    { s with board := { s.board with log := new ++ s.board.log }, response := parts.message }
  have hfollows : plan.Follows es is s' := { h with tells := h.tells.quiet hnew }
  dsimp only
  split
  case h_1 cause =>
    exact .inr (spent_abort (s := s') Builtin.behaviour cause h.owned h.pausedBy hfollows.tells)
  case h_2 => exact .inl ⟨hfollows, rfl⟩

/-- A stream that follows the plan still does after a nudge, unless that ends it. -/
theorem Plan.Follows.nudge {plan : Plan} {l : Life Builtin} {es : List (Event Builtin)}
    {is : List Nat} (h : plan.Follows es is l.stream) {d : Deed Builtin ε} (hd : d.Nudges) :
    plan.Follows es is (l.next d).stream ∧ (l.next d).stream.phase = l.stream.phase ∨
      (l.next d).stream.board.claimed = true ∧ (l.next d).stream.Spent es is := by
  have posted (job : Job) : plan.Follows es is (l.post job).stream ∧ (l.post job).stream.phase
    = l.stream.phase := by
    rw [Life.post, schedule_of_owned h.owned]
    exact ⟨h.note rfl rfl, rfl⟩
  cases hd with
  | receive m => exact .inl (posted (.receive m))
  | resume => exact .inl (posted (.resume none))
  | terminate ending => exact .inr (h.terminate ending)
  | answer x => exact h.answer x
  | direct c message convert hβ =>
    rw [Life.next, hβ]
    exact h.direct message convert

/-- A spent stream stays spent. -/
theorem Stream.Spent.nudge {l : Life Builtin} {es : List (Event Builtin)} {is : List Nat}
    (h : l.stream.Spent es is) (hr : Reached none l) {d : Deed Builtin ε} (hd : d.Nudges) :
    (l.next d).stream.Spent es is ∧
    (l.stream.board.claimed = true → (l.next d).stream.board.claimed = true) := by
  have ho := hr.orderly.books.owned
  have hyields := hr.yields_next d
  generalize l.next d = l' at hyields
  have passed {r : SetPassed Builtin} {new is'} (m : Message)
      (hp : FilterSet.ResponsePass .beforeSend 0 l.stream.filters l.stream.board r new is') :
      (l.directly r m is').stream.Spent es is := by
    refine ⟨h.pausedBy, h.idle.imp_left hp.moves.claimed, ?_⟩
    rw [show (l.directly r m is').stream.board.log = _ from hp.log]
    exact h.tells.quiet fun e he =>
      ⟨Event.call?_of_pass (by decide) (hp.kinds e he), Event.isOutward_of_pass (hp.kinds e he)⟩
  cases hyields with
  | board new _ hm hlog hnew => exact ⟨h.outside hm hlog hnew, hm.claimed⟩
  | direct m hp => exact ⟨passed m hp, hp.moves.claimed⟩
  | @abort c _ _ _ _ _ m cause hp =>
    have hpassed := passed m hp
    obtain ⟨hc, hs⟩ := spent_abort c.behaviour cause (hp.moves.owned.trans ho) hpassed.pausedBy
      hpassed.tells
    exact ⟨hs, fun _ => hc⟩
  | _ => cases hd

/-- **Where a life stands** whose stream follows the plan. -/
inductive Plan.Stage (plan : Plan) (l : Life Builtin) : Prop
  /-- A request is to come. -/
  | fresh (h : plan.Follows [] [] l.stream) (hp : l.stream.phase = .init)
  /-- The stream was ended before. -/
  | ended (h : l.stream.Spent [] []) (hc : l.stream.board.claimed = true)
  /-- The host's answer is awaited. -/
  | awaits {m es is} (hm : .scheduled (.receive m) ∈ l.log) (hj : plan.Journey none .taken m es is)
      (hnext : ∀ y ans, plan.Journey (some y) .taken m (es ++ [.written (plan.sent y) ans]) is)
      (h : plan.Follows es is l.stream) (hp : l.stream.phase = .awaitResponse)
  | finished {heard m es is} (hm : .scheduled (.receive m) ∈ l.log)
      (hheard : ∀ y ∈ heard, .scheduled (.response y) ∈ l.log)
        (hj : plan.Journey heard .taken m es is)
      (h : l.stream.Spent es is)

namespace Plan.Stage

variable {plan : Plan} {l : Life Builtin}

theorem nudge (h : plan.Stage l) (hr : Reached none l) {d : Deed Builtin ε} (hd : d.Nudges) :
    plan.Stage (l.next d) := by
  have hsuffix {e : Event Builtin} (he : e ∈ l.log) : e ∈ (l.next d).log :=
    (hr.suffix_next d).subset he
  cases h with
  | fresh h hp =>
    rcases h.nudge hd with ⟨h', hp'⟩ | ⟨hc, h'⟩
    · exact .fresh h' (hp'.trans hp)
    · exact .ended h' hc
  | ended h hc =>
    obtain ⟨h', hc'⟩ := h.nudge hr hd
    exact .ended h' (hc' hc)
  | awaits hm hj hnext h hp =>
    rcases h.nudge hd with ⟨h', hp'⟩ | ⟨hc, h'⟩
    · exact .awaits (hsuffix hm) hj hnext h' (hp'.trans hp)
    · exact .finished (hsuffix hm) (by simp) hj h'
  | finished hm hheard hj h =>
    exact .finished (hsuffix hm) (fun y hy => hsuffix (hheard y hy)) hj (h.nudge hr hd).1

/-- A job that is run on a spent stream. -/
theorem run_spent {es : List (Event Builtin)} {is : List Nat} (h : l.stream.Spent es is)
    (hr : Reached none l) (p : Posting) (c : Surroundings Builtin ε) (env : ε) :
    (l.next (.run p c env)).stream.Spent es is ∧
      (l.stream.board.claimed = true → (l.next (.run p c env)).stream.board.claimed = true) := by
  rw [Life.next]
  split
  case isFalse => exact ⟨h, id⟩
  case isTrue hp =>
    by_cases hj : ∃ ending, p.job = .release ending
    · obtain ⟨ending, hj⟩ := hj
      have hcondemned := hr.orderly.condemned_due hp hj
      have hspent := h.release c.behaviour ending hcondemned.books.owned hcondemned.claimed
      have hclaimed := claimed_release c.behaviour ending hcondemned.books.owned hcondemned.claimed
      rw [hj]
      exact ⟨hspent.survive _, fun _ => (Reached.claimed_survive _ _).trans hclaimed⟩
    · rw [h.exec c env fun ending he => hj ⟨ending, he⟩]
      exact ⟨h, id⟩

/-- **What a job comes to** on a stream that follows the plan: it takes in the request or the host's
answer that was waited for, or is nothing. -/
theorem exec_of_follows {es : List (Event Builtin)} {is : List Nat}
    (h : plan.Follows es is l.stream)
    (hr : Reached none l) {p : Posting} (hp : l.Due p) (c : Surroundings Builtin ε) (env : ε) :
    Turn.exec c p.job ⟨l.stream, env⟩ = (none, ⟨l.stream, env⟩) ∨
      (∃ m, p.job = .receive m ∧ l.stream.phase = .init ∧
        Turn.exec c p.job ⟨l.stream, env⟩ = Turn.drive c 0 ⟨{ l.stream with request := m }, env⟩) ∨
      ∃ m, p.job = .response m ∧ l.stream.phase = .awaitResponse ∧
        Turn.exec c p.job ⟨l.stream, env⟩ = Turn.drive c 0 ⟨l.stream.responded m, env⟩ := by
  have hran := Turn.ran_exec c ⟨l.stream, env⟩ p.job
  generalize Turn.exec c p.job ⟨l.stream, env⟩ = r at hran ⊢
  generalize hj : p.job = job at hran ⊢
  have hawake {i : Nat} (hi : l.stream.pausedBy = some i) : False := by
    rw [h.pausedBy] at hi; cases hi
  cases hran with
  | idle => exact .inl rfl
  | drive ho =>
    cases ho with
    | @receive m _ hphase => exact .inr (.inl ⟨m, rfl, hphase, rfl⟩)
    | resume _ hi => exact (hawake hi).elim
    | reroute _ hi => exact (hawake hi).elim
    | @response m _ hphase => exact .inr (.inr ⟨m, rfl, hphase, rfl⟩)
  | timeout hi => exact (hawake hi).elim
  | release ending =>
    have hcondemned := hr.orderly.condemned_due hp hj
    exact absurd (h.unclaimed.symm.trans hcondemned.claimed) nofun

section

variable (hr : Reached none l) (p : Posting) {c : Surroundings Builtin ε} (env : ε)
  (hβ : c.behaviour = Builtin.behaviour)
include hr hβ

/-- A job that is run before the request came takes it in, or is nothing… -/
theorem run_fresh (h : plan.Follows [] [] l.stream) (hphase : l.stream.phase = .init) :
    plan.Stage (l.next (.run p c env)) := by
  by_cases hp : l.Due p
  case neg => rw [Life.next, if_neg hp]; exact .fresh h hphase
  rcases exec_of_follows h hr hp c env with hexec | ⟨m, hj, -, hexec⟩ | ⟨m, -, hphase', -⟩
  · rw [Life.next, if_pos hp, hexec]
    exact .fresh h hphase
  · obtain ⟨r, hdrives, hfares⟩ := receive_drives (c := c)
      (t := ⟨{ l.stream with request := m }, env⟩) (m := m) hβ
      { h with } hphase rfl
    have hm : .scheduled (.receive m) ∈ (l.next (.run p c env)).log :=
      (hr.suffix_next _).subset (mem_of_posted hp.mem_posted hj (by simp))
    have hnext : (l.next (.run p c env)).stream = survive r.1 r.2.stream := by
      rw [Life.next, if_pos hp, hexec, (Turn.drives_drive c 0 _ h.owned).unique hdrives]
    cases hfares with
    | spent hj hspent => exact .finished hm (by simp) hj (hnext ▸ hspent.survive _)
    | awaits hj hanswer hfollows hwaits =>
      exact .awaits hm hj hanswer (hnext ▸ hfollows.survive _)
        (by rw [hnext, Reached.phase_survive, hwaits])
  · rw [hphase] at hphase'
    cases hphase'

/-- …and one that is run while the host is to answer takes the answer in, or is nothing. -/
theorem run_awaits {m : Message} {es : List (Event Builtin)} {is : List Nat}
    (hm : .scheduled (.receive m) ∈ l.log) (hj : plan.Journey none .taken m es is)
    (hnext : ∀ y ans, plan.Journey (some y) .taken m (es ++ [.written (plan.sent y) ans]) is)
    (h : plan.Follows es is l.stream) (hphase : l.stream.phase = .awaitResponse) :
    plan.Stage (l.next (.run p c env)) := by
  by_cases hp : l.Due p
  case neg => rw [Life.next, if_neg hp]; exact .awaits hm hj hnext h hphase
  have hsuffix := (hr.suffix_next (.run p c env)).subset
  rcases exec_of_follows h hr hp c env with hexec | ⟨m, -, hphase', -⟩ | ⟨y, hjob, -, hexec⟩
  · rw [Life.next, if_pos hp, hexec]
    exact .awaits hm hj hnext h hphase
  · rw [hphase] at hphase'
    cases hphase'
  · have hlast : ¬ Phase.filterResponse < .filterResponse := by decide
    have hfollows : plan.Follows es is (l.stream.responded y) :=
      { h.note rfl rfl with reply := rfl, opened := fun hlt => absurd hlt hlast }
    obtain ⟨r, ans, hdrives, hspent⟩ :=
      answer_drives (c := c) (t := ⟨l.stream.responded y, env⟩) hβ hfollows rfl
    have hresponse : (l.stream.responded y).response = y := congrArg (·.getD y) h.reply
    rw [hresponse] at hspent
    have hanswered : (l.next (.run p c env)).stream = survive r.1 r.2.stream := by
      rw [Life.next, if_pos hp, hexec, (Turn.drives_drive c 0 _ hfollows.owned).unique hdrives]
    refine .finished (hsuffix hm) ?_ (hnext y ans) (hanswered ▸ hspent.survive _)
    intro y' hy
    obtain rfl := Option.some.inj hy
    exact hsuffix (mem_of_posted hp.mem_posted hjob (by simp))

/-- **A job that is run** leads the request on its way, or is nothing. -/
theorem run (h : plan.Stage l) : plan.Stage (l.next (.run p c env)) := by
  cases h with
  | fresh h hphase => exact run_fresh hr p env hβ h hphase
  | ended h hc =>
    obtain ⟨h', hc'⟩ := run_spent h hr p c env
    exact .ended h' (hc' hc)
  | awaits hm hj hnext h hphase => exact run_awaits hr p env hβ hm hj hnext h hphase
  | finished hm hheard hj h =>
    have hsuffix := (hr.suffix_next (.run p c env)).subset
    exact .finished (hsuffix hm) (fun y hy => hsuffix (hheard y hy)) hj (run_spent h hr p c env).1

end

/-- **Plain deeds** lead a life from stage to stage. -/
theorem foldl (h : plan.Stage l) (hr : Reached none l) {deeds : List (Deed Builtin ε)}
    (hd : ∀ d ∈ deeds, d.Plain) : plan.Stage (deeds.foldl Life.next l) := by
  induction deeds generalizing l with
  | nil => exact h
  | cons d rest ih =>
    refine ih ?_ (hr.next_deed d) fun d' hd' => hd d' (List.mem_cons_of_mem _ hd')
    cases hd d List.mem_cons_self with
    | nudge hd => exact h.nudge hr hd
    | run p c env hβ => exact run hr p env hβ h

/-- A stream with the filters of the plan: none of them does anything as it is given its handle. -/
theorem begin (plan : Plan) (id : StreamId) {settings : Settings} (hs : settings.convert = .keep) :
    plan.Stage (Life.after id settings (plan.map (Deed.add Builtin.behaviour) :
      List (Deed Builtin ε))) := by
  have added : plan.Follows [] []
    (plan.foldl (Stream.addFilter Builtin.behaviour) (Stream.create id settings)) ∧
      (plan.foldl (Stream.addFilter Builtin.behaviour) (Stream.create id settings)).phase
        = .init := by
    induction plan using List.reverseRecOn with
    | nil => exact ⟨⟨rfl, rfl, hs, rfl, rfl, rfl, rfl, rfl, fun _ => rfl, rfl, rfl⟩, rfl⟩
    | append_singleton plan r ih =>
      rw [List.foldl_append]
      exact ⟨ih.1.addFilter r, ih.2⟩
  rw [Life.after, Life.foldl_add]
  exact .fresh added.1 added.2

end Plan.Stage

/-! ## Conduct -/

/-- Nobody ended the stream, and none of its jobs broke off. -/
structure Share.Hale (s : Share σ) : Prop where
  unclaimed : claims s.record = []
  whole : ∀ e ∈ s.record, e.isEscape = false

/-- **How a stream of configured filters conducts itself**, told by what is held of it. -/
inductive Plan.Conducts (plan : Plan) (s : Share Builtin) : Prop
  /-- Nobody was called, and any request waits to be taken in, unless the stream was ended. -/
  | idle (h : Tells s.record [] [])
      (hw : s.Hale → ∀ m, .scheduled (.receive m) ∈ s.record → .receive m ∈ s.jobs)
  /-- A request went its way to the host, who is to answer. -/
  | awaits {m es is} (hm : .scheduled (.receive m) ∈ s.record) (h : Tells s.record es is)
      (hj : plan.Journey none .taken m es is)
      (hnext : ∀ y ans, plan.Journey (some y) .taken m (es ++ [.written (plan.sent y) ans]) is)
      (hw : ∃ x, s.member = some x ∧ x.stream.phase = .awaitResponse)
  /-- A request went its way, and that is over: the stream was ended, or the job broke off. -/
  | finished {heard m es is} (hm : .scheduled (.receive m) ∈ s.record)
      (hheard : ∀ y ∈ heard, .scheduled (.response y) ∈ s.record) (h : Tells s.record es is)
      (hj : plan.Journey heard .taken m es is) (hw : ¬ s.Hale)

namespace Share.Lives

variable {s : Share σ} {l : Life σ}

/-- A hale share is that of a hale life. -/
theorem hale (h : s.Lives l) (hr : Reached none l) (hs : s.Hale) : l.Hale := by
  obtain ⟨m, hm, -, -⟩ := h.member
  exact ⟨(h.claimed hm).trans ((h.claims_eq_nil hr hm).mp hs.unclaimed), fun e he =>
    hs.whole e (h.log ▸ he)⟩

/-- A job that was put out and not run waits. -/
theorem waits (h : s.Lives l) {m : Message} (hm : .scheduled (.receive m) ∈ s.record)
    (hran : ∀ p ∈ l.ran, p.job ≠ .receive m) : .receive m ∈ s.jobs := by
  have hput : Job.receive m ∈ s.record.filterMap Event.job? := List.mem_filterMap.mpr ⟨_, hm, rfl⟩
  have hkept := h.ledger.mem_iff.mpr hput
  simp only [List.mem_append, List.mem_map] at hkept
  rcases hkept with (hjob | ⟨t, -, ht⟩) | ⟨p, hp, hjob⟩
  · exact hjob
  · cases ht
  · exact absurd hjob (hran p hp)

end Share.Lives

/-- **The stage of a life tells the conduct of its share.** -/
theorem Plan.Stage.conducts {plan : Plan} {s : Share Builtin} {l : Life Builtin} (h : plan.Stage l)
    (hl : s.Lives l) {settings : Settings} {Answers : Handover → Prop}
    (hlived : Lived settings Answers none l) :
    plan.Conducts s := by
  have hr := hlived.reached
  have hlog : l.stream.board.log = s.record := hl.log
  have stands (hs : s.Hale) (hp : l.stream.pausedBy = none) :
      l.stream.phase = .init ∧ (∀ p ∈ l.ran, ∀ m, p.job ≠ .receive m) ∨
        l.stream.phase = .awaitResponse := by
    rcases hlived.stands (hl.hale hr hs) with h | ⟨i, h⟩ | h
    · exact .inl ⟨h.phase, h.received⟩
    · cases h.pausedBy.symm.trans hp
    · exact .inr h.phase
  cases h with
  | fresh h hp =>
    refine .idle (hlog ▸ h.tells) fun hs m hm => ?_
    rcases stands hs h.pausedBy with ⟨-, hran⟩ | hp'
    · exact hl.waits hm fun p hp => hran p hp m
    · cases hp.symm.trans hp'
  | ended h hc => exact .idle (hlog ▸ h.tells) fun hs => ((hl.hale hr hs).not_claimed hc).elim
  | awaits hm hj hnext h hp =>
    obtain ⟨x, hx, -, hstream⟩ := hl.member
    refine .awaits (hl.log ▸ hm) (hlog ▸ h.tells) hj hnext ⟨x, hx, ?_⟩
    rw [hstream] at hp
    exact hp
  | finished hm hheard hj h =>
    refine .finished (hl.log ▸ hm) (hl.log ▸ hheard) (hlog ▸ h.tells) hj fun hs => ?_
    rcases h.idle with hc | ⟨hinit, hawait⟩
    · exact (hl.hale hr hs).not_claimed hc
    · rcases stands hs h.pausedBy with ⟨hp, -⟩ | hp
      · exact hinit hp
      · exact hawait hp

end FilterProxy

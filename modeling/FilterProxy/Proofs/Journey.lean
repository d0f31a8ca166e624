import FilterProxy.Proofs.Plan
import FilterProxy.Proofs.Shortfall

/-!
# Proofs/Journey — the way of a request through configured filters

A request comes to three stations: it is taken in, it is routed, it has a host.  At each the filters
of one point are called, and then a collaborator is, unless a filter answered by itself
(`Plan.Journey`).  **A stream that takes a request in leads it on that way**
(`Plan.receive_drives`), phase by phase.
-/

namespace FilterProxy

variable {σ ε : Type}

open FilterSet FilterProxy.Stream

/-! ## What a log tells -/

theorem Event.isOutward_of_isEnding {e : Event σ} (h : e.isEnding = true) :
    e.isOutward = false := by
  cases e <;> first | rfl | cases h

/-- The calls of collaborators, oldest first. -/
def outward (log : List (Event σ)) : List (Event σ) := (log.filter Event.isOutward).reverse

/-- The calls of collaborators on a log and the positions of the request filters called, oldest
first. -/
structure Tells (log es : List (Event σ)) (is : List Nat) : Prop where
  outward : outward log = es
  calls : (calls .request log).reverse = is

namespace Tells

variable {log new es : List (Event σ)} {is js : List Nat} {e : Event σ}

/-- Filters were called and no collaborator. -/
theorem append (h : Tells log es is) (hc : FilterProxy.calls .request new = js.reverse)
    (hnew : ∀ e ∈ new, e.isOutward = false) : Tells (new ++ log) es (is ++ js) where
  outward := by
    rw [FilterProxy.outward, List.filter_append,
      List.filter_eq_nil_iff.mpr fun e he => by simp [hnew e he]]
    exact h.outward
  calls := by
    rw [FilterProxy.calls, List.filterMap_append, show new.filterMap _ = _ from hc,
      List.reverse_append, List.reverse_reverse, show (log.filterMap _).reverse = _ from h.calls]

/-- Nobody was called. -/
theorem quiet (h : Tells log es is)
    (hnew : ∀ e ∈ new, e.call? .request = none ∧ e.isOutward = false) :
    Tells (new ++ log) es is := by
  have hc : FilterProxy.calls .request new = [].reverse :=
    List.filterMap_eq_nil_iff.mpr fun e he => (hnew e he).1
  simpa using h.append hc fun e he => (hnew e he).2

theorem note (h : Tells log es is) (hc : e.call? .request = none) (ho : e.isOutward = false) :
    Tells (e :: log) es is := by
  have hnew : ∀ x ∈ [e], x.call? .request = none ∧ x.isOutward = false := by simp [hc, ho]
  exact h.quiet hnew

/-- The stream is ended… -/
theorem ending (h : Tells log es is) (hnew : ∀ e ∈ new, e.isEnding = true) :
    Tells (new ++ log) es is :=
  h.quiet fun e he =>
    ⟨Event.call?_of_isEnding _ (hnew e he), Event.isOutward_of_isEnding (hnew e he)⟩

/-- …or something comes from outside of its phases. -/
theorem outside (h : Tells log es is) (hnew : ∀ e ∈ new, e.isOutside = true) :
    Tells (new ++ log) es is :=
  h.quiet fun e he =>
    ⟨Event.call?_of_isOutside _ (hnew e he), Event.isOutward_of_isOutside (hnew e he)⟩

/-- A collaborator was called. -/
theorem call (h : Tells log es is) (hc : e.call? .request = none) (ho : e.isOutward = true) :
    Tells (e :: log) (es ++ [e]) is where
  outward := by
    rw [FilterProxy.outward, List.filter_cons_of_pos ho, List.reverse_cons]
    exact congrArg (· ++ [e]) h.outward
  calls := by
    rw [calls_cons, hc]
    exact h.calls

end Tells

/-! ## The journey -/

/-- How far a request has come. -/
inductive Station where
  | taken
  | routed (route : Route)
  | hosted (host : Host)

namespace Station

/-- The point whose filters are called there. -/
def point : Station → RequestPoint
  | taken => .beforeRoute
  | routed _ => .afterRoute
  | hosted _ => .afterHost

/-- The stream knows the route or the host. -/
def Known (s : Stream σ) : Station → Prop
  | taken => True
  | routed route => s.board.route = some route
  | hosted host => s.host = some host

end Station

/-- **The way of a request** `m` from a station on: the calls of collaborators, and the positions of
the request filters that are called.  What the host answered, if it was heard, comes first. -/
inductive Plan.Journey (plan : Plan) : Option Message → Station → Message → List (Event Builtin) →
    List Nat → Prop
  /-- A filter answers by itself: the client gets its reply, and nothing else is called. -/
  | answered {x m reply ans} (h : plan.direct? x.point = some reply) :
      Journey plan none x m [.written (plan.sent reply) ans] (plan.called x.point)
  /-- There is no route. -/
  | astray {m ans} (h : plan.direct? .beforeRoute = none) (ha : ∀ route, ans ≠ .ok (some route)) :
      Journey plan none .taken m [.routed (plan.dressed .beforeRoute m).parts.headers ans]
        (plan.called .beforeRoute)
  | routed {heard m route es is} (h : plan.direct? .beforeRoute = none)
      (rest : Journey plan heard (.routed route) (plan.dressed .beforeRoute m) es is) :
      Journey plan heard .taken m
        (.routed (plan.dressed .beforeRoute m).parts.headers (.ok (some route)) :: es)
        (plan.called .beforeRoute ++ is)
  /-- There is no host. -/
  | refused {m route ans} (h : plan.direct? .afterRoute = none)
      (ha : ∀ host, ans ≠ .ok (.ok host)) :
      Journey plan none (.routed route) m
        [.chosen route (plan.dressed .afterRoute m).parts.headers ans]
        (plan.called .afterRoute)
  | chosen {heard m route host es is} (h : plan.direct? .afterRoute = none)
      (rest : Journey plan heard (.hosted host) (plan.dressed .afterRoute m) es is) :
      Journey plan heard (.routed route) m
        (.chosen route (plan.dressed .afterRoute m).parts.headers (.ok (.ok host)) :: es)
        (plan.called .afterRoute ++ is)
  /-- The host is handed the request… -/
  | forwarded {m host x} (h : plan.direct? .afterHost = none) :
      Journey plan none (.hosted host) m [.forwarded host (plan.dressed .afterHost m) x]
        (plan.called .afterHost)
  /-- …and the client gets what it answers. -/
  | served {m host x response ans} (h : plan.direct? .afterHost = none) :
      Journey plan (some response) (.hosted host) m
        [.forwarded host (plan.dressed .afterHost m) x, .written (plan.sent response) ans]
        (plan.called .afterHost)

/-! ## Streams under way -/

/-- **A stream follows the plan**: it has its filters, nobody has claimed it, and nothing is left on
its board that could interfere. -/
structure Plan.Follows (plan : Plan) (es : List (Event Builtin)) (is : List Nat)
    (s : Stream Builtin) : Prop where
  requests : s.filters.requests.unseated = plan.requests
  responses : s.filters.responses.unseated = plan.responses
  convert : s.settings.convert = .keep
  owned : s.board.owned = true
  unclaimed : s.board.claimed = false
  reply : s.board.reply = none
  replaced : s.board.replaced = {}
  pausedBy : s.pausedBy = none
  opened : s.phase < .filterResponse → s.board.closed = false
  tells : Tells s.board.log es is

/-- **No job drives the stream any more.** -/
structure Stream.Spent (es : List (Event σ)) (is : List Nat) (s : Stream σ) : Prop where
  pausedBy : s.pausedBy = none
  idle : s.board.claimed = true ∨ s.phase ≠ .init ∧ s.phase ≠ .awaitResponse
  tells : Tells s.board.log es is

/-- **How a request fared** that came to a station with the stream's log so far. -/
inductive Plan.Fares (plan : Plan) (x : Station) (m : Message) (es : List (Event Builtin))
    (is : List Nat) (s : Stream Builtin) : Prop
  | spent {es' is'} (hj : plan.Journey none x m es' is') (h : s.Spent (es ++ es') (is ++ is')) :
      Fares plan x m es is s
  /-- The host's answer is awaited. -/
  | awaits {es' is'} (hj : plan.Journey none x m es' is')
      (hnext : ∀ y ans, plan.Journey (some y) x m (es' ++ [.written (plan.sent y) ans]) is')
      (h : plan.Follows (es ++ es') (is ++ is') s) (hp : s.phase = .awaitResponse) :
        Fares plan x m es is s

namespace Plan

variable {plan : Plan} {es : List (Event Builtin)} {is : List Nat} {s : Stream Builtin}

namespace Follows

/-- The stream where nobody was called and the board is not touched. -/
theorem note (h : plan.Follows es is s) {e : Event Builtin} (hc : e.call? .request = none)
    (ho : e.isOutward = false) : plan.Follows es is (s.note e) :=
  { h with tells := h.tells.note hc ho }

theorem goto (h : plan.Follows es is s) {phase : Phase}
    (hp : phase < .filterResponse → s.board.closed = false) :
    plan.Follows es is { s with phase } :=
  { h with opened := hp }

/-- A phase is complete. -/
theorem advance {t : Turn Builtin ε} (h : plan.Follows es is t.stream) {phase : Phase}
    (hp : t.stream.phase = phase) :
    plan.Follows es is (t.advance phase).stream := by
  refine (h.note rfl rfl).goto fun hlt => h.opened ?_
  rw [hp]
  revert hlt
  cases phase <;> decide

theorem entered (h : plan.Follows es is s) : plan.Follows es is s.entered := h.note rfl rfl

theorem live (h : plan.Follows es is s) (hp : s.phase ≠ .done) : s.Live := ⟨h.unclaimed, hp⟩

end Follows

end Plan

/-- A stream that is finished is spent. -/
theorem Stream.spent_finish {es : List (Event σ)} {is : List Nat} (β : Behaviour σ)
    (ending : Ending) {s : Stream σ}
    (ho : s.board.owned = true) (hp : s.pausedBy = none) (ht : Tells s.board.log es is) :
    (s.finish β ending).2.Spent es is where
  pausedBy := by
    rcases s.finish_pausedBy β ending with h | h
    · rw [h, hp]
    · exact h
  idle := .inl (claimed_finish β ending ho)
  tells := by
    obtain ⟨new, hlog, hnew⟩ := finish_log β ending s ho
    rw [hlog]
    exact ht.ending hnew

/-- So is one that is given up. -/
theorem Stream.spent_abort {es : List (Event σ)} {is : List Nat} (β : Behaviour σ) (cause : Abort)
    {s : Stream σ}
    (ho : s.board.owned = true) (hp : s.pausedBy = none) (ht : Tells s.board.log es is) :
    ((s.noteAbort cause).finish β cause.ending).2.board.claimed = true ∧
      ((s.noteAbort cause).finish β cause.ending).2.Spent es is := by
  obtain ⟨noted, hlog, houtside, hmoves, heq⟩ := noteAbort_spec s cause
  have ho' : (s.noteAbort cause).board.owned = true := hmoves.owned.trans ho
  refine ⟨claimed_finish _ _ ho', spent_finish _ _ ho' ?_ (hlog ▸ ht.outside houtside)⟩
  rw [heq]
  exact hp

/-! ## Drives -/

namespace Turn.Drives

variable {c : Surroundings σ ε} {x y : Nat × Turn σ ε} {r : Option Panic × Turn σ ε}

theorem head (hs : Stride c x y) (h : Drives c y r) : Drives c x r :=
  h.imp fun _ hz => ⟨.head hs hz.1, hz.2⟩

theorem stop (h : Stops c x r) : Drives c x r := ⟨x, .refl, h⟩

end Turn.Drives

namespace Plan

variable {plan : Plan} {es : List (Event Builtin)} {is : List Nat} {c : Surroundings Builtin ε}
  {t : Turn Builtin ε}

/-- **A stream that breaks off or is finished at its phase** is spent. -/
theorem stop_drives (h : plan.Follows es is t.stream)
    (hp : t.stream.phase ∉ [.init, .awaitResponse, .done])
    {step : Step} {t' : Turn Builtin ε} (hx : t.execute c 0 = (step, t'))
    (hstep : (∃ ending, step = .finish ending) ∨ ∃ p, step = .escape p) {es' : List (Event Builtin)}
    (ht : Tells t'.stream.board.log es' is) :
    ∃ r, Turn.Drives c (0, t) r ∧ r.2.stream.Spent es' is := by
  have hl : t.stream.Live := h.live fun hd => hp (by simp [hd])
  obtain ⟨new, called, hexecuted⟩ := Turn.executed_execute hl h.owned hx
  have ho : t'.stream.board.owned = true := (hexecuted.moves hl).owned.trans h.owned
  have hphase := hexecuted.phase
  rcases hstep with ⟨ending, rfl⟩ | ⟨p, rfl⟩
  · refine ⟨_, .stop (.finish hl hx), spent_finish c.behaviour ending ho ?_ ht⟩
    cases hexecuted with
    | finish hw ha => exact ha.pausedBy.trans h.pausedBy
  · refine ⟨_, .stop (.escape hl hx), ?_, .inr ?_, ht⟩
    · cases hexecuted with
      | escape hw ha => exact ha.pausedBy.trans h.pausedBy
    · rw [hphase]
      simp only [List.mem_cons, not_or] at hp
      exact ⟨hp.1, hp.2.1⟩

/-- **The response is written**, and the stream is spent. -/
theorem respond_drives (h : plan.Follows es is t.stream) (hp : t.stream.phase = .respond) :
    ∃ r ans, Turn.Drives c (0, t) r ∧
      r.2.stream.Spent (es ++ [.written t.stream.response.parts.message ans]) is := by
  have hout : t.stream.outgoing = t.stream.response.parts.message :=
    congrArg (fun r => r.1.message) (putReplaced_eq h.replaced _)
  generalize ha : (c.write t.env t.stream.board.context.id t.stream.outgoing).1 = ans
  obtain ⟨s, hexec, -, hlog⟩ := Turn.execute_respond hp 0 ha
  rcases hx : t.execute c 0 with ⟨step, t'⟩
  rw [hx] at hexec
  obtain ⟨hstep, hstream⟩ := Prod.mk.inj hexec
  have ht : Tells s.board.log (es ++ [.written t.stream.response.parts.message ans]) is := by
    rw [hlog, hout]
    exact h.entered.tells.call rfl rfl
  have hlast : t.stream.phase ∉ [.init, .awaitResponse, .done] := by rw [hp]; decide
  have stopped {s' : Stream Builtin} (hstream : t'.stream = s')
      (hstep : (∃ ending, step = .finish ending) ∨ ∃ p, step = .escape p)
      (ht : Tells s'.board.log (es ++ [.written t.stream.response.parts.message ans]) is) :
      ∃ r ans, Turn.Drives c (0, t) r ∧
        r.2.stream.Spent (es ++ [.written t.stream.response.parts.message ans]) is :=
    (stop_drives h hlast hx hstep (hstream ▸ ht)).imp fun _ hr => ⟨ans, hr⟩
  rcases ans with p | failure | ⟨⟩
  · exact stopped hstream (.inr ⟨p, hstep⟩) ht
  · exact stopped hstream (.inl ⟨_, hstep⟩) ht
  · exact stopped hstream (.inl ⟨_, hstep⟩) (ht.note rfl rfl)

/-- The phase of response filters is complete. -/
theorem filterResponse_next {s : Stream Builtin} (h : plan.Follows es is s)
    (hp : s.phase = .filterResponse) :
    ∃ s', s.entered.filterResponse Builtin.behaviour 0 = (.next, s') ∧ plan.Follows es is s' ∧
      s'.phase = .filterResponse ∧ s'.response = plan.sent s.response := by
  obtain ⟨result, new, parts, hpass, hnew, hkeep⟩ := passResponses_eq (s := s.entered.filters)
    (w := ⟨s.entered.board.closeReply.2, s.entered.response.parts⟩) .keep h.responses h.replaced
  obtain ⟨rfl, rfl⟩ := hkeep rfl
  unfold filterResponse passResponse
  dsimp only
  rw [hpass]
  refine ⟨_, rfl,
    { h with reply := rfl, opened := fun hlt => ?_, tells := h.entered.tells.quiet hnew }, hp, rfl⟩
  rw [show s.entered.phase = .filterResponse from hp] at hlt
  exact absurd hlt (by decide)

/-- **A response goes through the response filters as planned**, and is written. -/
theorem answer_drives (hβ : c.behaviour = Builtin.behaviour) (h : plan.Follows es is t.stream)
    (hp : t.stream.phase = .filterResponse) : ∃ r ans, Turn.Drives c (0, t) r ∧
      r.2.stream.Spent (es ++ [.written (plan.sent t.stream.response) ans]) is := by
  obtain ⟨s, hfilter, hfollows, hphase, hresponse⟩ := filterResponse_next h hp
  have hx : t.execute c 0 = (.next, { t with stream := s }) := by
    rw [Turn.execute_filterResponse c hp, hβ, hfilter]
  have hfollows : plan.Follows es is ({ t with stream := s } : Turn Builtin ε).stream := hfollows
  have hstride := Turn.Stride.next (h.live (by rw [hp]; decide)) hx
  rw [hp] at hstride
  obtain ⟨r, ans, hdrives, hspent⟩ := respond_drives (c := c) (hfollows.advance hphase) rfl
  have hsent : s.response.parts.message = plan.sent t.stream.response := by rw [hresponse]; rfl
  rw [← hsent]
  exact ⟨r, ans, hdrives.head hstride, hspent⟩

/-! ## Stations -/

/-- The pass of a stream that follows the plan. -/
theorem passRequests_planned {s : Stream Builtin} (h : plan.Follows es is s) {point : RequestPoint}
    (hp : s.phase = point.phase) : ∃ info new result parts,
      s.entered.filters.passRequests Builtin.behaviour point 0 s.entered.settings.convert
        ⟨s.entered.board, s.entered.request.parts⟩ = ⟨result, s.filters, ⟨{ s.entered.board with
          point := none, reply := plan.direct? point, info, log :=
            new ++ s.entered.board.log }, parts⟩⟩ ∧
      Tells (new ++ s.entered.board.log) es (is ++ plan.called point) ∧
      Passing (plan.bound point) s.request.parts new result parts := by
  have hlt : s.phase < .filterResponse := by rw [hp]; cases point <;> decide
  have hconvert : s.entered.settings.convert = .keep := h.convert
  obtain ⟨info, new, result, parts, hpass, hpassing⟩ := passRequests_eq (s := s.entered.filters)
    (w := ⟨s.entered.board, s.entered.request.parts⟩) point h.requests h.owned
      (h.opened hlt) h.reply
  rw [hconvert, hpass]
  exact ⟨info, new, result, parts, rfl, h.entered.tells.append hpassing.calls hpassing.hidden,
    hpassing⟩

/-- **A request goes through the filters of a point as planned**, if none of them answers… -/
theorem filterRequest_next {s : Stream Builtin} (h : plan.Follows es is s) {point : RequestPoint}
    (hp : s.phase = point.phase) (hd : plan.direct? point = none) :
    ∃ s', s.entered.filterRequest Builtin.behaviour point 0 = (.next, s') ∧
      plan.Follows es (is ++ plan.called point) s' ∧ s'.phase = s.phase ∧
      s'.request = plan.dressed point s.request ∧ s'.host = s.host ∧
      s'.board.route = s.board.route := by
  obtain ⟨info, new, result, parts, hpass, htells, -, -, hthrough, -⟩ := passRequests_planned h hp
  obtain ⟨rfl, rfl⟩ := hthrough hd
  unfold filterRequest
  dsimp only
  rw [hpass, hd]
  exact ⟨_, rfl, { h with reply := rfl, tells := htells }, rfl, rfl, rfl, rfl⟩

/-- …and one that does has its reply taken for the response. -/
theorem filterRequest_goto {s : Stream Builtin} (h : plan.Follows es is s) {point : RequestPoint}
    (hp : s.phase = point.phase) {reply : Message} (hd : plan.direct? point = some reply) :
    ∃ s', s.entered.filterRequest Builtin.behaviour point 0 = (.goto .filterResponse, s') ∧
      plan.Follows es (is ++ plan.called point) { s' with phase := .filterResponse } ∧
      s'.response = reply := by
  obtain ⟨info, new, result, parts, hpass, htells, -, -, -, hanswered⟩ := passRequests_planned h hp
  obtain ⟨i, rfl⟩ := hanswered (Option.isSome_iff_exists.mpr ⟨reply, hd⟩)
  unfold filterRequest
  dsimp only
  rw [hpass, hd]
  exact ⟨_, rfl, { h with reply := rfl, opened := nofun, tells := htells }, rfl⟩

/-- **A request goes through the filters of its station**… -/
theorem pass_stride (hβ : c.behaviour = Builtin.behaviour) (h : plan.Follows es is t.stream)
    {x : Station}
    (hp : t.stream.phase = x.point.phase) (hx : x.Known t.stream)
    (hd : plan.direct? x.point = none) :
    ∃ t', Turn.Stride c (0, t) (0, t') ∧ plan.Follows es (is ++ plan.called x.point) t'.stream ∧
      t'.stream.phase = x.point.phase.next ∧ x.Known t'.stream ∧
      t'.stream.request = plan.dressed x.point t.stream.request := by
  obtain ⟨s, hfilter, hfollows, hphase, hrequest, hhost, hroute⟩ := filterRequest_next h hp hd
  have hx' : t.execute c 0 = (.next, { t with stream := s }) := by
    rw [Turn.execute_filters c hp, hβ, hfilter]
  have hfollows : plan.Follows es (is ++ plan.called x.point)
    ({ t with stream := s } : Turn Builtin ε).stream :=
    hfollows
  refine ⟨_, .next (h.live (by rw [hp]; cases x <;> nofun)) hx', hfollows.advance hphase, ?_,
    ?_, hrequest⟩
  · rw [hp]
    rfl
  · cases x with
    | taken => trivial
    | routed route => exact hroute.trans hx
    | hosted host => exact hhost.trans hx

/-- …**unless one of them answers by itself**: then its reply is sent. -/
theorem direct_drives (hβ : c.behaviour = Builtin.behaviour) (h : plan.Follows es is t.stream)
    {x : Station}
    (hp : t.stream.phase = x.point.phase) {reply : Message} (hd : plan.direct? x.point = some reply)
    (m : Message) :
    ∃ r, Turn.Drives c (0, t) r ∧ plan.Fares x m es is r.2.stream := by
  obtain ⟨s, hfilter, hfollows, rfl⟩ := filterRequest_goto h hp hd
  have hx : t.execute c 0 = (.goto .filterResponse, { t with stream := s }) := by
    rw [Turn.execute_filters c hp, hβ, hfilter]
  obtain ⟨r, ans, hdrives, hspent⟩ := answer_drives (c := c)
    (t := Turn.goto .filterResponse { t with stream := s }) hβ hfollows rfl
  exact ⟨r, hdrives.head (.goto (h.live (by rw [hp]; cases x <;> nofun)) hx),
    .spent (.answered hd) hspent⟩

/-- How a request fares from the next station on is how it fares from this one. -/
theorem Fares.back {x y : Station} {m m' : Message} {e : Event Builtin} {js : List Nat}
    {s : Stream Builtin} (h : plan.Fares y m' (es ++ [e]) (is ++ js) s)
    (hj : ∀ heard es' is', plan.Journey heard y m' es' is' →
      plan.Journey heard x m (e :: es') (js ++ is')) :
    plan.Fares x m es is s := by
  cases h with
  | @spent es' is' hj' h =>
    rw [List.append_assoc, List.append_assoc] at h
    exact .spent (hj _ _ _ hj') h
  | @awaits es' is' hj' hnext h hp =>
    rw [List.append_assoc, List.append_assoc] at h
    exact .awaits (hj _ _ _ hj') (fun y ans => hj _ _ _ (hnext y ans)) h hp

/-- A stream ended from outside is spent. -/
theorem Follows.terminate {s : Stream Builtin} (h : plan.Follows es is s) (ending : Ending) :
    (s.terminate ending).2.board.claimed = true ∧ (s.terminate ending).2.Spent es is := by
  have hclaimed : (s.terminate ending).2.board.claimed = true := by
    rw [Stream.terminate, Board.terminate_of_unclaimed h.owned h.unclaimed]
  refine ⟨hclaimed, h.pausedBy, .inl hclaimed, ?_⟩
  obtain ⟨new, hlog, hnew⟩ := Board.terminate_log s.board ending h.owned
  rw [Stream.terminate, hlog]
  exact h.tells.outside hnew

/-- An answer of the transport is put out, or ends the stream. -/
theorem Follows.answer {s : Stream Builtin} (h : plan.Follows es is s) (x : Handover) :
    plan.Follows es is (Turn.answer s x) ∧ (Turn.answer s x).phase = s.phase ∨
      (Turn.answer s x).board.claimed = true ∧ (Turn.answer s x).Spent es is := by
  cases x with
  | kept => exact .inl ⟨h, rfl⟩
  | dropped => exact .inl ⟨h, rfl⟩
  | responded m =>
    rw [Turn.answer_responded h.owned]
    exact .inl ⟨h.note rfl rfl, rfl⟩
  | failed failure => exact .inr (h.terminate .hostFailure)

/-- **The host is handed the request**, and its answer is awaited. -/
theorem forward_drives (h : plan.Follows es (is ++ plan.called .afterHost) t.stream)
    (hp : t.stream.phase = .forward)
    {host : Host} (hh : t.stream.host = some host) {m : Message}
    (hm : t.stream.request = plan.dressed .afterHost m) (hd : plan.direct? .afterHost = none) :
    ∃ r, Turn.Drives c (0, t) r ∧ plan.Fares (.hosted host) m es is r.2.stream := by
  have hl : t.stream.Live := h.live (by rw [hp]; decide)
  have hexec := Turn.execute_forward (c := c) hp hh 0
  rw [hm] at hexec
  generalize c.forward t.env t.stream.board.context.id host (plan.dressed .afterHost m) = x at hexec
  dsimp only at hexec
  let handed := t.stream.entered.note (.forwarded host (plan.dressed .afterHost m) x.1)
  have hhanded : plan.Follows (es ++ [.forwarded host (plan.dressed .afterHost m) x.1])
      (is ++ plan.called .afterHost) handed := { h with tells := h.entered.tells.call rfl rfl }
  have hspent {s : Stream Builtin}
    (hs : s.Spent (es ++ [.forwarded host (plan.dressed .afterHost m) x.1])
      (is ++ plan.called .afterHost)) : plan.Fares (.hosted host) m es is s :=
        .spent (.forwarded hd) hs
  have hanswer := hhanded.answer x.1.handover
  cases hpanic : x.1.panic with
  | some p =>
    rw [hpanic] at hexec
    refine ⟨_, .stop (.escape hl hexec), hspent ?_⟩
    rcases hanswer with ⟨hfollows, hphase⟩ | ⟨-, hs⟩
    · refine ⟨hfollows.pausedBy, .inr ?_, hfollows.tells⟩
      rw [hphase, show handed.phase = .forward from hp]
      decide
    · exact hs
  | none =>
    rw [hpanic] at hexec
    have hstride := Turn.Stride.next hl hexec
    rw [hp] at hstride
    rcases hanswer with ⟨hfollows, hphase⟩ | ⟨hclaimed, hs⟩
    · -- the stream comes to rest at its next phase
      have hadvanced := hfollows.advance (t := ⟨Turn.answer handed x.1.handover, x.2⟩)
        (hphase.trans hp : _ = Phase.forward)
      refine ⟨_, .head hstride (.stop (.rest (hadvanced.live nofun) rfl)),
        .awaits (.forwarded hd) (fun y ans => .served hd) hadvanced.entered rfl⟩
    · refine ⟨_, .head hstride (.stop (.halt (.inl hclaimed))),
        hspent ⟨hs.pausedBy, .inl hclaimed, ?_⟩⟩
      exact hs.tells.note rfl rfl

/-- **The router is asked** about the request as it is, and the stream goes on if there is a
route. -/
theorem route_drives (h : plan.Follows es is t.stream) (hp : t.stream.phase = .matchRoute) :
    (∃ route t', Turn.Stride c (0, t) (0, t') ∧
      plan.Follows (es ++ [.routed t.stream.request.parts.headers (.ok (some route))])
        is t'.stream ∧
      t'.stream.phase = .filterRouted ∧ (Station.routed route).Known t'.stream ∧
      t'.stream.request = t.stream.request) ∨
    ∃ ans r, (∀ route, ans ≠ .ok (some route)) ∧ Turn.Drives c (0, t) r ∧
      r.2.stream.Spent (es ++ [.routed t.stream.request.parts.headers ans]) is := by
  have hl : t.stream.Live := h.live (by rw [hp]; decide)
  have hlast : t.stream.phase ∉ [.init, .awaitResponse, .done] := by rw [hp]; decide
  generalize hans : (c.reload t.env c.routing).1.find t.stream.request.parts.headers = ans
  have htells : Tells (.routed t.stream.request.parts.headers ans :: t.stream.entered.board.log)
      (es ++ [.routed t.stream.request.parts.headers ans]) is := h.entered.tells.call rfl rfl
  have hexec : t.execute c 0 = t.entered.matchRoute c := by
    unfold Turn.execute Turn.step
    rw [show t.stream.entered.phase = .matchRoute from hp]
  have hans' : (c.reload t.entered.env c.routing).1.find (t.entered.stream.request.headers.getD {})
    = ans := hans
  unfold Turn.matchRoute at hexec
  dsimp only at hexec
  rw [hans'] at hexec
  rcases ans with p | _ | route
  · obtain ⟨r, hr⟩ := stop_drives h hlast hexec (.inr ⟨p, rfl⟩) htells
    exact .inr ⟨_, r, by simp, hr⟩
  · obtain ⟨r, hr⟩ := stop_drives h hlast hexec (.inl ⟨.noRoute, rfl⟩) htells
    exact .inr ⟨_, r, by simp, hr⟩
  · have hstride := Turn.Stride.next hl hexec
    rw [hp] at hstride
    refine .inl ⟨route, _, hstride, Follows.advance ?_ hp, rfl, rfl, rfl⟩
    exact { h with tells := htells }

/-- **The cluster manager is asked** for a host on the route, and the stream goes on if there is
one. -/
theorem choose_drives (h : plan.Follows es is t.stream) (hp : t.stream.phase = .chooseHost)
    {route : Route} (hr : t.stream.board.route = some route) :
    (∃ host t', Turn.Stride c (0, t) (0, t') ∧
      plan.Follows (es ++ [.chosen route t.stream.request.parts.headers (.ok (.ok host))])
        is t'.stream ∧
      t'.stream.phase = .filterHosted ∧ (Station.hosted host).Known t'.stream ∧
      t'.stream.request = t.stream.request) ∨
    ∃ ans r, (∀ host, ans ≠ .ok (.ok host)) ∧ Turn.Drives c (0, t) r ∧
      r.2.stream.Spent (es ++ [.chosen route t.stream.request.parts.headers ans]) is := by
  have hl : t.stream.Live := h.live (by rw [hp]; decide)
  have hlast : t.stream.phase ∉ [.init, .awaitResponse, .done] := by rw [hp]; decide
  generalize hans : (c.choose t.env route t.stream.request.parts.headers).1 = ans
  have htells :
    Tells (.chosen route t.stream.request.parts.headers ans :: t.stream.entered.board.log)
      (es ++ [.chosen route t.stream.request.parts.headers ans]) is := h.entered.tells.call rfl rfl
  have hexec : t.execute c 0 = t.entered.chooseHost c := by
    unfold Turn.execute Turn.step
    rw [show t.stream.entered.phase = .chooseHost from hp]
  have hr' : t.entered.stream.board.route = some route := hr
  have hans' : (c.choose t.entered.env route (t.entered.stream.request.headers.getD {})).1
    = ans := hans
  unfold Turn.chooseHost at hexec
  rw [hr'] at hexec
  dsimp only at hexec
  rw [hans'] at hexec
  rcases ans with p | failure | host
  · obtain ⟨r, hr⟩ := stop_drives h hlast hexec (.inr ⟨p, rfl⟩) htells
    exact .inr ⟨_, r, by simp, hr⟩
  · obtain ⟨r, hr⟩ := stop_drives h hlast hexec (.inl ⟨_, rfl⟩) htells
    exact .inr ⟨_, r, by simp, hr⟩
  · have hstride := Turn.Stride.next hl hexec
    rw [hp] at hstride
    refine .inl ⟨host, _, hstride, Follows.advance ?_ hp, rfl, rfl, rfl⟩
    exact { h with tells := htells }

/-! ## The way from each station -/

section

variable {m : Message} (hβ : c.behaviour = Builtin.behaviour)
include hβ

theorem hosted_drives (h : plan.Follows es is t.stream) (hp : t.stream.phase = .filterHosted)
    {host : Host} (hx : t.stream.host = some host) (hm : t.stream.request = m) :
    ∃ r, Turn.Drives c (0, t) r ∧ plan.Fares (.hosted host) m es is r.2.stream := by
  cases hd : plan.direct? .afterHost with
  | some reply => exact direct_drives (x := .hosted host) hβ h hp hd m
  | none =>
    obtain ⟨t', hstride, h', hp', hx', hm'⟩ := pass_stride (x := .hosted host) hβ h hp hx hd
    have hm' : t'.stream.request = plan.dressed .afterHost m := hm ▸ hm'
    obtain ⟨r, hdrives, hfares⟩ := forward_drives (c := c) h' hp' hx' hm' hd
    exact ⟨r, hdrives.head hstride, hfares⟩

theorem routed_drives (h : plan.Follows es is t.stream) (hp : t.stream.phase = .filterRouted)
    {route : Route} (hx : t.stream.board.route = some route) (hm : t.stream.request = m) :
    ∃ r, Turn.Drives c (0, t) r ∧ plan.Fares (.routed route) m es is r.2.stream := by
  cases hd : plan.direct? .afterRoute with
  | some reply => exact direct_drives (x := .routed route) hβ h hp hd m
  | none =>
    obtain ⟨t₁, hstride, h₁, hp₁, hx₁, hm₁⟩ := pass_stride (x := .routed route) hβ h hp hx hd
    have hm₁ : t₁.stream.request = plan.dressed .afterRoute m := hm ▸ hm₁
    have hchoice := choose_drives (c := c) h₁ hp₁ hx₁
    rw [hm₁] at hchoice
    rcases hchoice with ⟨host, t₂, hstride', h₂, hp₂, hx₂, hm₂⟩ | ⟨ans, r, hans, hdrives, hspent⟩
    · obtain ⟨r, hdrives, hfares⟩ := hosted_drives hβ h₂ hp₂ hx₂ hm₂
      exact ⟨r, (hdrives.head hstride').head hstride, hfares.back fun _ _ _ => .chosen hd⟩
    · exact ⟨r, hdrives.head hstride, .spent (.refused hd hans) hspent⟩

theorem taken_drives (h : plan.Follows es is t.stream) (hp : t.stream.phase = .filterRequest)
    (hm : t.stream.request = m) :
      ∃ r, Turn.Drives c (0, t) r ∧ plan.Fares .taken m es is r.2.stream := by
  cases hd : plan.direct? .beforeRoute with
  | some reply => exact direct_drives (x := .taken) hβ h hp hd m
  | none =>
    obtain ⟨t₁, hstride, h₁, hp₁, -, hm₁⟩ := pass_stride (x := .taken) hβ h hp trivial hd
    have hm₁ : t₁.stream.request = plan.dressed .beforeRoute m := hm ▸ hm₁
    have hrouting := route_drives (c := c) h₁ hp₁
    rw [hm₁] at hrouting
    rcases hrouting with ⟨route, t₂, hstride', h₂, hp₂, hx₂, hm₂⟩ | ⟨ans, r, hans, hdrives, hspent⟩
    · obtain ⟨r, hdrives, hfares⟩ := routed_drives hβ h₂ hp₂ hx₂ hm₂
      exact ⟨r, (hdrives.head hstride').head hstride, hfares.back fun _ _ _ => .routed hd⟩
    · exact ⟨r, hdrives.head hstride, .spent (.astray hd hans) hspent⟩

/-- **A request taken in goes its way.** -/
theorem receive_drives (h : plan.Follows es is t.stream) (hp : t.stream.phase = .init)
    (hm : t.stream.request = m) :
      ∃ r, Turn.Drives c (0, t) r ∧ plan.Fares .taken m es is r.2.stream := by
  have hexec : t.execute c 0 = (.next, t.entered) := by
    unfold Turn.execute Turn.step
    rw [show t.stream.entered.phase = .init from hp]
  have hstride := Turn.Stride.next (h.live (by rw [hp]; decide)) hexec
  rw [hp] at hstride
  obtain ⟨r, hdrives, hfares⟩ := taken_drives hβ (h.entered.advance (t := t.entered) hp) rfl hm
  exact ⟨r, hdrives.head hstride, hfares⟩

end

end Plan

end FilterProxy

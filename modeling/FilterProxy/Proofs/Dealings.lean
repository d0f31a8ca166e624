import FilterProxy.Proofs.Conclusion

/-!
# Proofs/Dealings — what a phase makes of a stream

Three phases call a collaborator short of the client, three make a pass over request filters, and
one writes the response.  **What each phase executed does, `Stream.Deals` tells**
(`Turn.deals_execute`): but for that call or pass the stream stays where it stands, or is paused
(`Stream.Settles`).
-/

namespace FilterProxy

variable {σ ε : Type}

open Board FilterSet FilterProxy.Stream

theorem Event.isUpward_of_framed {e : Event σ} (h : e.Framed) (hc : e.call? .request = none) :
    e.isUpward = false := by
  cases e with
  | called side => cases side <;> first | rfl | cases hc
  | _ => first | rfl | cases h.outward

theorem Event.Apart.isUpward {e : Event σ} (h : e.Apart) : e.isUpward = false :=
  isUpward_of_framed h.toFramed h.call

namespace Stream

/-- The request headers that routing and the choice of a host are asked about. -/
def asked (s : Stream σ) : Headers := s.request.headers.getD {}

/-- **What comes of it in the end**: the stream stays where it stands, or a filter pauses it. -/
inductive Settles (s : Stream σ) : Step → Stream σ → Prop
  | stays {step s'} (h : s.Stays s') : Settles s step s'
  | pause {s'} (n) (h : s.Stays s') (hc : s'.board.claimed = false) : Settles s .rest (s'.pause n).2

namespace Settles

variable {s s' : Stream σ}

/-- What is concluded from a pass settles. -/
theorem of_concludes {result : Except Panic Outcome} {step : Step}
    (h : s.Concludes result step s') : s.Settles step s' := by
  cases h with
  | next | rest | escape => exact .stays (.refl s)
  | reply =>
    exact .stays ⟨⟨⟨[], rfl, by simp⟩, rfl, .inl ⟨rfl, rfl⟩, rfl, rfl⟩, rfl, rfl, rfl,
      rfl, rfl, rfl⟩
  | pause _ hc => exact .pause _ (.refl s) hc
  | jump => exact .stays ⟨.refl s.board, rfl, rfl, rfl, rfl, rfl, rfl⟩
  | abort cause => exact .stays (.noteAbort s cause)

/-- …and so do response filters. -/
theorem filterResponse (β : Behaviour σ) {k : Nat} (ho : s.board.owned = true) :
    s.Settles (s.filterResponse β k).1 (s.filterResponse β k).2 := by
  have hframe := frame_passResponses β .beforeSend k .keep s.filters
    ⟨s.board.closeReply.2, s.response.parts⟩ ho
  unfold Stream.filterResponse passResponse
  dsimp only at hframe ⊢
  generalize passResponses β .beforeSend k .keep s.filters
    ⟨s.board.closeReply.2, s.response.parts⟩ = r at hframe ⊢
  have hpassed : s.Stays { s with
      filters := r.filters, board := r.bench.board, response := r.bench.parts.message } :=
    ⟨⟨hframe.log, hframe.owned, hframe.route, hframe.named⟩, rfl, rfl, rfl, rfl, rfl, rfl⟩
  rcases r.result with p | _ | n | q | cause
  case ok.stopped =>
    dsimp only
    rw [pause_fst]
    cases hc : r.bench.board.claimed with
    | true => rw [pause_of_claimed n hc]; exact .stays hpassed
    | false => exact .pause n hpassed hc
  case ok.aborted => exact .stays (hpassed.trans (.noteAbort _ cause))
  all_goals exact .stays hpassed

end Settles

/-- **Nothing that leads up to the response filters is called**, and host and request stand. -/
structure Quiet (s s' : Stream σ) : Prop where
  board : s.board.Frame (·.isUpward = false) s'.board
  host : s'.host = s.host
  request : s'.request = s.request

namespace Quiet

variable {s s' s'' : Stream σ}

theorem trans (h : s.Quiet s') (h' : s'.Quiet s'') : s.Quiet s'' :=
  ⟨h.board.trans h'.board, h'.host.trans h.host, h'.request.trans h.request⟩

theorem note (s : Stream σ) {e : Event σ} (he : e.isUpward = false) : s.Quiet (s.note e) :=
  ⟨frame_note he, rfl, rfl⟩

theorem of_stays (h : s.Stays s') : s.Quiet s' :=
  ⟨h.board.mono fun _ => Event.Apart.isUpward, h.host, h.request⟩

theorem of_settles {step : Step} (h : s.Settles step s') : s.Quiet s' := by
  cases h with
  | stays h => exact of_stays h
  | @pause s' n h hc =>
    have hhalted : s'.Quiet (s'.halted n) := ⟨frame_publish rfl, rfl, rfl⟩
    rw [pause_of_unclaimed n hc]
    split
    · exact (of_stays h).trans hhalted
    · exact ((of_stays h).trans hhalted).trans (note _ rfl)

end Quiet

/-- The stream once the routing then in force was asked for a route. -/
def inquired (c : Surroundings σ ε) (env : ε) (s : Stream σ) : Stream σ :=
  s.entered.note (.routed s.asked ((c.reload env c.routing).1.find s.asked))

/-- The stream once a host was asked for, on that route. -/
def bespoken (c : Surroundings σ ε) (env : ε) (route : Route) (s : Stream σ) : Stream σ :=
  s.entered.note (.chosen route s.asked (c.choose env route s.asked).1)

/-- The stream once its request was handed to that host. -/
def consigned (c : Surroundings σ ε) (env : ε) (host : Host) (s : Stream σ) : Stream σ :=
  s.entered.note (.forwarded host s.request (c.forward env s.board.context.id host s.request).1)

/-- A pass over request filters is framed, its phase and all. -/
theorem frame_passed (β : Behaviour σ) (point : RequestPoint) (k : Nat) {s : Stream σ}
    (ho : s.board.owned = true) : s.board.Frame Event.Framed (s.passed β point k).board := by
  have hentered : s.board.Frame Event.Framed s.entered.board := frame_note ⟨rfl, rfl⟩
  exact hentered.trans (frame_passRequests β point k s.settings.convert s.entered.filters
    ⟨s.entered.board, s.request.parts⟩ ho)

/-- **What executing a phase does to a stream** in these surroundings, short of what it settles
to. -/
inductive Deals (c : Surroundings σ ε) (env : ε) (k : Nat) (s : Stream σ) : Step → Stream σ → Prop
  /-- Nothing is called for. -/
  | apart {step s'} (hp : s.phase = .init ∨ .forward < s.phase) (h : s.entered.Settles step s') :
      Deals c env k s step s'
  | filters {step s'} {point : RequestPoint} (hp : s.phase = point.phase)
      (h : (s.passed c.behaviour point k).Settles step s') : Deals c env k s step s'
  | routed {route} (hp : s.phase = .matchRoute)
      (ha : (c.reload env c.routing).1.find s.asked = .ok (some route)) :
      Deals c env k s .next { s.inquired c env with board := { (s.inquired c env).board with
        info := { s.board.info with route := some route.name }, route := some route } }
  /-- There is no route to choose a host on, or no host to forward the request to. -/
  | lacking {step} (hp : s.phase = .chooseHost ∧ s.board.route = none ∨
      s.phase = .forward ∧ s.host = none) (hstep : step.isLast) : Deals c env k s step s.entered
  /-- No route is found, or the look-up breaks off. -/
  | astray {step} (hp : s.phase = .matchRoute) (hstep : step.isLast) :
      Deals c env k s step (s.inquired c env)
  | chosen {route host} (hp : s.phase = .chooseHost) (hr : s.board.route = some route)
      (ha : (c.choose env route s.asked).1 = .ok (.ok host)) :
      Deals c env k s .next { s.bespoken c env route with
        host := some host
        board := { (s.bespoken c env route).board with
          info := { s.board.info with host := some host.address } } }
  /-- No host is found, or the choice breaks off. -/
  | refused {route step} (hp : s.phase = .chooseHost) (hr : s.board.route = some route)
      (hstep : step.isLast) : Deals c env k s step (s.bespoken c env route)
  | forwarded {host step s'} (hp : s.phase = .forward) (hh : s.host = some host)
      (h : (s.consigned c env host).Stays s') : Deals c env k s step s'
  | written {response answer step s'} (hp : s.phase = .respond)
      (h : (s.entered.note (.written response answer)).Stays s') : Deals c env k s step s'

end Stream

namespace Turn

variable (c : Surroundings σ ε) (k : Nat) {t : Turn σ ε}

theorem deals_matchRoute (hp : t.stream.phase = .matchRoute) :
    t.stream.Deals c t.env k (t.entered.matchRoute c).1 (t.entered.matchRoute c).2.stream := by
  unfold matchRoute
  dsimp only
  split
  case h_1 => exact .astray hp rfl
  case h_2 => exact .astray hp rfl
  case h_3 route ha => exact .routed hp ha

theorem deals_chooseHost (hp : t.stream.phase = .chooseHost) :
    t.stream.Deals c t.env k (t.entered.chooseHost c).1 (t.entered.chooseHost c).2.stream := by
  unfold chooseHost
  split
  case h_1 hr => exact .lacking (.inl ⟨hp, hr⟩) rfl
  case h_2 route hr =>
    dsimp only
    split
    case h_1 => exact .refused hp hr rfl
    case h_2 => exact .refused hp hr rfl
    case h_3 host ha => exact .chosen hp hr ha

theorem deals_forward (hp : t.stream.phase = .forward) :
    t.stream.Deals c t.env k (t.entered.forward c).1 (t.entered.forward c).2.stream := by
  unfold forward
  split
  case h_1 hh => exact .lacking (.inr ⟨hp, hh⟩) rfl
  case h_2 host hh =>
    dsimp only
    split <;> exact .forwarded hp hh (.answer _ _)

theorem deals_respond (hp : t.stream.phase = .respond) :
    t.stream.Deals c t.env k (t.entered.respond c).1 (t.entered.respond c).2.stream := by
  have written {b : Board σ} (hlog : b.log = t.stream.entered.board.log)
      (ho : b.owned = t.stream.board.owned)
      (hr : b.claimed = t.stream.board.claimed ∧ b.route = t.stream.board.route)
      (hn : b.info.route = t.stream.board.info.route ∧ b.info.host = t.stream.board.info.host)
      (response answer) : (t.stream.entered.note (.written response answer)).Stays
        (({ t.stream.entered with board := b, response := {} } : Stream σ).note
          (.written response answer)) :=
    ⟨⟨⟨[], congrArg (_ :: ·) hlog, by simp⟩, ho, .inl hr, hn⟩, rfl, rfl, rfl, rfl, rfl, rfl⟩
  unfold respond
  dsimp only
  generalize hput : t.stream.entered.board.putReplaced t.stream.entered.response.parts = put
  obtain ⟨hlog, ho, hr, hn⟩ : put.2.log = t.stream.entered.board.log ∧
      put.2.owned = t.stream.board.owned ∧
      (put.2.claimed = t.stream.board.claimed ∧ put.2.route = t.stream.board.route) ∧
      put.2.info.route = t.stream.board.info.route ∧
        put.2.info.host = t.stream.board.info.host := by
    rw [← hput]
    exact ⟨rfl, rfl, ⟨rfl, rfl⟩, rfl, rfl⟩
  cases put.1.message.code? with
  | none =>
    dsimp only
    split
    case h_3 =>
      exact .written hp
        ((written hlog ho hr hn _ _).trans (.note _ ⟨⟨rfl, rfl⟩, rfl, rfl⟩))
    all_goals exact .written hp (written hlog ho hr hn _ _)
  | some code =>
    have coded (response answer) := written (b := { put.2 with info := { put.2.info with
      code := some code } }) hlog ho hr hn response answer
    dsimp only
    split
    case h_3 => exact .written hp ((coded _ _).trans (.note _ ⟨⟨rfl, rfl⟩, rfl, rfl⟩))
    all_goals exact .written hp (coded _ _)

/-- **Every phase executed** deals with routes, hosts and requests as phases do. -/
theorem deals_execute (ho : t.stream.board.owned = true) :
    t.stream.Deals c t.env k (t.execute c k).1 (t.execute c k).2.stream := by
  have filtered (point : RequestPoint) (hp : t.stream.phase = point.phase) :
      t.stream.Deals c t.env k (t.entered.stream.filterRequest c.behaviour point k).1
        (t.entered.stream.filterRequest c.behaviour point k).2 :=
    .filters hp (.of_concludes (concludes_filterRequest ho))
  have late {p : Phase} (hp : t.stream.phase = p) (hlt : Phase.forward < p) :
      t.stream.phase = .init ∨ .forward < t.stream.phase := .inr (hp ▸ hlt)
  unfold execute step
  split
  case h_1 hp => exact .apart (.inl hp) (.stays (.refl _))
  case h_2 hp => exact filtered .beforeRoute hp
  case h_3 hp => exact deals_matchRoute c k hp
  case h_4 hp => exact filtered .afterRoute hp
  case h_5 hp => exact deals_chooseHost c k hp
  case h_6 hp => exact filtered .afterHost hp
  case h_7 hp => exact deals_forward c k hp
  case h_8 hp => exact .apart (late hp (by decide)) (.stays (.refl _))
  case h_9 hp => exact .apart (late hp (by decide)) (.filterResponse c.behaviour ho)
  case h_10 hp => exact deals_respond c k hp
  case h_11 hp => exact .apart (late hp (by decide)) (.stays (.refl _))

end Turn

end FilterProxy

import FilterProxy.Proofs.Dealings

/-!
# Proofs/Routing — a request goes where its route leads

Request filters may send a stream to routing or to the choice of a host from wherever they run, be
it back or ahead, and the table may be another at every look-up.  Still **a request is forwarded to
the host chosen last, on the route found last, as the filters left it** (`forwards_latest`): a
stream is kept on its track (`Stream.OnTrack`) by every phase up to the forwarding.
-/

namespace FilterProxy

variable {σ ε : Type}

open Board FilterSet FilterProxy.Stream Life

namespace Event

/-- A collaborator short of the client is called. -/
def isInquiry (e : Event σ) : Bool := e.isOutward && !e.isWriting

/-- A route is looked up, or a host is chosen. -/
def isBearing : Event σ → Bool
  | .routed _ _ | .chosen _ _ _ => true
  | _ => false

/-- A route is looked up. -/
def isRouting : Event σ → Bool
  | .routed _ _ => true
  | _ => false

/-- A request filter is called. -/
def isRequestCall : Event σ → Bool
  | .called .request _ _ _ _ => true
  | _ => false

variable {e : Event σ}

theorem Framed.isInquiry (h : e.Framed) : e.isInquiry = false := by
  rw [Event.isInquiry, h.outward, Bool.false_and]

theorem isInquiry_of_isUpward (h : e.isUpward = false) : e.isInquiry = false := by
  cases e <;> first | rfl | cases h

theorem isBearing_of_isInquiry (h : e.isInquiry = false) : e.isBearing = false := by
  cases e <;> first | rfl | cases h

theorem isRouting_of_isInquiry (h : e.isInquiry = false) : e.isRouting = false := by
  cases e <;> first | rfl | cases h

theorem isRequestCall_of_isUpward (h : e.isUpward = false) : e.isRequestCall = false := by
  cases e with
  | called side => cases side <;> first | rfl | cases h
  | _ => rfl

end Event

/-- What the work does not log is last where it was. -/
theorem Board.Frame.find?_eq {A : Event σ → Prop} {b b' : Board σ} (h : Frame A b b')
    {p : Event σ → Bool} (hp : ∀ e, A e → p e = false) : b'.log.find? p = b.log.find? p := by
  obtain ⟨new, hlog, hnew⟩ := h.log
  have hnone : new.find? p = none :=
    List.find?_eq_none.mpr fun e he => Bool.eq_false_iff.mp (hp e (hnew e he))
  rw [hlog, List.find?_append, hnone, Option.none_or]

/-! ## Calls -/

/-- **What the collaborators short of the client are called for**, each in its phase: a route for
the request's headers, a host of the stream's route, and the hand-over of the request to the
stream's host. -/
inductive Turn.Calls (c : Surroundings σ ε) (t : Turn σ ε) : Event σ → Prop
  | routed (hp : t.stream.phase = .matchRoute) :
      Calls c t (.routed t.stream.asked ((c.reload t.env c.routing).1.find t.stream.asked))
  | chosen {route} (hp : t.stream.phase = .chooseHost) (hr : t.stream.board.route = some route) :
      Calls c t (.chosen route t.stream.asked (c.choose t.env route t.stream.asked).1)
  | forwarded {host} (hp : t.stream.phase = .forward) (hh : t.stream.host = some host) :
      Calls c t (.forwarded host t.stream.request
        (c.forward t.env t.stream.board.context.id host t.stream.request).1)

namespace Turn

variable {c : Surroundings σ ε} {t : Turn σ ε} {e : Event σ}

theorem Calls.isInquiry (h : t.Calls c e) : e.isInquiry = true := by cases h <;> rfl

/-- **What a turn is to call, it calls**, first thing. -/
theorem Calls.suffix_execute (h : t.Calls c e) (k : Nat) :
    e :: t.stream.entered.board.log <:+ (t.execute c k).2.stream.board.log := by
  cases h with
  | routed hp =>
    have hexec : t.execute c k = t.entered.matchRoute c := by
      unfold execute step
      rw [show t.stream.entered.phase = .matchRoute from hp]
    rw [hexec, matchRoute]
    dsimp only
    split <;> exact List.suffix_refl _
  | @chosen route hp hr =>
    have hexec : t.execute c k = t.entered.chooseHost c := by
      unfold execute step
      rw [show t.stream.entered.phase = .chooseHost from hp]
    rw [hexec, chooseHost, show t.entered.stream.board.route = some route from hr]
    dsimp only
    split <;> exact List.suffix_refl _
  | @forwarded host hp hh =>
    have hexec : t.execute c k = t.entered.forward c := by
      unfold execute step
      rw [show t.stream.entered.phase = .forward from hp]
    rw [hexec, forward, show t.entered.stream.host = some host from hh]
    dsimp only
    obtain ⟨new, hlog, -⟩ := (frame_answer (t.stream.consigned c t.env host)
      (c.forward t.env t.stream.board.context.id host t.stream.request).1.handover).log
    split <;> exact ⟨new, hlog.symm⟩

end Turn

/-- What a turn logs in the course of some deeds is found in the log… -/
theorem Life.Acts.suffix_execute {id : StreamId} {settings : Settings} {deeds : List (Deed σ ε)}
    {c : Surroundings σ ε} {k : Nat} {t : Turn σ ε} (ha : Acts id settings deeds c k t) :
    (t.execute c k).2.stream.board.log <:+ (after id settings deeds).log := by
  obtain @⟨before, d, more, _, _, _, rfl, ht⟩ := ha
  have h : Reached none (after id settings before) := reached_after id settings before
  obtain ⟨hl, ho, r, hdrives, hnext⟩ := ht.drives h
  obtain ⟨new, hsurvived, -⟩ := Reached.survive_log r.1 r.2.stream
  have hdriven : r.2.stream.board.log <:+ ((after id settings before).next d).log :=
    ⟨new, by rw [Life.log, hnext, hsurvived]⟩
  have hmore := (h.next_deed d).suffix_foldl more
  rw [after_append]
  exact ((hdrives.suffix_execute ho hl).trans hdriven).trans hmore

/-- …and so is what it calls. -/
theorem Life.Acts.suffix_log {id : StreamId} {settings : Settings} {deeds : List (Deed σ ε)}
    {c : Surroundings σ ε} {k : Nat} {t : Turn σ ε} {e : Event σ}
    (ha : Acts id settings deeds c k t) (he : t.Calls c e) :
    e :: .entered t.stream.phase :: t.stream.board.log <:+ (after id settings deeds).log :=
  (he.suffix_execute k).trans ha.suffix_execute

/-- **The event is a call of a turn**, the first thing it does. -/
def Event.Located (A : Surroundings σ ε → Nat → Turn σ ε → Prop) (e : Event σ)
    (older : List (Event σ)) : Prop :=
  e.isInquiry = true → ∃ c k t, A c k t ∧ t.Calls c e ∧
    older = .entered t.stream.phase :: t.stream.board.log

section

variable {A : Surroundings σ ε → Nat → Turn σ ε → Prop}

/-- Framed work calls no collaborator. -/
theorem Throughout.located {b b' : Board σ} (h : Throughout (Event.Located A) b.log)
    (hb : Frame (·.isInquiry = false) b b') : Throughout (Event.Located A) b'.log := by
  obtain ⟨new, hlog, hnew⟩ := hb.log
  rw [hlog]
  refine h.append fun newer e added hsplit he => ?_
  have hn : e.isInquiry = false := hnew e (hsplit ▸ List.mem_append_cons_self)
  cases he.symm.trans hn

/-! ## The request as the filters left it -/

/-- **The request is as the request filters left it**: as it was handed over while none was called,
and then as the one called last left it. -/
inductive HandedOn (A : Surroundings σ ε → Nat → Turn σ ε → Prop) (log : List (Event σ))
    (m : Message) : Prop
  | received {r} (hr : .scheduled (.receive r) ∈ log) (hm : m.filled = r.filled)
      (hn : ∀ e ∈ log, e.isRequestCall = false)
  /-- In some turn the filter `f` at position `i` was called on the workbench `w`, and none
  since. -/
  | called {c k t i f newer} {point : RequestPoint} {w : Workbench σ} (ha : A c k t)
      (hp : t.stream.phase = point.phase) (hf : f.seat = i)
        (hw : Moves t.stream.entered.board w.board)
      (hlog : log = newer ++ (callRequest c.behaviour i f w).state.board.log)
      (hn : ∀ e ∈ newer, e.isRequestCall = false)
      (hm : m = (callRequest c.behaviour i f w).state.parts.message)

namespace HandedOn

variable {log new : List (Event σ)} {m : Message}

theorem append (h : HandedOn A log m) (hnew : ∀ e ∈ new, e.isRequestCall = false) :
    HandedOn A (new ++ log) m := by
  have later {newer : List (Event σ)} (hn : ∀ e ∈ newer, e.isRequestCall = false) :
      ∀ e ∈ new ++ newer, e.isRequestCall = false := fun e he =>
    (List.mem_append.mp he).elim (hnew e) (hn e)
  cases h with
  | received hr hm hn => exact .received (List.mem_append_right new hr) hm (later hn)
  | called ha hp hf hw hlog hn hm =>
    exact .called ha hp hf hw (by rw [hlog, List.append_assoc]) (later hn) hm

/-- Parts that are absent count as empty. -/
theorem filled (h : HandedOn A log m) : HandedOn A log m.filled := by
  cases h with
  | received hr hm hn => exact .received hr hm hn
  | called ha hp hf hw hlog hn hm => exact .called ha hp hf hw hlog hn (by rw [hm]; rfl)

end HandedOn

/-- **A pass leaves the parts as the filter called last left them**, if it called any. -/
theorem FilterSet.last_passRequests (β : Behaviour σ) (point : RequestPoint) (start : Nat)
    (convert : Converter) (s : FilterSet σ) (w : Workbench σ) (ho : w.board.owned = true) :
    let r := passRequests β point start convert s w
    r.bench.board.log = .passed point r.result :: w.board.log ∧ r.bench.parts = w.parts ∨
      ∃ i f v, (s.requests[i]?).map (·.filter) = some f ∧ Moves w.board v.board ∧ r.bench.board.log
          = .passed point r.result :: (callRequest β i f v).state.board.log ∧
        r.bench.parts = (callRequest β i f v).state.parts := by
  have hstart : Moves w.board { w.board with point := some point } :=
    .single (.edit ⟨rfl, rfl, rfl, rfl, rfl, .inl rfl, id⟩)
  have hcall (i : Nat) (f : Seated σ) (v : Workbench σ) (hv : Moves w.board v.board) :
      Moves w.board (callRequest β i f v).state.board :=
    hv.trans ((walked_callRequest β i f v).moves (fun _ => Event.isQuiet_of_inPass)
      (hv.owned.trans ho))
  obtain ⟨is, hpass⟩ : ∃ is, Chain.Passes point start convert (callRequest β) none 0 s.requests
      { w with board := { w.board with point := some point } } is _ :=
    Chain.passes_passFrom none 0 s.requests _
  intro r
  -- what is left upon the pass is what its last call left, but for the note of its end
  have hleft {v : Workbench σ} (hv : (Chain.pass point start convert (callRequest β) s.requests
      { w with board := { w.board with point := some point } }).state = v) :
      r.bench.board.log = .passed point r.result :: v.board.log ∧ r.bench.parts = v.parts := by
    subst hv
    unfold r passRequests
    dsimp only
    split <;> exact ⟨rfl, rfl⟩
  rcases hpass.last (P := fun v => Moves w.board v.board) hcall hstart with
    ⟨-, hstate⟩ | ⟨i, f, v, -, hf, hv, hstate⟩
  · have hnone := hleft hstate
    exact .inl hnone
  · exact .inr ⟨i, f, v, hf, hv, hleft hstate⟩

/-- **A pass hands the request on as the filters left it.** -/
theorem HandedOn.passed {c : Surroundings σ ε} {env : ε} {k : Nat} {s : Stream σ}
    {point : RequestPoint}
    (h : HandedOn A s.board.log s.request) (ha : A c k ⟨s, env⟩) (hp : s.phase = point.phase)
    (hi : s.filters.InPlace) (ho : s.board.owned = true) :
      HandedOn A (s.passed c.behaviour point k).board.log
      (s.passed c.behaviour point k).request := by
  have hpass := last_passRequests c.behaviour point k s.settings.convert s.entered.filters
    ⟨s.entered.board, s.request.parts⟩ ho
  change HandedOn A (s.pass c.behaviour point k).bench.board.log
    (s.pass c.behaviour point k).bench.parts.message
  unfold Stream.pass
  rcases hpass with ⟨hlog, hparts⟩ | ⟨i, f, v, hf, hv, hlog, hparts⟩
  · have hentered : HandedOn A s.entered.board.log s.request :=
      h.append (List.forall_mem_singleton.mpr rfl)
    rw [hlog, hparts]
    exact (hentered.append (List.forall_mem_singleton.mpr rfl)).filled
  · rw [hlog, hparts]
    exact .called ha hp (hi.seat_request hf) hv List.singleton_append.symm
      (List.forall_mem_singleton.mpr rfl) rfl

/-! ## The track -/

namespace Stream

/-- **The route of a stream is the one found last**, and its name is noted. -/
def Guided (s : Stream σ) : Prop := ∀ route, s.board.route = some route →
  s.board.info.route = some route.name ∧
    ∃ headers, s.board.log.find? Event.isRouting = some (.routed headers (.ok (some route)))

/-- **The stream has a host**, the one chosen last, on the stream's route; its address is noted, and
no route was looked up since. -/
def Lodged (s : Stream σ) : Prop := ∃ host route headers,
  s.host = some host ∧ s.board.route = some route ∧ s.board.info.host = some host.address ∧
    s.board.log.find? Event.isBearing = some (.chosen route headers (.ok (.ok host)))

/-- **The stream is on its track** for the phase `p`: from the choice of a host on, it has one. -/
structure OnTrack (A : Surroundings σ ε → Nat → Turn σ ε → Prop) (p : Phase) (s : Stream σ) :
    Prop where
  guided : s.Guided
  lodged : .filterHosted ≤ p → s.Lodged
  handed : HandedOn A s.board.log s.request

variable {s s' : Stream σ} {p q : Phase}

theorem Guided.frame (h : s.Guided) (hb : s.board.Frame (·.isInquiry = false) s'.board)
    (hc : s'.board.claimed = false) : s'.Guided := by
  intro route hr
  rw [hb.route_eq hc] at hr
  rw [hb.named.1, hb.find?_eq fun _ => Event.isRouting_of_isInquiry]
  exact h route hr

theorem Lodged.frame (h : s.Lodged) (hb : s.board.Frame (·.isInquiry = false) s'.board)
    (hc : s'.board.claimed = false) (hh : s'.host = s.host) : s'.Lodged := by
  obtain ⟨host, route, headers, hhost, hroute, hnamed, hlast⟩ := h
  refine ⟨host, route, headers, hh.trans hhost, (hb.route_eq hc).trans hroute,
    hb.named.2.trans hnamed, ?_⟩
  rw [hb.find?_eq fun _ => Event.isBearing_of_isInquiry]
  exact hlast

/-- What is quiet calls no collaborator… -/
theorem Quiet.frame (h : s.Quiet s') : s.board.Frame (·.isInquiry = false) s'.board :=
  h.board.mono fun _ => Event.isInquiry_of_isUpward

/-- …and no request filter. -/
theorem Quiet.handedOn (h : s.Quiet s') (hs : HandedOn A s.board.log s.request) :
    HandedOn A s'.board.log s'.request := by
  obtain ⟨new, hlog, hnew⟩ := h.board.log
  rw [hlog, h.request]
  exact hs.append fun e he => Event.isRequestCall_of_isUpward (hnew e he)

theorem Quiet.entered (s : Stream σ) : s.Quiet s.entered := .note s rfl

namespace OnTrack

/-- A stream that does something quiet stays on its track… -/
theorem quiet (h : s.OnTrack A p) (hq : s.Quiet s') (hc : s'.board.claimed = false) :
    s'.OnTrack A p where
  guided := h.guided.frame hq.frame hc
  lodged hp := (h.lodged hp).frame hq.frame hc hq.host
  handed := hq.handedOn h.handed

/-- …and so does one that makes a pass over its request filters. -/
theorem passed {c : Surroundings σ ε} {env : ε} {k : Nat} {point : RequestPoint}
    (h : s.OnTrack A p) (ha : A c k ⟨s, env⟩) (hp : s.phase = point.phase) (hi : s.filters.InPlace)
    (ho : s.board.owned = true) (hc : (s.passed c.behaviour point k).board.claimed = false) :
    (s.passed c.behaviour point k).OnTrack A p := by
  have hframe := (frame_passed c.behaviour point k ho).mono fun _ => Event.Framed.isInquiry
  exact ⟨h.guided.frame hframe hc, fun hle => (h.lodged hle).frame hframe hc rfl,
    h.handed.passed ha hp hi ho⟩

/-- A track leads back as well. -/
theorem redirect (h : s.OnTrack A p) (hq : .filterHosted ≤ q → .filterHosted ≤ p) : s.OnTrack A q :=
  ⟨h.guided, fun hle => h.lodged (hq hle), h.handed⟩

end OnTrack

namespace Deals

variable {c : Surroundings σ ε} {env : ε} {k : Nat} {step : Step}

/-- **Whatever a phase calls, it is called for.** -/
theorem located (h : s.Deals c env k step s') (ha : A c k ⟨s, env⟩) (ho : s.board.owned = true)
    (hlog : Throughout (Event.Located A) s.board.log) :
    Throughout (Event.Located A) s'.board.log := by
  have hentered : Throughout (Event.Located A) s.entered.board.log :=
    hlog.located (Quiet.entered s).frame
  have calls {e : Event σ} (he : Turn.Calls c ⟨s, env⟩ e) :
      Throughout (Event.Located A) (e :: s.entered.board.log) :=
    Throughout.cons_iff.mpr ⟨fun _ => ⟨c, k, _, ha, he, rfl⟩, hentered⟩
  cases h with
  | apart _ h => exact hentered.located (Quiet.of_settles h).frame
  | lacking => exact hentered
  | @filters _ _ point _ h =>
    have hpassed := (frame_passed c.behaviour point k ho).mono fun _ => Event.Framed.isInquiry
    exact (hlog.located hpassed).located (Quiet.of_settles h).frame
  | routed hp => exact calls (.routed hp)
  | astray hp => exact calls (.routed hp)
  | chosen hp hr => exact calls (.chosen hp hr)
  | refused hp hr => exact calls (.chosen hp hr)
  | forwarded hp hh h =>
    exact Throughout.located (b := (s.consigned c env _).board) (calls (.forwarded hp hh))
      (Quiet.of_stays h).frame
  | @written response answer _ _ _ h =>
    have hwritten :
      Throughout (Event.Located A) (s.entered.note (.written response answer)).board.log :=
      hentered.located (Quiet.note s.entered rfl).frame
    exact hwritten.located (Quiet.of_stays h).frame

/-- A phase that receives the request or filters it keeps the stream on its track. -/
theorem onTrack (h : s.Deals c env k step s') (hs : s.OnTrack A s.phase) (ha : A c k ⟨s, env⟩)
    (hi : s.filters.InPlace) (ho : s.board.owned = true) (hc : s'.board.claimed = false)
    (hp : s.phase = .init ∨ s.phase.side? = some .request) : s'.OnTrack A s.phase := by
  have other {q : Phase} (hq : s.phase = q) (hn : ¬ (q = .init ∨ q.side? = some .request)) :
      s'.OnTrack A s.phase := absurd (hq ▸ hp) hn
  cases h with
  | apart _ h => exact hs.quiet ((Quiet.entered s).trans (.of_settles h)) hc
  | filters hp h =>
    have hquiet := Quiet.of_settles h
    exact (hs.passed ha hp hi ho (hquiet.board.unclaimed hc)).quiet hquiet hc
  | lacking hp => rcases hp with ⟨hp, -⟩ | ⟨hp, -⟩ <;> exact other hp (by decide)
  | routed hp => exact other hp (by decide)
  | astray hp => exact other hp (by decide)
  | chosen hp => exact other hp (by decide)
  | refused hp => exact other hp (by decide)
  | forwarded hp => exact other hp (by decide)
  | written hp => exact other hp (by decide)

/-- **A phase short of the forwarding leads the stream on its track.** -/
theorem onTrack_next (h : s.Deals c env k .next s') (hs : s.OnTrack A s.phase)
    (ha : A c k ⟨s, env⟩) (hi : s.filters.InPlace) (ho : s.board.owned = true)
    (hl : s.board.claimed = false)
    (hc : s'.board.claimed = false) (hp : s.phase < .forward) : s'.OnTrack A s.phase.next := by
  have hkept := h.onTrack hs ha hi ho hc
  have hentered : s.entered.OnTrack A s.phase := hs.quiet (.entered s) hl
  have called {e : Event σ} (he : e.isRequestCall = false) :
      HandedOn A (e :: s.entered.board.log) s.request :=
    hentered.handed.append (List.forall_mem_singleton.mpr he)
  cases h with
  | apart hp' _ =>
    rcases hp' with hinit | hlt
    · exact (hkept (.inl hinit)).redirect (by rw [hinit]; decide)
    · exact absurd hp (Nat.lt_asymm hlt)
  | @filters _ _ point hp' _ =>
    refine (hkept (.inr (by rw [hp', RequestPoint.side?_phase]))).redirect ?_
    rw [hp']
    cases point <;> decide
  | @routed route hp' hfound =>
    have hlast : (s.inquired c env).board.log.find? Event.isRouting
        = some (.routed s.asked (.ok (some route))) := by rw [← hfound]; rfl
    refine ⟨fun route' hroute => ?_, fun hle => absurd (hp' ▸ hle) (by decide), called rfl⟩
    obtain rfl : route = route' := Option.some.inj hroute
    exact ⟨rfl, s.asked, hlast⟩
  | @chosen route host hp' hroute hfound =>
    have hlast : (s.bespoken c env route).board.log.find? Event.isBearing
        = some (.chosen route s.asked (.ok (.ok host))) := by rw [← hfound]; rfl
    exact ⟨hentered.guided, fun _ => ⟨host, route, s.asked, rfl, hroute, rfl, hlast⟩, called rfl⟩
  | lacking _ hlast => cases hlast
  | astray _ hlast => cases hlast
  | refused _ _ hlast => cases hlast
  | forwarded hp' => exact absurd hp (by rw [hp']; decide)
  | written hp' => exact absurd hp (by rw [hp']; decide)

end Deals

/-- Where a phase leads, the stream is quiet on the way. -/
theorem Proceeds.quiet {step : Step} {start : Option Nat} (h : s.Proceeds step start s') :
    s.Quiet s' := by
  cases h with
  | next => exact ⟨frame_note rfl, rfl, rfl⟩
  | goto => exact ⟨.refl s.board, rfl, rfl⟩
  | jump => exact ⟨frame_note rfl, rfl, rfl⟩
  | stay => exact .of_stays (.refl s)

/-- **What is known of a stream** about to execute a phase up to the forwarding, or waiting for a
request filter: it is on its track.  And before it is started its route is one it found, if it has
any. -/
def Tracked (A : Surroundings σ ε → Nat → Turn σ ε → Prop) : Option Nat → Stream σ → Prop
  | some _, s => s.phase ≤ .forward → s.OnTrack A s.phase
  | none, s => (s.phase = .init → s.Guided) ∧
      (s.phase.side? = some .request → s.OnTrack A s.phase)

theorem Tracked.stays (h : s.Tracked A none) (hs : s.Stays s') (hc : s'.board.claimed = false) :
    s'.Tracked A none := by
  have hquiet : s.Quiet s' := .of_stays hs
  rw [Tracked, hs.phase]
  exact ⟨fun hp => (h.1 hp).frame hquiet.frame hc, fun hp => (h.2 hp).quiet hquiet hc⟩

/-- **Executing a phase keeps a stream on its track**, wherever it leads. -/
theorem Deals.tracked {c : Surroundings σ ε} {env : ε} {k : Nat} {step : Step} {start : Option Nat}
    {t : Stream σ} {new : List (Event σ)} {is : List Nat} (h : s.Deals c env k step t)
    (hs : s.Tracked A (some k)) (hl : s.Live) (ha : A c k ⟨s, env⟩) (hi : s.filters.InPlace)
    (ho : s.board.owned = true)
    (hx : Executed k s.entered step t new is) (hp : t.Proceeds step start s')
    (hc : s'.board.claimed = false) : s'.Tracked A start := by
  have hquiet := hp.quiet
  have hc' := hquiet.board.unclaimed hc
  have hphase : t.phase = s.phase := hx.phase
  have hkept (hp : s.phase = .init ∨ s.phase.side? = some .request) : t.OnTrack A s.phase := by
    refine h.onTrack (hs ?_) ha hi ho hc' hp
    revert hp
    cases s.phase <;> decide
  cases hp with
  | next =>
    rw [Tracked, advanced_phase, hphase]
    intro hle
    have hlt : s.phase < .forward := by
      revert hle
      cases s.phase <;> decide
    exact (h.onTrack_next (hs (Nat.le_of_lt hlt)) ha hi ho hl.unclaimed hc' hlt).quiet hquiet hc
  | goto =>
    obtain ⟨-, -, rfl⟩ := hx.of_goto
    exact fun hle => absurd hle (show ¬ Phase.filterResponse ≤ Phase.forward by decide)
  | @jump q =>
    obtain ⟨point, hpoint, hq⟩ := hx.of_jump
    have htrack := hkept (.inr (by rw [hpoint, RequestPoint.side?_phase]))
    refine fun _ => (htrack.redirect (q := q) fun hlate => ?_).quiet hquiet hc
    rcases hq with rfl | rfl <;> exact absurd hlate (by decide)
  | stay =>
    rw [Tracked, hphase]
    exact ⟨fun hp => (hkept (.inl hp)).guided, fun hp => hkept (.inr hp)⟩

end Stream

/-- No request filter was called before the stream is started. -/
theorem Reached.uncalled {l : Life σ} (h : Reached none l) (hc : l.stream.board.claimed = false)
    (hp : l.stream.phase = .init) : ∀ e ∈ l.log, e.isRequestCall = false := by
  have hentries : entries l.log = [] := by
    rcases h.onCourse.standing hc with ⟨-, hnone⟩ | ⟨hinit, -⟩
    · exact hnone
    · exact absurd hp hinit
  refine fun e he => Bool.eq_false_iff.mpr fun hcall => ?_
  obtain ⟨newer, older, hsplit⟩ := List.append_of_mem he
  have hplaced : e.isPlaced = true := by
    cases e with
    | called side => cases side <;> first | rfl | cases hcall
    | _ => cases hcall
  obtain ⟨p, hlast, -⟩ := (h.onCourse.lawful newer e older hsplit).place hplaced
  have hmem : p ∈ entries l.log := by
    rw [hsplit, entries, List.filterMap_append, List.mem_append, filterMap_cons_toList]
    exact .inr (List.mem_append_right _ (List.mem_of_head? hlast))
  rw [hentries] at hmem
  cases hmem

theorem Stream.Opens.frame {s s' : Stream σ} {job : Job} {k : Nat} (h : s.Opens job k s') :
    s.board.Frame (·.isInquiry = false) s'.board := by
  have noted {b : Board σ} {e : Event σ} (he : e.isInquiry = false)
      (hlog : b.log = e :: s.board.log) (ho : b.owned = s.board.owned)
      (hr : b.claimed = s.board.claimed ∧ b.route = s.board.route)
      (hn : b.info.route = s.board.info.route ∧ b.info.host = s.board.info.host) :
      s.board.Frame (·.isInquiry = false) b :=
    ⟨⟨[e], hlog, List.forall_mem_singleton.mpr he⟩, ho, .inl hr, hn⟩
  cases h with
  | receive => exact .refl s.board
  | resume => exact frame_publish rfl
  | reroute => exact noted (e := .published .running) rfl rfl rfl ⟨rfl, rfl⟩ ⟨rfl, rfl⟩
  | response =>
    exact noted (e := .stat (.phaseCompleted .awaitResponse)) rfl rfl rfl ⟨rfl, rfl⟩ ⟨rfl, rfl⟩

/-- **A stream that is opened** up to the forwarding goes on on its track. -/
theorem Stream.Tracked.opened {l : Life σ} (ht : l.stream.Tracked A none) (h : Reached none l)
    {p : Posting} {k : Nat} {s : Stream σ} (hp : l.Due p) (ho : l.stream.Opens p.job k s) :
    s.Tracked A (some k) := by
  generalize hj : p.job = job at ho
  intro hle
  cases ho with
  | @receive m hc hinit =>
    have hmem : .scheduled (.receive m) ∈ l.log := mem_of_posted hp.mem_posted hj nofun
    have hguided := ht.1 hinit
    exact ⟨hguided, fun hlate => absurd (hinit ▸ hlate) (by decide),
      .received hmem rfl (h.uncalled hc hinit)⟩
  | @resume _ index hc hpaused =>
    have hside : l.stream.phase.side? = some .request := by
      have hsome := h.poised index hpaused
      revert hsome hle
      change l.stream.phase ≤ .forward → _
      cases l.stream.phase <;> decide
    have hquiet : l.stream.Quiet l.stream.woken := ⟨frame_publish rfl, rfl, rfl⟩
    exact (ht.2 hside).quiet hquiet hc
  | reroute => exact absurd hle (show ¬ Phase.filterResponse ≤ Phase.forward by decide)
  | response => exact absurd hle (show ¬ Phase.filterResponse ≤ Phase.forward by decide)

/-- **Streams keep to their tracks**, and whatever is called is called for. -/
theorem carries_tracked (settings : Settings) : Carries A settings fun start l =>
    Throughout (Event.Located A) l.log ∧
      (l.stream.board.claimed = false → l.stream.Tracked A start) where
  fresh id := ⟨Throughout.cons_iff.mpr ⟨nofun, .nil⟩, fun _ => ⟨nofun, nofun⟩⟩
  beside _ hl hb _ := ⟨hl.1.located (hb.board.mono fun _ => Event.Framed.isInquiry),
    fun hc => (hl.2 (hb.board.unclaimed hc)).stays (hb.stays hc) hc⟩
  spent _ hl _ hb _ := ⟨hl.1.located (hb.board.mono fun _ => Event.Framed.isInquiry),
    fun hc => (hl.2 (hb.board.unclaimed hc)).stays (hb.stays hc) hc⟩
  opened h hl hp ho := ⟨hl.1.located ho.frame, fun _ => (hl.2 ho.unclaimed).opened h hp ho⟩
  halt _ hl hc := ⟨hl.1, fun hc' => absurd (hc.symm.trans hc') nofun⟩
  executed {l c env k step t' start s} h hl hlive ha hx hs := by
    have ho := h.orderly.books.owned
    have hdeals := Turn.deals_execute c k (t := ⟨l.stream, env⟩) ho
    obtain ⟨new, is, hexec⟩ := Turn.executed_execute (t := ⟨l.stream, env⟩) hlive ho hx
    rw [hx] at hdeals
    exact ⟨(hdeals.located ha ho hl.1).located hs.quiet.frame,
      hdeals.tracked (hl.2 hlive.unclaimed) hlive ha h.inPlace ho hexec hs⟩

end

/-! ## What is forwarded -/

/-- **The stream is bound** for a host on a route: it has both and both are noted, the host was
chosen last, on that route, and the route was found last, before the host. -/
structure Stream.Bound (s : Stream σ) (host : Host) (route : Route) : Prop where
  lodged : s.host = some host
  guided : s.board.route = some route
  noted : s.board.info.route = some route.name ∧ s.board.info.host = some host.address
  chosen : ∃ headers, s.board.log.find? Event.isBearing
    = some (.chosen route headers (.ok (.ok host)))
  found : ∃ headers, s.board.log.find? Event.isRouting = some (.routed headers (.ok (some route)))

theorem Stream.OnTrack.bound {A : Surroundings σ ε → Nat → Turn σ ε → Prop}
    {s : Stream σ} {p : Phase}
    (h : s.OnTrack A p) (hp : .filterHosted ≤ p) : ∃ host route, s.Bound host route := by
  obtain ⟨host, route, headers, hhost, hroute, hnoted, hchosen⟩ := h.lodged hp
  obtain ⟨hnamed, hfound⟩ := h.guided route hroute
  exact ⟨host, route, hhost, hroute, ⟨hnamed, hnoted⟩, ⟨headers, hchosen⟩, hfound⟩

/-- **A request is forwarded to the host chosen last, on the route found last.**  The calls of
collaborators short of the client are those of turns, each in its phase and for what the stream then
has: routing for a route, by the table then in force, for the headers of its request, clusters for a
host of its route, and the transport with its request and its host.  The request is the one the
filters left, and a stream about to forward it has a host and is bound for it. -/
theorem forwards_latest (id : StreamId) (settings : Settings) (deeds : List (Deed σ ε)) :
    let A := Acts id settings deeds
    (∀ e older, e.isInquiry = true ∧ e :: older <:+ (after id settings deeds).log ↔
      ∃ c k t, A c k t ∧ t.Calls c e ∧ older = .entered t.stream.phase :: t.stream.board.log) ∧
    ∀ c k t, A c k t → t.stream.phase ≤ .forward →
      HandedOn A t.stream.board.log t.stream.request ∧
      (t.stream.phase = .forward → ∃ host route, t.stream.Bound host route) := by
  intro A
  have hcarries : Carries A settings _ := carries_tracked settings
  refine ⟨fun e older => ⟨?_, ?_⟩, fun c k t ha hle => ?_⟩
  · rintro ⟨he, newer, hsplit⟩
    exact hcarries.after.1 newer e older hsplit.symm he
  · rintro ⟨c, k, t, ha, he, rfl⟩
    exact ⟨he.isInquiry, ha.suffix_log he⟩
  obtain ⟨l, hstream, hlive, -, -, htracked⟩ := hcarries.acts ha
  rw [hstream] at htracked
  have htrack := htracked hlive.unclaimed hle
  exact ⟨htrack.handed, fun hp => htrack.bound (by rw [hp]; decide)⟩

/-- Another table is put in force once a route was looked up, and every cluster is its own host. -/
def reloading : Surroundings (List Verdict) Nat where
  behaviour := foreseen
  reload n _ := (⟨some fun _ => .ok (some ⟨if n = 0 then "old" else "new", "hosts"⟩)⟩, n + 1)
  choose n route _ := (.ok (.ok ⟨route.name, route.cluster⟩), n)
  forward n _ _ _ := ({ handover := .dropped }, n)
  write n _ _ := (.ok (.ok ()), n)

/-- Sent back to routing once its host is known, a stream forwards its request to where the other
table leads. -/
example :
    let l := after ⟨1⟩ {} [.add foreseen (.request [.rematch] .afterHost), .receive {},
      .run ⟨.receive {}, false⟩ reloading 0]
    l.stream.board.info.host = some "new" ∧ l.log.countP Event.isForwarding = 1 := by
  decide +kernel

end FilterProxy

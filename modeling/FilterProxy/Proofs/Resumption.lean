import FilterProxy.Proofs.Places
import FilterProxy.Proofs.Rounds

/-!
# Proofs/Resumption — a filter ends its own pause only

A pause is brought about by the stop of one filter (`Life.StoppedBy`), and **the call to go on that
comes through a filter's handle is heeded iff the stream is paused by that filter's stop**, on its
side and at its place.
-/

namespace FilterProxy

variable {σ ε : Type}

open Board FilterSet FilterProxy.Stream Life

/-! ## The stop that paused a stream -/

/-- **The filter at `i` of `side` stops the turn**: it is called last, and its answer counts as a
stop. -/
inductive Turn.StopsAt (c : Surroundings σ ε) (k : Nat) (t : Turn σ ε) : Side → Nat → Prop
  | request {point : RequestPoint} {before v raw} (hp : t.stream.phase = point.phase)
      (hv : t.stream.filters.requests.visits point k t.stream.settings.convert
        (callRequest c.behaviour)
        ⟨{ t.stream.entered.board with point := some point }, t.stream.request.parts⟩
          = before ++ [v])
      (ha : v.left.answer = .ok raw) (hc : t.stream.settings.convert raw = .ok .stop) :
      StopsAt c k t .request v.index
  | response {before v} (hp : t.stream.phase = .filterResponse)
      (hv : t.stream.filters.responses.visits .beforeSend k .keep (callResponse c.behaviour)
        ⟨t.stream.entered.board.closeReply.2, t.stream.response.parts⟩ = before ++ [v])
      (ha : v.left.answer = .ok .stop) : StopsAt c k t .response v.index

/-- A pass that is stopped called the filter last that stopped it. -/
theorem Chain.Meets.of_stopped {φ π ω : Type} [DecidableEq π] {point : π} {start n : Nat}
    {convert : Converter}
    {call : Nat → φ → ω → Called φ ω} {chain : Chain φ π} {w : ω} {visits : List (Visit φ ω)}
    {r : Passed φ π ω} (h : Meets point start convert call chain w visits r)
    (hr : r.result = .ok (.stopped n)) :
    ∃ before v raw, visits = before ++ [v] ∧ v.index = n ∧ v.left.answer = .ok raw ∧
      convert raw = .ok .stop := by
  have hc := h.concludes
  rw [hr] at hc
  generalize hout : (Except.ok (Outcome.stopped n) : Except Panic Outcome) = result at hc
  cases hc with
  | @stop before v raw hw ha hc =>
    obtain rfl := Outcome.stopped.inj (Except.ok.inj hout)
    exact ⟨before, v, raw, rfl, rfl, ha, hc⟩
  | exhausted hw hall =>
    generalize (visits.filterMap (·.wish?)).getLast? = wish at hout
    cases wish <;> cases hout
  | _ => cases hout

namespace Turn

variable {c : Surroundings σ ε} {k n : Nat} {t : Turn σ ε} {side : Side}

theorem StopsAt.side_phase (h : t.StopsAt c k side n) : t.stream.phase.side? = some side := by
  cases h with
  | @request point _ _ _ hp => rw [hp]; cases point <;> rfl
  | response hp => rw [hp]; rfl

/-- **One filter stops a turn.** -/
theorem StopsAt.unique {side' : Side} {n' : Nat} (h : t.StopsAt c k side n)
    (h' : t.StopsAt c k side' n') :
    side = side' ∧ n = n' := by
  have last {φ ω : Type} {before before' : List (Chain.Visit φ ω)} {v v' : Chain.Visit φ ω}
      (h : before ++ [v] = before' ++ [v']) : v.index = v'.index :=
    congrArg _ (List.singleton_inj.mp (List.append_inj' h rfl).2)
  have hside : side = side' := Option.some.inj (h.side_phase.symm.trans h'.side_phase)
  subst hside
  refine ⟨rfl, ?_⟩
  cases h with
  | @request point before v raw hp hv =>
    cases h' with
    | @request point' before' v' raw' hp' hv' =>
      obtain rfl : point = point' := by
        have hpoints := hp.symm.trans hp'
        cases point <;> cases point' <;> first | rfl | cases hpoints
      exact last (hv.symm.trans hv')
  | response hp hv =>
    cases h' with
    | response hp' hv' => exact last (hv.symm.trans hv')

/-- Only a pause pauses a stream, and for the filter that it is due to. -/
theorem eq_of_pause {s : Stream σ} {i : Nat} (hn : (s.pause i).2.pausedBy = some n)
    (hb : s.pausedBy = none) :
    i = n := by
  cases hc : s.board.claimed with
  | true =>
    rw [pause_of_claimed i hc, hb] at hn
    cases hn
  | false =>
    rw [pause_of_unclaimed i hc] at hn
    cases hlimit : s.settings.stopTimeout with
    | none => rw [hlimit] at hn; exact Option.some.inj hn
    | some delay => rw [hlimit] at hn; exact Option.some.inj hn

/-- A phase of request filters that pauses the stream was stopped in its pass… -/
theorem concludes_of_paused {s s' : Stream σ} {result : Except Panic Outcome} {step : Step}
    (h : s.Concludes result step s') (hb : s.pausedBy = none) (hn : s'.pausedBy = some n) :
    result = .ok (.stopped n) := by
  have awake {α : Prop} (h : s.pausedBy = some n) : α := by rw [hb] at h; cases h
  cases h with
  | pause => rw [eq_of_pause hn hb]
  | abort cause => cases cause <;> exact awake hn
  | _ => exact awake hn

/-- …and so was a phase of response filters. -/
theorem sendPass_of_paused (hb : t.stream.pausedBy = none)
    (hn : (t.stream.entered.filterResponse c.behaviour k).2.pausedBy = some n) :
    (t.stream.sendPass c.behaviour k).result = .ok (.stopped n) := by
  have hpass : t.stream.entered.filters.responses.pass .beforeSend k .keep
    (callResponse c.behaviour)
      ⟨t.stream.entered.board.closeReply.2, t.stream.entered.response.parts⟩
    = t.stream.sendPass c.behaviour k := rfl
  have awake {α : Prop} (h : t.stream.pausedBy = some n) : α := by rw [hb] at h; cases h
  unfold filterResponse passResponse passResponses at hn
  dsimp only at hn
  rw [hpass] at hn
  generalize t.stream.sendPass c.behaviour k = r at hn ⊢
  rcases r with ⟨_ | _ | i | q | cause, chain, state⟩
  case ok.stopped =>
    have hn : (Stream.pause i _).2.pausedBy = some n := hn
    rw [eq_of_pause hn hb]
  case ok.aborted => cases cause <;> exact awake hn
  all_goals exact awake hn

/-- **A turn that pauses the stream was stopped by the filter that the pause is due to.** -/
theorem stopsAt_of_paused (ho : t.stream.board.owned = true) (hb : t.stream.pausedBy = none)
    (hs : t.stream.phase.side? = some side) (hn : (t.execute c k).2.stream.pausedBy = some n) :
    t.StopsAt c k side n := by
  cases side with
  | request =>
    obtain ⟨point, hp⟩ := Phase.exists_point hs
    rw [execute_filters c hp] at hn
    have hconcludes : (t.stream.passed c.behaviour point k).Concludes
      (t.stream.pass c.behaviour point k).result _ _ := concludes_filterRequest ho
    have hresult : (t.stream.pass c.behaviour point k).result = .ok (.stopped n) :=
      concludes_of_paused hconcludes hb hn
    have hstopped :
      (t.stream.filters.requests.pass point k t.stream.settings.convert (callRequest c.behaviour)
        ⟨{ t.stream.entered.board with point := some point }, t.stream.request.parts⟩).result
          = .ok (.stopped n) := by
      unfold Stream.pass passRequests at hresult
      dsimp only at hresult
      split at hresult
      case h_1 p _ => cases hresult
      case h_2 outcome ho => exact ho.trans hresult
    obtain ⟨before, v, raw, hv, rfl, ha, hc⟩ := (Chain.meets_pass point k t.stream.settings.convert
      (callRequest c.behaviour) t.stream.filters.requests
      ⟨{ t.stream.entered.board with point := some point }, t.stream.request.parts⟩).of_stopped
        hstopped
    exact .request hp hv ha hc
  | response =>
    have hp : t.stream.phase = .filterResponse := by
      revert hs
      cases t.stream.phase <;> first | exact fun _ => rfl | nofun
    rw [execute_filterResponse c hp] at hn
    obtain ⟨before, v, raw, hv, rfl, ha, hc⟩ :=
      (Chain.meets_pass ResponsePoint.beforeSend k .keep (callResponse c.behaviour)
        t.stream.filters.responses
        ⟨t.stream.entered.board.closeReply.2, t.stream.response.parts⟩).of_stopped
          (sendPass_of_paused hb hn)
    obtain rfl : raw = .stop := Except.ok.inj hc
    exact .response hp hv ha

end Turn

/-! ## Pauses in the course of a life -/

/-- **The stream is paused by the stop of the filter at `i` of `side`**: nobody has claimed it, it
is paused, and that filter stopped the turn it executed last. -/
structure Life.StoppedBy (id : StreamId) (settings : Settings) (deeds : List (Deed σ ε))
    (side : Side) (i : Nat) :
    Prop where
  live : (after id settings deeds).stream.board.claimed = false
  paused : (after id settings deeds).stream.pausedBy.isSome
  stopped : ∃ c k t, Acts id settings deeds c k t ∧
    t.stream.Follows (after id settings deeds).stream ∧
    t.StopsAt c k side i

/-- Where a stream goes on that is called to by the filter at `i` of `side`, and as what: with a
direct reply that waits on the request's way it goes over to the response filters, else behind that
filter. -/
def Stream.calledOn (side : Side) (i : Nat) (s : Stream σ) : Nat × Stream σ :=
  match side, s.board.reply with
  | .request, some reply => (0, s.rerouted reply)
  | _, _ => (i + 1, s.woken)

namespace Stream

variable {s : Stream σ} {side : Side} {i : Nat}

/-- A pause of a phase of filters is one of their side. -/
theorem pausesAt_iff {p : Phase} (hp : p.side?.isSome) :
    pausesAt p side = true ↔ p.side? = some side := by
  revert hp
  cases p <;> cases side <;> decide

/-- A filter is heeded in a pause of its side at its place. -/
theorem heeds_iff_side (hp : s.phase.side?.isSome) :
    s.heeds (some (side, i)) = true ↔ s.pausedBy = some i ∧ s.phase.side? = some side := by
  rw [heeds, Bool.and_eq_true, beq_iff_eq, pausesAt_iff hp]
  exact and_comm

/-- **A call that is heeded has the stream driven on.** -/
theorem opens_calledOn (hc : s.board.claimed = false) (hn : s.pausedBy = some i)
    (hs : s.phase.side? = some side) :
    s.Opens (.resume (some (side, i))) (s.calledOn side i).1 (s.calledOn side i).2 := by
  have hheeds := (heeds_iff_side (i := i) (by rw [hs]; rfl)).mpr ⟨hn, hs⟩
  unfold calledOn
  split
  case h_1 reply hr =>
    have hlt : s.phase < .filterResponse := by
      revert hs
      cases s.phase <;> decide
    exact .reroute hc hn hheeds hlt hr
  case h_2 hnone =>
    refine .resume hc hn hheeds fun ⟨hlt, hr⟩ => ?_
    obtain ⟨reply, hr⟩ := Option.isSome_iff_exists.mp hr
    refine hnone reply ?_ hr
    revert hlt hs
    cases s.phase <;> simp +decide [Phase.side?, eq_comm]

/-- It goes on at a phase of filters, and published so. -/
theorem calledOn_spec (hs : s.phase.side? = some side) :
    (s.calledOn side i).2.board.log = .published .running :: s.board.log ∧
      (s.calledOn side i).2.board.claimed = s.board.claimed ∧
      (s.calledOn side i).2.phase ≠ .done := by
  unfold calledOn
  split
  · exact ⟨rfl, rfl, nofun⟩
  · refine ⟨rfl, rfl, fun hd => ?_⟩
    rw [show s.phase = .done from hd] at hs
    cases hs

end Stream

section

variable {id : StreamId} {settings : Settings} {deeds : List (Deed σ ε)} {side : Side} {i : Nat}

/-- A turn begins awake. -/
theorem Life.Acts.awake {c : Surroundings σ ε} {k : Nat} {t : Turn σ ε}
    (ha : Acts id settings deeds c k t) :
    t.stream.pausedBy = none := by
  obtain ⟨-, hp, hopens, hstrides, hl⟩ := ha
  obtain ⟨_, _, _, _, _, hlived⟩ := (lived_after ..).of_executes (.intro hp hopens hstrides hl)
  exact hlived.reached.poised.2

/-- **The filter that a pause is due to stopped the stream, and no other did.** -/
theorem Life.stoppedBy_iff : StoppedBy id settings deeds side i ↔
    (after id settings deeds).stream.board.claimed = false ∧
      (after id settings deeds).stream.pausedBy = some i ∧
      (after id settings deeds).stream.phase.side? = some side := by
  -- the turn the stream was paused at is the one it executed last
  have paused {n : Nat} (hc : (after id settings deeds).stream.board.claimed = false)
      (hn : (after id settings deeds).stream.pausedBy = some n) {side : Side}
      (hs : (after id settings deeds).stream.phase.side? = some side) :
      ∃ c k t, Acts id settings deeds c k t ∧ t.stream.Follows (after id settings deeds).stream ∧
        t.StopsAt c k side n := by
    obtain ⟨c, k, t, ha, hpauses⟩ := exists_pausesAt deeds [] (List.append_nil _).symm hc hn
    rw [hpauses.follows.phase] at hs
    exact ⟨c, k, t, ha, hpauses.follows, Turn.stopsAt_of_paused ha.books.owned ha.awake hs
      hpauses.paused⟩
  constructor
  · rintro ⟨hc, hpaused, c, k, t, ha, hfollows, hstop⟩
    obtain ⟨n, hn⟩ := Option.isSome_iff_exists.mp hpaused
    have hs := hfollows.phase ▸ hstop.side_phase
    obtain ⟨c', k', t', ha', hfollows', hstop'⟩ := paused hc hn hs
    obtain ⟨rfl, rfl, rfl⟩ := ha.unique ha' (hfollows.unique hfollows')
    obtain ⟨-, rfl⟩ := hstop.unique hstop'
    exact ⟨hc, hn, hs⟩
  · rintro ⟨hc, hn, hs⟩
    exact ⟨hc, hn ▸ rfl, paused hc hn hs⟩

/-- A filter that the stream is paused by has it go on… -/
theorem Life.StoppedBy.exec (h : StoppedBy id settings deeds side i)
    (c : Surroundings σ ε) (env : ε) :
    let s := (after id settings deeds).stream
    Turn.exec c (.resume (some (side, i))) ⟨s, env⟩
        = Turn.drive c (s.calledOn side i).1 ⟨(s.calledOn side i).2, env⟩ ∧
      .entered (s.calledOn side i).2.phase :: .published .running :: s.board.log
        <:+ (Turn.exec c (.resume (some (side, i))) ⟨s, env⟩).2.stream.board.log := by
  intro s
  obtain ⟨hc, hn, hs⟩ := stoppedBy_iff.mp h
  have hopens := opens_calledOn hc hn hs
  obtain ⟨hlog, hclaimed, hdone⟩ := calledOn_spec (s := s) (i := i) hs
  have ho := hopens.owned (reached_after id settings deeds).orderly.books.owned
  have hdrives := Turn.drives_drive c (s.calledOn side i).1 ⟨(s.calledOn side i).2, env⟩ ho
  refine ⟨hopens.exec c env, ?_⟩
  rw [hopens.exec c env, ← hlog]
  exact hdrives.entered ho ⟨hclaimed.trans hc, hdone⟩

/-- …and any other filter calls in vain. -/
theorem Life.exec_of_not_stoppedBy (h : ¬ StoppedBy id settings deeds side i)
    (c : Surroundings σ ε) (env : ε) :
    let s := (after id settings deeds).stream
    Turn.exec c (.resume (some (side, i))) ⟨s, env⟩ = (none, ⟨s, env⟩) := by
  intro s
  have hran := Turn.ran_exec c ⟨s, env⟩ (.resume (some (side, i)))
  generalize Turn.exec c (.resume (some (side, i))) ⟨s, env⟩ = r at hran
  -- whatever has the stream driven found it in a pause of that filter
  have heeded {n : Nat} (hc : s.board.claimed = false) (hn : s.pausedBy = some n)
      (hheeds : s.heeds (some (side, i)) = true) : StoppedBy id settings deeds side i := by
    have hpoised := (reached_after id settings deeds).poised n hn
    exact stoppedBy_iff.mpr ⟨hc, (heeds_iff_side hpoised).mp hheeds⟩
  cases hran with
  | idle => rfl
  | drive hopens =>
    cases hopens with
    | resume hc hn hheeds => exact absurd (heeded hc hn hheeds) h
    | reroute hc hn hheeds => exact absurd (heeded hc hn hheeds) h

end

/-- **A filter's handle ends that filter's own pause, and no other.**  Every filter has the handle
of the place it is at.  It is given that handle as it is added: the handle of its side, at the place
behind those that were added there before, whatever else is added in between or later; there the
filter stands from then on, and nobody else is given that handle, called or told there.  Whatever is
done through a handle in the course of anything that happens — but by a handle that was kept — is
done through that of the filter that was called.  The call to go on that comes through a handle is
heeded iff the stream is paused by the stop of the filter at that place of that side.  Then the
stream goes on behind it, or at the response filters if a direct reply waits on the request's way;
otherwise nothing is changed and nothing happens. -/
theorem handle_ends_own_pause_only (id : StreamId) (settings : Settings) (deeds : List (Deed σ ε)) :
    let l := after id settings deeds
    l.stream.filters.InPlace ∧
      (∀ (ν : Type) (name : σ → ν) (before more : List (Deed σ ε)) (β : Behaviour σ)
          (r : Registration σ),
        deeds = before ++ .add β r :: more → (∀ d ∈ deeds, d.Keeps name) →
        let i := (registered name before r.side).length
        let earlier := after id settings before
        (∃ new, (earlier.next (.add β r : Deed σ ε)).log = new ++ .added r.side i r.filter
          :: earlier.log) ∧
          (l.stream.filters.standing name r.side)[i]? = some (name r.filter, i) ∧
          ∀ e ∈ l.log, ∀ f, e.addressee? = some (r.side, i, f) → name f = name r.filter) ∧
      (∀ d : Deed σ ε, (∀ side filter i program, d ≠ .act side filter i program) →
        ∃ new, (l.next d).log = new ++ l.log ∧ Throughout Event.Own new) ∧
      ∀ side i,
        (∀ filter, (l.next (.act side filter i (.act .resume (.done ())) : Deed σ ε)).log
            = .scheduled (.resume (some (side, i))) :: l.log) ∧
          (∀ side' i', StoppedBy id settings deeds side i → StoppedBy id settings deeds side' i' →
            side = side' ∧ i = i') ∧
          ∀ (c : Surroundings σ ε) (env : ε),
            let t : Turn σ ε := ⟨l.stream, env⟩
            let x := t.exec c (.resume (some (side, i)))
            (StoppedBy id settings deeds side i →
              let goesOn := l.stream.calledOn side i
              x = Turn.drive c goesOn.1 ⟨goesOn.2, env⟩ ∧
                .entered goesOn.2.phase :: .published .running :: l.log <:+ x.2.stream.board.log) ∧
              (¬ StoppedBy id settings deeds side i → x = (none, t)) := by
  intro l
  refine ⟨(reached_after id settings deeds).inPlace, fun ν name before more β r hd hkeeps => ?_,
    fun d hact => own_next id settings deeds hact, fun side i =>
      ⟨fun filter => ?_, ?_, fun c env => ?_⟩⟩
  · intro i earlier
    obtain ⟨hstand, hfinds⟩ := placed_after id settings deeds hkeeps
    have hbefore : earlier.Placed name (registered name before) :=
      placed_after id settings _ fun d hmem =>
        hkeeps d (by rw [hd]; exact List.mem_append_left _ hmem)
    have hplace : (registered name deeds r.side)[i]? = some (name r.filter) := by
      rw [hd, registered_append]
      simp [i, registered]
    refine ⟨?_, ?_, fun e he f hf => ?_⟩
    · have ho := (reached_after id settings before).orderly.books.owned
      obtain ⟨new, hlog, -⟩ := earlier.log_add (ε := ε) ho β r
      exact ⟨new, by rw [show i = _ from (hbefore.stand.size r.side).symm]; exact hlog⟩
    · rw [hstand, List.getElem?_zipIdx, hplace, Nat.zero_add]
      rfl
    · exact Option.some.inj ((hfinds e he _ _ f hf).symm.trans hplace)
  · have ho : l.stream.board.owned = true := (reached_after id settings deeds).orderly.books.owned
    simp [Life.next, Program.run, perform, ho, Board.note, Life.log]
  · intro side' i' h h'
    obtain ⟨-, hn, hs⟩ := stoppedBy_iff.mp h
    obtain ⟨-, hn', hs'⟩ := stoppedBy_iff.mp h'
    exact ⟨Option.some.inj (hs.symm.trans hs'), Option.some.inj (hn.symm.trans hn')⟩
  · exact ⟨fun h => h.exec c env, fun h => exec_of_not_stoppedBy h c env⟩

/-- There is always a route and a host, which answers before the forwarding is over. -/
def Surroundings.serving (β : Behaviour σ) : Surroundings σ Unit :=
  { Surroundings.secluded β with
    routing := ⟨some fun _ => .ok (some default)⟩
    choose := fun _ _ _ => (.ok (.ok default), ())
    forward := fun _ _ _ _ => ({ handover := .responded {} }, ()) }

/-- The response filter, which is the first of its side like the request filter of its own, stops
the stream. -/
def heldUp : List (Deed Verdict Unit) :=
  [.add answering (.request .proceed .beforeRoute), .add answering (.response .stop .beforeSend),
    .receive {},
    .run ⟨.receive {}, false⟩ (.serving answering) (),
      .run ⟨.response {}, false⟩ (.serving answering) ()]

theorem keeps_answering : ∀ d ∈ heldUp, d.Keeps (id : Verdict → Verdict) := by
  have hanswering : answering.Keeps (id : Verdict → Verdict) :=
    ⟨fun _ _ _ => rfl, fun _ _ _ => rfl, fun _ _ _ => rfl, fun _ _ => rfl⟩
  have hserving : (Surroundings.serving answering).behaviour.Keeps (id : Verdict → Verdict) :=
    hanswering
  simp [heldUp, Deed.Keeps, hanswering, hserving]

/-- The first request filter calls in vain, while the first response filter has the stream
completed. -/
theorem handle_ends_own_pause_only_heldUp :
    let l := after ⟨1⟩ {} heldUp
    let x (side : Side) := Turn.exec (.serving answering) (.resume (some (side, 0))) ⟨l.stream, ()⟩
    (l.stream.filters.standing id .response)[0]? = some (.stop, 0) ∧
      StoppedBy ⟨1⟩ {} heldUp .response 0 ∧
      x .request = (none, ⟨l.stream, ()⟩) ∧
      (x .response).2.stream.board.status = .finished .completed := by
  obtain ⟨-, hplaces, -, hcalls⟩ := handle_ends_own_pause_only ⟨1⟩ {} heldUp
  obtain ⟨-, hplace, -⟩ :=
    hplaces Verdict id [.add answering (.request .proceed .beforeRoute)] _ _ _ rfl keeps_answering
  have hstopped : StoppedBy ⟨1⟩ {} heldUp .response 0 := stoppedBy_iff.mpr (by decide +kernel)
  obtain ⟨-, hsame, hanswer⟩ := hcalls .response 0
  obtain ⟨hheeded, -⟩ := hanswer (.serving answering) ()
  have hother : ¬ StoppedBy ⟨1⟩ {} heldUp .request 0 := fun h => nomatch (hsame _ _ hstopped h).1
  obtain ⟨-, hvain⟩ := (hcalls .request 0).2.2 (.serving answering) ()
  refine ⟨hplace, hstopped, hvain hother, ?_⟩
  refine (congrArg (fun r => r.2.stream.board.status) (hheeded hstopped).1).trans ?_
  decide +kernel

end FilterProxy

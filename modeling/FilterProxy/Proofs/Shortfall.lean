import FilterProxy.Proofs.Cleanup
import FilterProxy.Proofs.Routing

/-!
# Proofs/Shortfall — who completes a stream, and who fails it

A completion is recorded and claimed when the client takes the response.  All other work **falls
short** of one (`FallsShort`): no event of it claims or records a completion, up to a whole drive
that does not stop there (`Turn.Drives.fallsShort`).  A collaborator that fails (`Turn.Fails`) has
the stream ended at once under the ending of its failure, or leaves it claimed for that.
-/

namespace FilterProxy

variable {σ ε : Type}

open Board FilterSet FilterProxy.Stream Life

/-! ## Short of a completion -/

namespace Event

/-- The completion of the last phase is recorded. -/
def isCompletion : Event σ → Bool
  | .stat (.phaseCompleted .respond) => true
  | _ => false

/-- A stream is created. -/
def isCreation : Event σ → Bool
  | .stat .created => true
  | _ => false

/-- The event falls short of a completion, which it neither claims nor records; nor is it a
creation. -/
structure Short (e : Event σ) : Prop where
  claim : e.claim? ≠ some .completed
  stat : e.isCompletion = false
  creation : e.isCreation = false

variable {e : Event σ}

theorem short_of_byHandle (h : e.byHandle = true) : e.Short := by
  cases e with
  | claimed r =>
    cases r with
    | completed => cases h
    | _ => exact ⟨nofun, rfl, rfl⟩
  | stat s =>
    cases s with
    | phaseCompleted | created => cases h
    | _ => exact ⟨nofun, rfl, rfl⟩
  | _ => exact ⟨nofun, rfl, rfl⟩

theorem short_of_inPass {side : Side} (h : e.inPass side = true ∨ e.byHandle = true) :
    e.Short := by
  rcases h with h | h
  · cases e with
    | claimed | stat => cases h
    | _ => exact ⟨nofun, rfl, rfl⟩
  · exact short_of_byHandle h

theorem short_of_farewell (h : (∃ side, e.inFarewell side = true) ∨ e.byHandle = true) :
    e.Short := by
  rcases h with ⟨side, h⟩ | h
  · cases e with
    | claimed | stat => cases h
    | _ => exact ⟨nofun, rfl, rfl⟩
  · exact short_of_byHandle h

theorem short_of_mem_claimEvents {r : Ending} (hr : r ≠ .completed) (h : e ∈ claimEvents r) :
    e.Short := by
  rcases mem_claimEvents h with rfl | rfl | rfl
  · exact ⟨nofun, rfl, rfl⟩
  · exact ⟨nofun, rfl, rfl⟩
  · exact ⟨fun hc => hr (Option.some.inj hc), rfl, rfl⟩

end Event

/-- Everything logged since falls short of a completion. -/
def FallsShort (log log' : List (Event σ)) : Prop :=
  ∃ new, log' = new ++ log ∧ ∀ e ∈ new, e.Short

namespace FallsShort

variable {log log' log'' : List (Event σ)}

theorem refl (log : List (Event σ)) : FallsShort log log := ⟨[], rfl, by simp⟩

theorem trans (h : FallsShort log log') (h' : FallsShort log' log'') : FallsShort log log'' := by
  obtain ⟨new, rfl, hnew⟩ := h
  obtain ⟨new', rfl, hnew'⟩ := h'
  exact ⟨new' ++ new, (List.append_assoc ..).symm, fun e he =>
    (List.mem_append.mp he).elim (hnew' e) (hnew e)⟩

theorem cons {e : Event σ} (he : e.Short) (h : FallsShort log log') : FallsShort log (e :: log') :=
  h.trans ⟨[e], rfl, List.forall_mem_singleton.mpr he⟩

/-- One event falls short. -/
theorem one {e : Event σ} (hc : e.claim? ≠ some .completed) (hs : e.isCompletion = false)
    (hn : e.isCreation = false) : FallsShort log (e :: log) := cons ⟨hc, hs, hn⟩ (refl log)

/-- What no short event is was not logged. -/
theorem countP_eq (h : FallsShort log log') {q : Event σ → Bool} (hq : ∀ e, e.Short → q e = false) :
    log'.countP q = log.countP q := by
  obtain ⟨new, rfl, hnew⟩ := h
  have hnone : new.countP q = 0 := List.countP_eq_zero.mpr fun e he => by
    simp [hq e (hnew e he)]
  rw [List.countP_append, hnone, Nat.zero_add]

/-- No completion was claimed… -/
theorem count_claims (h : FallsShort log log') :
    (claims log').count .completed = (claims log).count .completed := by
  obtain ⟨new, rfl, hnew⟩ := h
  have hnone : .completed ∉ claims new := fun hmem => by
    obtain ⟨e, he, hclaim⟩ := List.mem_filterMap.mp hmem
    exact (hnew e he).claim hclaim
  rw [claims, List.filterMap_append, List.count_append, ← claims, List.count_eq_zero.mpr hnone,
    Nat.zero_add, claims]

/-- …and none was recorded. -/
theorem countP_isCompletion (h : FallsShort log log') :
    log'.countP Event.isCompletion = log.countP Event.isCompletion :=
      h.countP_eq fun _ => Event.Short.stat

/-- No stream was created. -/
theorem countP_isCreation (h : FallsShort log log') :
    log'.countP Event.isCreation = log.countP Event.isCreation :=
      h.countP_eq fun _ => Event.Short.creation

end FallsShort

/-! ## Work that falls short -/

section

variable {b : Board σ}

theorem fallsShort_schedule (ho : b.owned = true) (job : Job) :
    FallsShort b.log (b.schedule job).log := by
  rw [schedule_of_owned ho]
  exact .one nofun rfl rfl

/-- A claim falls short, unless it is one of a completion. -/
theorem fallsShort_claim {r : Ending} (hr : r ≠ .completed) :
    FallsShort b.log (b.claim r).2.log := by
  cases hc : b.claimed with
  | true => rw [claim_of_claimed hc]; exact .refl _
  | false =>
    rw [claim_of_unclaimed hc]
    exact ⟨claimEvents r, rfl, fun _ => Event.short_of_mem_claimEvents hr⟩

theorem fallsShort_terminate {r : Ending} (hr : r ≠ .completed) (ho : b.owned = true) :
    FallsShort b.log (b.terminate r).2.log := by
  have hclaim := fallsShort_claim (b := b) hr
  unfold Board.terminate
  dsimp only
  split
  · exact hclaim.trans (fallsShort_schedule ((Move.claim b r).owned.trans ho) _)
  · exact hclaim

theorem fallsShort_program {α : Type} {side : Side} (filter : σ) (index : Nat)
    (program : Program side α)
    (ho : b.owned = true) : FallsShort b.log (program.run filter index b).2.log := by
  obtain ⟨new, hlog, hnew⟩ :=
    (touched_run filter index program b).log (fun _ => Event.isQuiet_of_isLook) ho
  exact ⟨new, hlog, fun e he =>
    Event.short_of_inPass ((hnew e he).imp_left (Event.inPass_of_isLook side))⟩

theorem fallsShort_introduce (β : Behaviour σ) (s : FilterSet σ) (r : Registration σ)
    (ho : b.owned = true) :
    FallsShort b.log (s.introduce β b r).2.log :=
  ((FallsShort.refl b.log).cons (e := .added r.side (s.size r.side) r.filter)
    ⟨nofun, rfl, rfl⟩).trans
    (fallsShort_program r.filter (s.size r.side) _ ho)

end

namespace Stream

variable {s : Stream σ} (β : Behaviour σ)

theorem fallsShort_noteAbort (cause : Abort) :
    FallsShort s.board.log (s.noteAbort cause).board.log := by
  cases cause with
  | verdict => exact .refl _
  | panic => exact .one nofun rfl rfl

theorem fallsShort_survive (panic : Option Panic) :
    FallsShort s.board.log (survive panic s).board.log := by
  cases panic with
  | none => exact .refl _
  | some p => exact .one nofun rfl rfl

theorem fallsShort_release (r : Ending) (ho : s.board.owned = true) :
    FallsShort s.board.log (s.release β r).2.board.log := by
  obtain ⟨count, hp⟩ := parting_destroy β s.filters s.board ho
  obtain ⟨new, hlog, hkinds⟩ := hp.kinds
  have hfarewells : FallsShort s.board.log (destroy β s.filters s.board).2.2.log :=
    ⟨new, hlog, fun e he => Event.short_of_farewell (hkinds e he)⟩
  rw [release_eq]
  cases (destroy β s.filters s.board).1 with
  | some p => exact hfarewells
  | none => exact hfarewells.cons ⟨nofun, rfl, rfl⟩

theorem fallsShort_finish {r : Ending} (hr : r ≠ .completed) (ho : s.board.owned = true) :
    FallsShort s.board.log (s.finish β r).2.board.log := by
  cases hc : s.board.claimed with
  | true => rw [finish_of_claimed β hc]; exact .refl _
  | false =>
    rw [finish_of_unclaimed β hc]
    exact (fallsShort_claim hr).trans
      (fallsShort_release (s := { s with board := (s.board.claim r).2 }) β r
        ((Move.claim s.board r).owned.trans ho))

theorem fallsShort_pause (n : Nat) : FallsShort s.board.log (s.pause n).2.board.log := by
  unfold pause
  split
  · exact .refl _
  · dsimp only
    split
    · exact .one nofun rfl rfl
    · exact .cons ⟨nofun, rfl, rfl⟩ (.one nofun rfl rfl)

theorem fallsShort_answer (x : Handover) (ho : s.board.owned = true) :
    FallsShort s.board.log (Turn.answer s x).board.log := by
  cases x with
  | kept => exact .refl _
  | dropped => exact .refl _
  | responded m => exact fallsShort_schedule ho _
  | failed failure => exact fallsShort_terminate nofun ho

end Stream

/-- No abort is a completion. -/
theorem Abort.ending_ne_completed (cause : Abort) : cause.ending ≠ .completed := by
  cases cause <;> nofun

namespace Stream

variable {s : Stream σ} (β : Behaviour σ)

theorem fallsShort_passResponses (k : Nat) (convert : Converter) (fs : FilterSet σ)
    (w : Workbench σ) (ho : w.board.owned = true) :
    FallsShort w.board.log (passResponses β .beforeSend k convert fs w).bench.board.log := by
  obtain ⟨new, is, hpass⟩ := passResponses_spec β k convert fs w .beforeSend ho
  exact ⟨new, hpass.log, fun e he => Event.short_of_inPass (hpass.kinds e he)⟩

theorem fallsShort_runResponseFilters (message : Message) (convert : Converter)
    (ho : s.board.owned = true) : FallsShort s.board.log
      (s.runResponseFilters β .beforeSend message convert).2.board.log := by
  have hpass := fallsShort_passResponses β 0 convert s.filters ⟨s.board, message.parts⟩ ho
  have howned := (frame_passResponses β .beforeSend 0 convert s.filters
    ⟨s.board, message.parts⟩ ho).owned.trans ho
  rw [runResponseFilters_eq β message convert rfl]
  generalize passResponses β .beforeSend 0 convert s.filters ⟨s.board, message.parts⟩ = r
    at hpass howned
  split
  case h_1 cause _ =>
    refine (hpass.trans (fallsShort_noteAbort (s := { s with
      filters := r.filters, board := r.bench.board, response := r.bench.parts.message })
        cause)).trans
        (fallsShort_finish β cause.ending_ne_completed ?_)
    cases cause <;> exact howned
  case h_2 => exact hpass

theorem fallsShort_filterResponse (k : Nat) (ho : s.board.owned = true) :
    FallsShort s.board.log (s.filterResponse β k).2.board.log ∧
      (s.filterResponse β k).1 ≠ .finish .completed := by
  have hpass := fallsShort_passResponses β k .keep s.filters
    ⟨s.board.closeReply.2, s.response.parts⟩ ho
  unfold filterResponse passResponse
  dsimp only at hpass ⊢
  generalize passResponses β .beforeSend k .keep s.filters
    ⟨s.board.closeReply.2, s.response.parts⟩ = r at hpass ⊢
  rcases r.result with p | _ | n | q | cause
  case ok.stopped =>
    dsimp only
    rw [pause_fst]
    exact ⟨FallsShort.trans hpass (fallsShort_pause n), nofun⟩
  case ok.aborted =>
    exact ⟨FallsShort.trans hpass (fallsShort_noteAbort cause),
      fun h => cause.ending_ne_completed (Step.finish.inj h)⟩
  all_goals exact ⟨hpass, nofun⟩

/-- What is concluded from a pass falls short. -/
theorem Concludes.fallsShort {result : Except Panic Outcome} {step : Step} {s' : Stream σ}
    (h : s.Concludes result step s') :
    FallsShort s.board.log s'.board.log ∧ step ≠ .finish .completed := by
  cases h with
  | next | reply | rest | jump | escape => exact ⟨.refl _, nofun⟩
  | pause => exact ⟨fallsShort_pause _, nofun⟩
  | abort cause =>
    exact ⟨fallsShort_noteAbort cause, fun h => cause.ending_ne_completed (Step.finish.inj h)⟩

theorem fallsShort_passed (point : RequestPoint) (k : Nat) (ho : s.board.owned = true) :
    FallsShort s.board.log (s.passed β point k).board.log := by
  obtain ⟨new, is, hpass⟩ := passRequests_spec β k s.settings.convert s.entered.filters
    ⟨s.entered.board, s.request.parts⟩ point ho
  have hlog : (s.passed β point k).board.log
      = .passed point (s.pass β point k).result :: (new ++ .entered s.phase :: s.board.log) :=
        hpass.log
  rw [hlog]
  have hentered : FallsShort s.board.log (.entered s.phase :: s.board.log) := .one nofun rfl rfl
  exact .cons ⟨nofun, rfl, rfl⟩ (hentered.trans ⟨new, rfl, fun e he =>
    Event.short_of_inPass (hpass.kinds e he)⟩)

/-- The response as the client gets it, with the replacements still waiting put in. -/
def outgoing (s : Stream σ) : Message := (s.board.putReplaced s.response.parts).1.message

end Stream

/-! ## What collaborators answer -/

/-- The client is given the response, and takes it. -/
structure Turn.Accepted (c : Surroundings σ ε) (t : Turn σ ε) : Prop where
  phase : t.stream.phase = .respond
  taken : (c.write t.env t.stream.board.context.id t.stream.outgoing).1 = .ok (.ok ())

/-- **A collaborator fails**, and with what ending. -/
inductive Turn.Fails (c : Surroundings σ ε) (t : Turn σ ε) : Ending → Prop
  | unrouted (hp : t.stream.phase = .matchRoute)
      (ha : (c.reload t.env c.routing).1.find t.stream.asked = .ok none) : Fails c t .noRoute
  /-- There is no route to choose a host on. -/
  | lacking (hp : t.stream.phase = .chooseHost) (hr : t.stream.board.route = none) :
      Fails c t .noRoute
  | refused {route failure} (hp : t.stream.phase = .chooseHost)
      (hr : t.stream.board.route = some route)
      (ha : (c.choose t.env route t.stream.asked).1 = .ok (.error failure)) :
      Fails c t failure.ending
  | failed {host failure} (hp : t.stream.phase = .forward) (hh : t.stream.host = some host)
      (ha : (c.forward t.env t.stream.board.context.id host t.stream.request).1.handover
        = .failed failure) : Fails c t .hostFailure
  | unwritten {failure} (hp : t.stream.phase = .respond)
      (ha : (c.write t.env t.stream.board.context.id t.stream.outgoing).1 = .ok (.error failure)) :
      Fails c t failure.ending

namespace Turn

variable {c : Surroundings σ ε} {t : Turn σ ε}

/-- **No failure is a completion.** -/
theorem Fails.ne_completed {r : Ending} (h : t.Fails c r) : r ≠ .completed := by
  cases h with
  | refused | unwritten => exact Failure.ending_ne_completed _
  | _ => nofun

/-- **What comes of the client's answer.** -/
theorem execute_respond (hp : t.stream.phase = .respond) (k : Nat)
    {answer : Except Panic (Except Failure Unit)}
    (ha : (c.write t.env t.stream.board.context.id t.stream.outgoing).1 = answer) :
    ∃ s : Stream σ, ((t.execute c k).1, (t.execute c k).2.stream) = (match answer with
      | .error p => (.escape p, s)
      | .ok (.error failure) => (.finish failure.ending, s)
      | .ok (.ok ()) => (.finish .completed, s.note (.stat (.phaseCompleted .respond)))) ∧
    s.board.claimed = t.stream.board.claimed ∧
      s.board.log = .written t.stream.outgoing answer :: t.stream.entered.board.log := by
  have hexec : t.execute c k = t.entered.respond c := step_respond c (t := t.entered) hp k
  rw [hexec, respond]
  dsimp only [putReplaced]
  -- only a response with a code leaves its code behind; the rest is the same
  cases (t.entered.stream.board.replaced.over t.entered.stream.response.parts).message.code?
  all_goals
    have ha : (c.write t.env t.stream.entered.board.context.id (t.stream.entered.board.replaced.over
      t.stream.entered.response.parts).message).1 = answer := ha
    dsimp only
    generalize c.write t.env t.stream.entered.board.context.id (t.stream.entered.board.replaced.over
      t.stream.entered.response.parts).message = r at ha ⊢
    subst ha
    rcases r with ⟨_ | _ | ⟨⟩, env⟩ <;> exact ⟨_, rfl, rfl, rfl⟩

theorem Accepted.execute (h : t.Accepted c) (hl : t.stream.Live) (k : Nat) :
    ∃ t', t.execute c k = (.finish .completed, t') ∧ t'.stream.board.claimed = false ∧
      t'.stream.board.log = .stat (.phaseCompleted .respond) ::
        .written t.stream.outgoing (.ok (.ok ())) :: t.stream.entered.board.log := by
  obtain ⟨s, hexec, hclaimed, hlog⟩ := execute_respond h.phase k h.taken
  obtain ⟨hstep, hstream⟩ := Prod.mk.inj hexec
  refine ⟨(t.execute c k).2, Prod.ext hstep rfl, ?_, ?_⟩
  · rw [hstream]
    exact hclaimed.trans hl.unclaimed
  · rw [hstream]
    exact congrArg _ hlog

/-- A request that cannot be handed over leaves the stream claimed. -/
theorem claims_answer_failed {s : Stream σ} (hb : s.board.Books) (failure : Failure) :
    claims (answer s (.failed failure)).board.log
      = [(claims s.board.log).head?.getD .hostFailure] :=
  (hb.terminate_spec .hostFailure).2

/-- **What handing the request over comes to**: the host's answer is put out, and a panic
escapes. -/
theorem execute_forward (hp : t.stream.phase = .forward) {host : Host}
    (hh : t.stream.host = some host) (k : Nat) :
    t.execute c k =
      let x := c.forward t.env t.stream.board.context.id host t.stream.request
      (x.1.panic.elim .next .escape,
        ⟨answer (t.stream.entered.note (.forwarded host t.stream.request x.1)) x.1.handover,
          x.2⟩) := by
  have hh' : t.stream.entered.host = some host := hh
  unfold Turn.execute step
  rw [show t.stream.entered.phase = .forward from hp]
  dsimp only [forward]
  rw [hh']
  generalize hx : c.forward t.env t.stream.board.context.id host t.stream.request = x
  have hx' : c.forward t.env t.stream.entered.board.context.id host t.stream.entered.request = x :=
    hx
  cases hpanic : x.1.panic <;> simp [hx', hpanic] <;> rfl

/-- **A failure ends the stream at once**, or leaves it claimed for its ending. -/
theorem Fails.execute {r : Ending} (h : t.Fails c r) (hl : t.stream.Live)
    (hb : t.stream.board.Books) (k : Nat) :
    (∃ t', t.execute c k = (.finish r, t') ∧ t'.stream.board.claimed = false) ∨
      claims (t.execute c k).2.stream.board.log = [r] := by
  have hc := hl.unclaimed
  cases h with
  | unrouted hp ha =>
    left
    have ha : (c.reload t.env c.routing).1.find (t.stream.entered.request.headers.getD {})
        = .ok none := ha
    unfold Turn.execute step
    rw [show t.stream.entered.phase = .matchRoute from hp]
    simp only [matchRoute, ha]
    exact ⟨_, rfl, hc⟩
  | lacking hp hr =>
    left
    have hr : t.stream.entered.board.route = none := hr
    unfold Turn.execute step
    rw [show t.stream.entered.phase = .chooseHost from hp]
    simp only [chooseHost, hr]
    exact ⟨_, rfl, hc⟩
  | @refused route failure hp hr ha =>
    left
    have hr : t.stream.entered.board.route = some route := hr
    have ha : (c.choose t.env route (t.stream.entered.request.headers.getD {})).1
        = .ok (.error failure) := ha
    unfold Turn.execute step
    rw [show t.stream.entered.phase = .chooseHost from hp]
    simp only [chooseHost, hr, ha]
    exact ⟨_, rfl, hc⟩
  | @failed host failure hp hh ha =>
    right
    have hbooks : (t.stream.consigned c t.env host).board.Books :=
      (hb.move (.effect _ rfl hc)).move (.effect _ rfl hc)
    have hclaims := claims_answer_failed hbooks failure
    have hnone : claims (t.stream.consigned c t.env host).board.log = [] := hb.unclaimed hc
    rw [hnone] at hclaims
    rw [execute_forward hp hh k]
    dsimp only
    rw [ha]
    exact hclaims
  | @unwritten failure hp ha =>
    left
    obtain ⟨s, hexec, hclaimed, -⟩ := execute_respond hp k ha
    obtain ⟨hstep, hstream⟩ := Prod.mk.inj hexec
    refine ⟨(t.execute c k).2, Prod.ext hstep rfl, ?_⟩
    rw [hstream]
    exact hclaimed.trans hc

theorem fallsShort_matchRoute : FallsShort t.stream.board.log (t.matchRoute c).2.stream.board.log ∧
    (t.matchRoute c).1 ≠ .finish .completed := by
  unfold matchRoute
  dsimp only
  split <;> exact ⟨.one nofun rfl rfl, nofun⟩

theorem fallsShort_chooseHost : FallsShort t.stream.board.log (t.chooseHost c).2.stream.board.log ∧
    (t.chooseHost c).1 ≠ .finish .completed := by
  unfold chooseHost
  split
  case h_1 => exact ⟨.refl _, nofun⟩
  case h_2 =>
    dsimp only
    split
    case h_2 failure _ =>
      exact ⟨.one nofun rfl rfl, fun h => failure.ending_ne_completed (Step.finish.inj h)⟩
    all_goals exact ⟨.one nofun rfl rfl, nofun⟩

theorem fallsShort_forward (ho : t.stream.board.owned = true) :
    FallsShort t.stream.board.log (t.forward c).2.stream.board.log ∧
      (t.forward c).1 ≠ .finish .completed := by
  unfold forward
  split
  case h_1 => exact ⟨.refl _, nofun⟩
  case h_2 host _ =>
    dsimp only
    generalize c.forward t.env t.stream.board.context.id host t.stream.request = r
    have hforwarded : FallsShort t.stream.board.log
        (t.stream.note (.forwarded host t.stream.request r.1)).board.log := .one nofun rfl rfl
    have hanswered := hforwarded.trans (fallsShort_answer r.1.handover ho)
    split <;> exact ⟨hanswered, nofun⟩

theorem fallsShort_respond (hp : t.stream.phase = .respond) (hn : ¬ t.Accepted c) (k : Nat) :
    FallsShort t.stream.board.log (t.execute c k).2.stream.board.log ∧
      (t.execute c k).1 ≠ .finish .completed := by
  generalize ha : (c.write t.env t.stream.board.context.id t.stream.outgoing).1 = answer
  obtain ⟨s, hexec, -, hlog⟩ := execute_respond hp k ha
  have hwritten : FallsShort t.stream.board.log s.board.log := by
    rw [hlog]
    exact .cons ⟨nofun, rfl, rfl⟩ (.one nofun rfl rfl)
  rcases answer with p | failure | ⟨⟩
  case ok.ok => exact absurd ⟨hp, ha⟩ hn
  all_goals
    obtain ⟨hstep, hstream⟩ := Prod.mk.inj hexec
    rw [hstep, hstream]
  · exact ⟨hwritten, nofun⟩
  · exact ⟨hwritten, fun h => failure.ending_ne_completed (Step.finish.inj h)⟩

/-- **What executing a phase logs** falls short of a completion, unless the client takes the
response. -/
theorem fallsShort_execute (ho : t.stream.board.owned = true) (hn : ¬ t.Accepted c) (k : Nat) :
    FallsShort t.stream.board.log (t.execute c k).2.stream.board.log ∧
      (t.execute c k).1 ≠ .finish .completed := by
  have hentered : FallsShort t.stream.board.log t.stream.entered.board.log := .one nofun rfl rfl
  have filtered (point : RequestPoint) (hp : t.stream.phase = point.phase) :
      FallsShort t.stream.board.log (t.execute c k).2.stream.board.log ∧
        (t.execute c k).1 ≠ .finish .completed := by
    have hconcludes : (t.stream.passed c.behaviour point k).Concludes _ _ _ :=
      concludes_filterRequest ho
    rw [execute_filters c hp]
    exact ⟨(fallsShort_passed c.behaviour point k ho).trans hconcludes.fallsShort.1,
      hconcludes.fallsShort.2⟩
  have onward {r : Step × Turn σ ε}
    (h : FallsShort t.stream.entered.board.log r.2.stream.board.log ∧
      r.1 ≠ .finish .completed) : FallsShort t.stream.board.log r.2.stream.board.log ∧
        r.1 ≠ .finish .completed := ⟨hentered.trans h.1, h.2⟩
  cases hp : t.stream.phase with
  | filterRequest => exact filtered .beforeRoute hp
  | filterRouted => exact filtered .afterRoute hp
  | filterHosted => exact filtered .afterHost hp
  | respond => exact fallsShort_respond hp hn k
  | _ =>
    have hp : t.stream.entered.phase = _ := hp
    unfold execute step
    rw [hp]
    first
      | exact ⟨hentered, nofun⟩
      | exact onward fallsShort_matchRoute
      | exact onward fallsShort_chooseHost
      | exact onward (fallsShort_forward ho)
      | exact onward (fallsShort_filterResponse c.behaviour k ho)

/-! ## Drives -/

theorem fallsShort_of_execute {k : Nat} {t' : Turn σ ε} {step : Step} (hl : t.stream.Live)
    (ho : t.stream.board.owned = true) (hx : t.execute c k = (step, t'))
    (hstep : step ≠ .finish .completed) : FallsShort t.stream.board.log t'.stream.board.log := by
  have hn : ¬ t.Accepted c := fun ha => by
    obtain ⟨t'', hexec, -⟩ := ha.execute hl k
    exact hstep (Prod.mk.inj (hx.symm.trans hexec)).1
  have hshort := (fallsShort_execute ho hn k).1
  rwa [hx] at hshort

/-- A stride falls short of a completion. -/
theorem Stride.fallsShort {x y : Nat × Turn σ ε} (h : Stride c x y)
    (ho : x.2.stream.board.owned = true) :
      FallsShort x.2.stream.board.log y.2.stream.board.log := by
  cases h with
  | @next k t t' hl hx =>
    obtain ⟨new, is, hexec⟩ := executed_execute hl ho hx
    refine .cons ⟨nofun, ?_, rfl⟩ (fallsShort_of_execute hl ho hx nofun)
    cases hexec with
    | next hw ha hp =>
      rw [entered_phase] at hp
      cases hphase : t.stream.phase
        <;> first | rfl | (rw [hphase] at hp; exact absurd (by decide) hp)
  | @goto k t t' q hl hx =>
    have hshort : FallsShort t.stream.board.log t'.stream.board.log :=
      fallsShort_of_execute hl ho hx nofun
    exact hshort
  | jump hl hx hj => exact .cons ⟨nofun, rfl, rfl⟩ (fallsShort_of_execute hl ho hx nofun)

theorem fallsShort_strides {x y : Nat × Turn σ ε} (h : Relation.ReflTransGen (Stride c) x y)
    (ho : x.2.stream.board.owned = true) :
      FallsShort x.2.stream.board.log y.2.stream.board.log := by
  induction h with
  | refl => exact .refl _
  | tail h' h ih => exact ih.trans (h.fallsShort (Stride.owned_strides h' ho))

/-- A drive falls short of a completion, unless it stops where the client takes the response. -/
theorem Drives.fallsShort {x : Nat × Turn σ ε} {r : Option Panic × Turn σ ε} (h : Drives c x r)
    (ho : x.2.stream.board.owned = true) :
    FallsShort x.2.stream.board.log r.2.stream.board.log ∨
      ∃ y, Relation.ReflTransGen (Stride c) x y ∧ y.2.stream.Live ∧ y.2.Accepted c := by
  obtain ⟨y, hs, hstop⟩ := h
  have hy := fallsShort_strides hs ho
  have hyo := Stride.owned_strides hs ho
  by_cases ha : y.2.stream.Live ∧ y.2.Accepted c
  case pos => exact .inr ⟨y, hs, ha⟩
  refine .inl (hy.trans ?_)
  have ended {k : Nat} {t t' : Turn σ ε} {step : Step} (hl : t.stream.Live)
      (ho : t.stream.board.owned = true) (hx : t.execute c k = (step, t')) {r : Ending}
      (hr : r ≠ .completed) (hstep : step ≠ .finish .completed) :
      FallsShort t.stream.board.log (t'.stream.finish c.behaviour r).2.board.log := by
    obtain ⟨new, is, hexec⟩ := executed_execute hl ho hx
    exact (fallsShort_of_execute hl ho hx hstep).trans
      (fallsShort_finish c.behaviour hr ((hexec.moves hl).owned.trans ho))
  cases hstop with
  | halt => exact .refl _
  | rest hl hx => exact fallsShort_of_execute hl hyo hx nofun
  | @finish k t t' ending hl hx =>
    have hstep := (fallsShort_execute hyo (fun h => ha ⟨hl, h⟩) k).2
    rw [hx] at hstep
    exact ended hl hyo hx (fun hr => hstep (congrArg _ hr)) hstep
  | overrun hl hx hj => exact ended hl hyo hx nofun nofun
  | escape hl hx => exact fallsShort_of_execute hl hyo hx nofun

end Turn

end FilterProxy

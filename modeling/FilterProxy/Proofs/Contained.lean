import FilterProxy.Proofs.Breakdown
import FilterProxy.Proofs.Detour
import FilterProxy.Proofs.Outcome

/-!
# Proofs/Contained — a filter that breaks off is as good as one that terminates

Where a filter breaks off in one of two runs and answers `terminate` in the other, the panic does
not get out of the job, and from then on **the one life is the other, told with a panic**
(`breaks_off_like_terminate`).  One thing only is lost for a while: a response filter that breaks
off has nothing put in any more.  If it replaced something although the stream was claimed, then the
response lacks it until it is dropped (`unlike_replaced`).
-/

namespace FilterProxy

variable {σ ε : Type}

open Board FilterSet FilterProxy.Stream Life

/-! ## Calm farewells -/

/-- No filter breaks off when it is told that its stream is gone. -/
def Behaviour.Calm (β : Behaviour σ) : Prop :=
  ∀ f side index (b : Board σ), ((β.onDestroy f side).run f index b).1.panic = none

namespace Behaviour.Calm

variable {β : Behaviour σ}

theorem destroyFrom (h : β.Calm) {π : Type} (side : Side) (index : Nat) (chain : Chain (Seated σ) π)
    (b : Board σ) :
    (destroyFrom β side index chain b).1 = none := by
  induction chain generalizing index b with
  | nil => rfl
  | cons e rest ih =>
    rw [FilterSet.destroyFrom]
    dsimp only
    rw [Program.through, h e.filter.filter side e.filter.seat]
    exact ih _ _

/-- So no ending breaks off. -/
theorem finish (h : β.Calm) (ending : Ending) (s : Stream σ) : (s.finish β ending).1 = none := by
  have hdestroy (s : FilterSet σ) (b : Board σ) : (destroy β s b).1 = none := by
    rw [destroy]
    dsimp only
    rw [h.destroyFrom]
    exact h.destroyFrom _ _ _ _
  cases hc : s.board.claimed with
  | true => rw [finish_of_claimed β hc]
  | false => rw [finish_of_unclaimed β hc, release_eq, hdestroy]

end Behaviour.Calm

/-! ## The two runs -/

namespace Chain.Visit

variable (v : Chain.Visit (Seated σ) (Workbench σ))

/-- How the ending of the stream is told if the filter broke off: as before, once it was claimed. -/
def reason : Ending → Ending := if v.left.state.board.claimed then id else Ending.blamed

/-- What a response filter that broke off leaves waiting, once the stream is claimed. -/
def unput (side : Side) : Replaced :=
  if side = .response ∧ v.left.state.board.claimed = true then v.left.state.board.replaced else {}

end Chain.Visit

namespace Life

/-- **The life `broken` is the life `ended`, told with a panic**: the same was logged since `older'`
and `older`, but for the ending, and the streams are the same, but for the log, the ending, what is
left waiting, and maybe the response. -/
structure Retells (f : Ending → Ending) (older older' : List (Event σ)) (unput : Replaced)
    (ended broken : Life σ) : Prop where
  log : ∃ newer, ended.log = newer ++ older ∧ broken.log = newer.map (Event.retold f) ++ older'
  stream : broken.stream = { ended.stream with
    response := broken.stream.response
    board := { ended.stream.board with
      status := ended.stream.board.status.retold f
      replaced := ended.stream.board.replaced.onto unput
      log := broken.log } }
  ran : broken.ran = ended.ran

/-- **What the response lacks** after the call of a response filter that broke off: what was left
waiting was not put in. -/
structure Lacks (side : Side) (v : Chain.Visit (Seated σ) (Workbench σ))
    (ended broken : Life σ) : Prop where
  side : side = .response
  claimed : v.left.state.board.claimed = true
  unreleased : ended.stream.phase ≠ .done
  ended : ended.stream.response = (v.left.state.board.replaced.over v.left.state.parts).message
  broken : broken.stream.response = v.left.state.parts.message

namespace Twice

variable {x x' : Telling σ} {l l' : Life σ}

theorem retells (h : Twice x x' l l') (hid : x.ending = id) {unput : Replaced}
    (hunput : ∀ r : Replaced, r.onto x'.replaced = (r.onto x.replaced).onto unput) :
    Retells x'.ending x.older x'.older unput l l' := by
  obtain ⟨y, hl, hl', -⟩ := h.stream
  have hlog : l.log = y.board.log ++ x.older := by
    rw [Life.log, hl, retold_board, retold_log, hid, Event.retold_id, List.map_id]
  refine ⟨⟨y.board.log, hlog, ?_⟩, ?_, h.ran⟩
  · rw [Life.log, hl']
    rfl
  · have hstatus : y.board.status.retold x.ending
      = y.board.status := by rw [hid, Status.retold_id, id]
    rw [Life.log, hl', hl]
    simp only [Stream.retold, Board.retold, hunput, hstatus]

/-- A stream that was released has no response any more, however it is told. -/
theorem response (h : Twice x x' l l') : l'.stream.response = l.stream.response ∨
    l.stream.phase ≠ .done ∧ l.stream.response = x.response ∧ l'.stream.response = x'.response := by
  obtain ⟨y, hl, hl', -⟩ := h.stream
  rw [hl, hl']
  by_cases hd : y.phase = .done
  · exact .inl (by simp only [Stream.retold, hd, if_true])
  · exact .inr ⟨hd, if_neg hd, if_neg hd⟩

theorem claimed (h : Twice x x' l l') : l.stream.board.claimed = true := by
  obtain ⟨y, hl, -, -, hc, -⟩ := h.stream
  rw [hl]
  exact hc

/-- Another ending than its own is told of a stream that was released. -/
theorem released_of_ne (h : Twice x x' l l') (hne : x'.ending ≠ id) : l.stream.phase = .done := by
  obtain ⟨y, hl, -, -, -, -, hown⟩ := h.stream
  rw [hl]
  exact Decidable.not_not.mp fun hd => hne (hown hd).2

end Twice

end Life

theorem Ending.blamed_ne_id : Ending.blamed ≠ id := fun h => nomatch congrFun h .filterTerminated

namespace Turn.Parted

variable {c₁ c : Surroundings σ ε} {k : Nat} {t : Turn σ ε} {panic : Panic} {side : Side}
  {v : Chain.Visit (Seated σ) (Workbench σ)} {y : Stream σ} {l : Life σ} {p : Posting} {env : ε}

/-- What is left waiting is told of the stream that was claimed before. -/
theorem onto_toldBroken (f : Ending → Ending) (hc : v.left.state.board.claimed = true)
    (r : Replaced) :
    r.onto (t.toldBroken f panic side v).replaced = (r.onto (t.told side v).replaced).onto
      (v.unput side) := by
  cases side <;> simp [told, toldBroken, Chain.Visit.unput, hc]

/-- **The two lives once the job is done**, if the stream was claimed before. -/
theorem twice_of_claimed (h : t.Parted c₁ c k panic side v y) (hreached : Reached none l)
    (hl : t.stream.Live)
    (ho : t.stream.board.owned = true) (hbreaks : l.Turns (.run p c₁ env) c₁ k t)
    (hends : l.Turns (.run p c env) c k t) (hc : v.left.state.board.claimed = true) :
    Twice (t.told side v) (t.toldBroken id panic side v) (l.next (.run p c env))
      (l.next (.run p c₁ env)) := by
  obtain ⟨hbroken, hended⟩ := h.drive_of_claimed hl ho hc
  rw [hbreaks.next_eq hreached, hends.next_eq hreached, hbroken, hended]
  exact ⟨⟨y, rfl, rfl, h.awake, h.claimed.trans hc, h.owned, fun _ => ⟨rfl, rfl⟩⟩, rfl⟩

/-- …and if it was not. -/
theorem twice_of_unclaimed (h : t.Parted c₁ c k panic side v y) (hreached : Reached none l)
    (hl : t.stream.Live)
    (ho : t.stream.board.owned = true) (hbreaks : l.Turns (.run p c₁ env) c₁ k t)
    (hends : l.Turns (.run p c env) c k t) (hc : v.left.state.board.claimed = false)
    (hdestroy : c₁.behaviour.onDestroy = c.behaviour.onDestroy) :
    Twice (t.told side v).cleared (t.toldBroken Ending.blamed panic side v).cleared
      (l.next (.run p c env)) (l.next (.run p c₁ env)) := by
  have hclaim := claim_of_unclaimed (h.claimed.trans hc) .filterTerminated
  obtain ⟨hawake, hclaimed, howned, hdone⟩ := done_release (s := { y with
    board := (y.board.claim .filterTerminated).2 }) c.behaviour (by rw [hclaim])
    (by rw [hclaim]; exact h.owned) .filterTerminated
  obtain ⟨hbroken, hended⟩ := h.drive_of_unclaimed hl ho hc hdestroy
  rw [finish_of_unclaimed c.behaviour (h.claimed.trans hc)] at hbroken hended
  rw [hbreaks.next_eq hreached, hends.next_eq hreached, hbroken, hended]
  dsimp only
  rw [survive_retold, survive_retold]
  refine ⟨⟨_, rfl, rfl, ?_⟩, rfl⟩
  cases (Stream.release c.behaviour .filterTerminated
    { y with board := (y.board.claim .filterTerminated).2 }).1 <;>
    exact ⟨hawake, hclaimed, howned, fun hd => absurd hdone hd⟩

end Turn.Parted

/-- **A filter that breaks off is as good as one that terminates.**  The surroundings `c₁` and `c`
make the same of a job up to one answer of one filter, which breaks off in `c₁` and answers
`terminate` in `c`.  If the converter lets `terminate` be, then both jobs end at that filter, with
the same calls of collaborators, and nothing escapes the one that does not escape the other.  If
nobody had claimed the stream, it is ended by this, for the panic in place of the verdict; if
somebody had, then for what it was claimed for.  **Whatever happens from now on, the two lives are
the same**, but that a panic was recorded, and that a response filter had not put in what it
replaced although the stream was claimed. -/
theorem breaks_off_like_terminate (id : StreamId) (settings : Settings) (deeds : List (Deed σ ε))
    {p : Posting}
    {c₁ c : Surroundings σ ε} {env : ε} {k : Nat} {t : Turn σ ε} {panic : Panic} {side : Side}
    {v : Chain.Visit (Seated σ) (Workbench σ)}
    (hconvert : settings.convert .terminate = .ok .terminate)
    (hbreaks : (after id settings deeds).Turns (.run p c₁ env) c₁ k t)
    (hends : (after id settings deeds).Turns (.run p c env) c k t)
    (hparts : t.Breaks c₁ c k panic side v)
    (hdestroy : c₁.behaviour.onDestroy = c.behaviour.onDestroy) :
    let l := after id settings deeds
    let broken := l.next (.run p c₁ env)
    let ended := l.next (.run p c env)
    let left := v.left.state.board
    let noted (cause : Abort) : List (Event σ) := t.stream.phase.abandoned cause ++ left.log
    (Turn.exec c₁ p.job ⟨l.stream, env⟩).1 = (Turn.exec c p.job ⟨l.stream, env⟩).1 ∧
      (left.claimed = true ∨ c.behaviour.Calm → (Turn.exec c₁ p.job ⟨l.stream, env⟩).1 = none) ∧
      (Turn.exec c₁ p.job ⟨l.stream, env⟩).2.env = (Turn.exec c p.job ⟨l.stream, env⟩).2.env ∧
      ended.stream.board.claimed = true ∧
      (left.claimed = false → claims ended.log = [.filterTerminated] ∧
        claims broken.log = [.filterPanic]) ∧
      ∀ more : List (Deed σ ε), (∀ d ∈ more, d.isDirect = false) →
        Retells v.reason (noted (.verdict v.index))
          (.stat .filterPanicked :: noted (.panic v.index panic.message))
          (v.unput side) (more.foldl next ended) (more.foldl next broken) ∧
        ((more.foldl next broken).stream.response = (more.foldl next ended).stream.response ∨
          Lacks side v (more.foldl next ended) (more.foldl next broken)) := by
  intro l broken ended left noted
  have hlived := lived_after id settings deeds
  have hreached := hlived.reached
  obtain ⟨hlive, ho, hb, hs, -⟩ := hends.at_work hlived
  obtain ⟨y, hy⟩ := hparts.exists_parted hlive ho hb hs (hends.settings_eq ▸ hconvert)
  have hagrees := hy.agrees
  rw [(hbreaks.exec_eq hreached).2, (hends.exec_eq hreached).2]
  cases hc : left.claimed with
  | true =>
    obtain ⟨hbroken, hended⟩ := hy.drive_of_claimed hlive ho hc
    have htwice : Twice _ _ ended broken := hy.twice_of_claimed hreached hlive ho hbreaks hends hc
    rw [hbroken, hended, show v.reason = fun ending => ending from if_pos hc]
    refine ⟨rfl, fun _ => rfl, rfl, htwice.claimed, nofun, fun more hmore => ?_⟩
    have hlater := htwice.foldl (hagrees _) more hmore (hreached.next_deed _)
    refine ⟨hlater.retells rfl (Turn.Parted.onto_toldBroken _ hc), ?_⟩
    rcases hlater.response with heq | ⟨hd, hresponse, hresponse'⟩
    · exact .inl heq
    · cases side with
      | request => exact .inl (hresponse'.trans hresponse.symm)
      | response => exact .inr ⟨rfl, hc, hd, hresponse, hresponse'⟩
  | false =>
    have hunclaimed : y.board.claimed = false := hy.claimed.trans hc
    obtain ⟨hbroken, hended⟩ := hy.drive_of_unclaimed hlive ho hc hdestroy
    have htwice : Twice _ _ ended broken :=
      hy.twice_of_unclaimed hreached hlive ho hbreaks hends hc hdestroy
    have hunput : v.unput side = {} := if_neg fun h => absurd (h.2.symm.trans hc) nofun
    rw [hbroken, hended, hunput, show v.reason = Ending.blamed from if_neg (by simpa using hc)]
    refine ⟨rfl, fun h => (h.resolve_left nofun).finish _ y, rfl, htwice.claimed, fun _ => ⟨?_, ?_⟩,
      fun more hmore => ?_⟩
    · exact hends.claims hlived (.inl ⟨_, hy.ended, hunclaimed⟩)
    · exact hbreaks.claims hlived (.inl ⟨_, hy.broken Ending.blamed, hunclaimed⟩)
    · have hlater := htwice.foldl (hagrees _).cleared more hmore (hreached.next_deed _)
      refine ⟨hlater.retells rfl fun r => (Replaced.onto_empty _).symm, .inl ?_⟩
      exact hlater.response.resolve_right fun h => h.1 (hlater.released_of_ne Ending.blamed_ne_id)

/-- Filters that are `true` give `answer`, to a response once they ended the stream and replaced its
body.  The others reply to the request themselves. -/
def erring (answer : Except Panic Verdict) : Behaviour Bool where
  onRequest f _ parts :=
    if f then .done ⟨f, parts, answer⟩ else .act (.reply 200 {}) (.done ⟨f, parts, .ok .proceed⟩)
  onResponse f _ parts := .act .terminate (.act (.replaceData [120]) (.done ⟨f, parts, answer⟩))
  onDestroy f _ := .done { filter := f }

/-- What they leave. -/
def boom : Panic := ⟨some "boom"⟩

/-- The call of the second filter, which breaks off. -/
def mishap : Chain.Visit (Seated Bool) (Workbench Bool) :=
  let bench :=
    ⟨{ consulting.stream.entered.board with point := some .beforeRoute },
      consulting.stream.request.parts⟩
  let w := (callRequest (erring (.error boom)) 0 ⟨false, 0⟩ bench).state
  ⟨1, ⟨true, 1⟩, w, callRequest (erring (.error boom)) 1 ⟨true, 1⟩ w⟩

theorem breaks_consulting : consulting.Breaks (.secluded (erring (.error boom)))
    (.secluded (erring (.ok .terminate))) 0 boom .request mishap :=
  .request (show consulting.stream.phase = RequestPoint.beforeRoute.phase from rfl)
    (show _ = [⟨0, ⟨false, 0⟩, _, _⟩] ++ [mishap] from rfl)
      (List.forall_mem_singleton.mpr rfl) rfl rfl

/-- The stream whose second filter broke off is ended for the panic, where it would have been for
the verdict. -/
theorem breaks_off_like_terminate_consulting :
    let l := after ⟨1⟩ {} awaited
    let breaking : Surroundings Bool Unit := .secluded (erring (.error boom))
    let ending : Surroundings Bool Unit := .secluded (erring (.ok .terminate))
    Settings.convert {} .terminate = .ok .terminate ∧
      l.Turns (.run ⟨.receive {}, false⟩ breaking ()) breaking 0 consulting ∧
      l.Turns (.run ⟨.receive {}, false⟩ ending ()) ending 0 consulting ∧
      consulting.Breaks breaking ending 0 boom .request mishap ∧
      (l.next (.run ⟨.receive {}, false⟩ ending ())).stream.board.status
        = .finished .filterTerminated ∧
      (l.next (.run ⟨.receive {}, false⟩ breaking ())).stream.board.status
        = .finished .filterPanic := by
  obtain ⟨-, -, -, -, -, hretells⟩ := breaks_off_like_terminate ⟨1⟩ {} awaited rfl
    (turns_consulting _) (turns_consulting _) breaks_consulting rfl
  have hended :
    ((after ⟨1⟩ {} awaited).next
      (.run ⟨.receive {}, false⟩ (.secluded (erring (.ok .terminate))) ())
      ).stream.board.status = .finished .filterTerminated := by decide +kernel
  refine ⟨rfl, turns_consulting _, turns_consulting _, breaks_consulting, hended, ?_⟩
  refine (congrArg (fun s : Stream Bool => s.board.status) (hretells [] nofun).1.stream).trans ?_
  exact (congrArg (Status.retold mishap.reason) hended).trans (by decide +kernel)

/-! ## What a panic does lose -/

/-- A request waits for a stream whose first filter replies to it, and whose second one gets the
response. -/
def hailed : List (Deed Bool Unit) :=
  [.add (erring (.ok .terminate)) (.request false .beforeRoute),
    .add (erring (.ok .terminate)) (.response true .beforeSend), .receive {}]

/-- The stream comes to its request filter. -/
def hailing : Turn Bool Unit :=
  (⟨{ (after ⟨1⟩ {} hailed).stream with request := {} }.entered, ()⟩ : Turn Bool Unit).advance .init

/-- It comes to its response filter. -/
def sending : Turn Bool Unit :=
  (hailing.execute (.secluded (erring (.ok .terminate))) 0).2.goto .filterResponse

/-- The call of a response filter that breaks off. -/
def loss (w : Workbench Bool) : Chain.Visit (Seated Bool) (Workbench Bool) :=
  ⟨0, ⟨true, 0⟩, w, callResponse (erring (.error boom)) 0 ⟨true, 0⟩ w⟩

/-- What the response filter works on. -/
def sendingBench : Workbench Bool :=
  ⟨sending.stream.entered.board.closeReply.2, sending.stream.response.parts⟩

/-- What the request filter does, the two runs agree on. -/
theorem execute_hailing (answer : Except Panic Verdict) :
    hailing.execute (.secluded (erring answer)) 0
    = (.goto .filterResponse, (hailing.execute (.secluded (erring (.ok .terminate))) 0).2) := by
  have hp : hailing.stream.phase = RequestPoint.beforeRoute.phase := rfl
  have hpass : hailing.stream.pass (erring answer) .beforeRoute 0
      = hailing.stream.pass (erring (.ok .terminate)) .beforeRoute 0 := rfl
  have hsame : hailing.execute (.secluded (erring answer)) 0
      = hailing.execute (.secluded (erring (.ok .terminate))) 0 := by
    rw [Turn.execute_filters _ hp, Turn.execute_filters _ hp]
    dsimp only [Surroundings.secluded]
    rw [filterRequest_entered, filterRequest_entered, Stream.passed, Stream.passed, hpass]
  rw [hsame]
  have hstep : (hailing.execute (.secluded (erring (.ok .terminate))) 0).1
      = .goto .filterResponse := by
    decide +kernel
  exact Prod.ext hstep rfl

theorem turns_sending (answer : Except Panic Verdict) :
    (after ⟨1⟩ {} hailed).Turns (.run ⟨.receive {}, false⟩ (.secluded (erring answer)) ())
      (.secluded (erring answer)) 0 sending := by
  have hstart : Turn.Stride (.secluded (erring answer))
      (0, ⟨{ (after ⟨1⟩ {} hailed).stream with request := {} }, ()⟩) (0, hailing) :=
    .next ⟨rfl, by decide +kernel⟩ rfl
  have hreply : Turn.Stride (.secluded (erring answer)) (0, hailing) (0, sending) :=
    .goto ⟨rfl, by decide +kernel⟩ (execute_hailing answer)
  exact .intro (by decide +kernel) (.receive rfl rfl) (.tail (.single hstart) hreply)
    ⟨by decide +kernel, by decide +kernel⟩

theorem breaks_sending : sending.Breaks (.secluded (erring (.error boom)))
    (.secluded (erring (.ok .terminate))) 0 boom .response (loss sendingBench) := by
  have hchain : sending.stream.filters.responses = [⟨⟨true, 0⟩, .beforeSend⟩] := rfl
  have hvisits (w : Workbench Bool) : Chain.visits ResponsePoint.beforeSend 0 .keep
      (callResponse (erring (.error boom))) [⟨⟨true, 0⟩, .beforeSend⟩] w = [] ++ [loss w] := rfl
  have hreply (w : Workbench Bool) : (erring (.ok .terminate)).reply .response 0 ⟨true, 0⟩ w
      = (⟨(loss w).left.filter.filter, (loss w).left.state.parts, .ok .terminate⟩,
        (loss w).left.state.board) := rfl
  have hv : sending.stream.filters.responses.visits .beforeSend 0 .keep
    (callResponse (erring (.error boom)))
      sendingBench = [] ++ [loss sendingBench] := by
    rw [hchain]
    exact hvisits sendingBench
  exact .response (by decide +kernel) hv (List.forall_mem_nil _) rfl (hreply sendingBench)

/-- **Replacements are lost to a panic**, if the filter had ended the stream: the two runs agree up
to the answer of the response filter, but the response has the body that the filter put in place
only where it terminates. -/
theorem unlike_replaced :
    let l := after ⟨1⟩ {} hailed
    let breaking : Surroundings Bool Unit := .secluded (erring (.error boom))
    let ending : Surroundings Bool Unit := .secluded (erring (.ok .terminate))
    Settings.convert {} .terminate = .ok .terminate ∧ breaking.behaviour.onDestroy
      = ending.behaviour.onDestroy ∧
      l.Turns (.run ⟨.receive {}, false⟩ breaking ()) breaking 0 sending ∧
      l.Turns (.run ⟨.receive {}, false⟩ ending ()) ending 0 sending ∧
      sending.Breaks breaking ending 0 boom .response (loss sendingBench) ∧
      (l.next (.run ⟨.receive {}, false⟩ ending ())).stream.response.data = some [120] ∧
      (l.next (.run ⟨.receive {}, false⟩ breaking ())).stream.response.data = some [] :=
  ⟨rfl, rfl, turns_sending _, turns_sending _, breaks_sending, by decide +kernel, by decide +kernel⟩

end FilterProxy

import FilterProxy.Proofs.Cut
import FilterProxy.Proofs.Retold

/-!
# Proofs/Breakdown — where a filter breaks off

Two runs agree up to the answer of one filter, which breaks off in one of them and answers
`terminate` in the other (`Turn.Breaks`).  The panic ends the pass and no more: **both passes end at
that filter** (`Chain.pass_of_breaks`), and both drives end there, in one stream that is told in two
ways (`Turn.Parted`).  A stream that nobody had claimed is ended by this, and only the ending that
it tells is another one.
-/

namespace FilterProxy

variable {σ ε : Type}

open Board FilterSet FilterProxy.Stream Life

/-! ## Passes -/

namespace Chain

variable {φ π ω : Type}

/-- **Two ways to call differ in the answer to the last call**: the one breaks off there, the other
terminates and leaves `w`. -/
structure Breaks (breaking ending : Nat → φ → ω → Called φ ω) (before : List (Visit φ ω))
    (v : Visit φ ω) (panic : Panic) (w : ω) : Prop where
  alike : ∀ u ∈ before, ending u.index u.filter u.state = u.left
  breaks : v.left.answer = .error panic
  ends : ending v.index v.filter v.state = ⟨.ok .terminate, v.left.filter, w⟩

variable [DecidableEq π] {point : π} {start : Nat} {convert : Converter}
  {breaking ending : Nat → φ → ω → Called φ ω}

/-- Both passes end here, and leave the same filters. -/
theorem passFrom_breaks_here (hconvert : convert .terminate = .ok .terminate) {wish : Option Phase}
    {index : Nat}
    {e : Entry φ π} {w w' : ω} {panic : Panic} (rest : Chain φ π)
    (he : start ≤ index ∧ e.point = point)
    (h : Breaks breaking ending [] ⟨index, e.filter, w, breaking index e.filter w⟩ panic w') :
    let left := breaking index e.filter w
    passFrom point start convert breaking wish index (e :: rest) w
        = ⟨.ok (.aborted (.panic index panic.message)), ⟨left.filter, e.point⟩ :: rest,
          left.state⟩ ∧
      passFrom point start convert ending wish index (e :: rest) w
        = ⟨.ok (.aborted (.verdict index)), ⟨left.filter, e.point⟩ :: rest, w'⟩ := by
  have hbroken : halts convert index (breaking index e.filter w).answer
      = some (.ok (.aborted (.panic index panic.message))) := by
    rw [show (breaking index e.filter w).answer = .error panic from h.breaks]
    rfl
  have hends : ending index e.filter w = ⟨.ok .terminate, _, _⟩ := h.ends
  have hended : halts convert index (ending index e.filter w).answer
    = some (.ok (.aborted (.verdict index))) := by
    rw [hends, halts, hconvert]
    rfl
  refine ⟨passFrom_halt he hbroken, ?_⟩
  rw [passFrom_halt he hended, hends]

theorem passFrom_of_breaks (hconvert : convert .terminate = .ok .terminate) {v : Visit φ ω}
    {panic : Panic} {w' : ω} :
    ∀ (wish : Option Phase) (index : Nat) (chain : Chain φ π) (w : ω) (before : List (Visit φ ω)),
      visitsFrom point start convert breaking wish index chain w = before ++ [v] →
      Breaks breaking ending before v panic w' →
      ∃ chain' : Chain φ π,
        passFrom point start convert breaking wish index chain w
          = ⟨.ok (.aborted (.panic v.index panic.message)), chain', v.left.state⟩ ∧
        passFrom point start convert ending wish index chain w
          = ⟨.ok (.aborted (.verdict v.index)), chain', w'⟩
  | wish, index, [], w, before, hv, _ => by
    cases List.append_ne_nil_of_right_ne_nil before (List.cons_ne_nil v []) hv.symm
  | wish, index, e :: rest, w, before, hv, hbreaks => by
    by_cases he : start ≤ index ∧ e.point = point
    case neg =>
      rw [visitsFrom_skip he] at hv
      obtain ⟨chain', hbroken, hended⟩ :=
        passFrom_of_breaks hconvert wish (index + 1) rest w before hv hbreaks
      refine ⟨e :: chain', ?_, ?_⟩
      · rw [passFrom_skip he, hbroken]
      · rw [passFrom_skip he, hended]
    rcases halts_or_walks convert index (breaking index e.filter w).answer
      with ⟨result, hh⟩ | ⟨raw, ha, hc⟩
    case inl =>
      -- the call that halts the pass is the last one, which breaks off
      rw [visitsFrom_halt he hh] at hv
      obtain ⟨rfl, hlast⟩ := List.append_eq_singleton_iff.mp hv.symm |>.resolve_right (by simp)
      obtain rfl := (List.cons.inj hlast).1
      exact ⟨_, passFrom_breaks_here hconvert rest he hbreaks⟩
    case inr =>
      rw [visitsFrom_walk he ha hc] at hv
      cases before with
      | nil =>
        obtain ⟨rfl, -⟩ := List.cons.inj hv
        cases ha.symm.trans hbreaks.breaks
      | cons u before =>
        obtain ⟨rfl, hvisits⟩ := List.cons.inj hv
        obtain ⟨halike, hlater⟩ := List.forall_mem_cons.mp hbreaks.alike
        have halike : ending index e.filter w = breaking index e.filter w := halike
        obtain ⟨chain', hbroken, hended⟩ := passFrom_of_breaks hconvert (raw.target? <|> wish)
          (index + 1) rest _
          before hvisits { hbreaks with alike := hlater }
        refine ⟨⟨(breaking index e.filter w).filter, e.point⟩ :: chain', ?_, ?_⟩
        · rw [passFrom_walk he ha hc, hbroken]
        · rw [passFrom_walk he (halike ▸ ha) hc, halike, hended]

/-- **Both passes end at the call that breaks off**, and leave the same filters. -/
theorem pass_of_breaks (hconvert : convert .terminate = .ok .terminate) {chain : Chain φ π} {w : ω}
    {before : List (Visit φ ω)} {v : Visit φ ω} {panic : Panic} {w' : ω}
    (hv : chain.visits point start convert breaking w = before ++ [v])
    (h : Breaks breaking ending before v panic w') :
    ∃ chain' : Chain φ π,
      chain.pass point start convert breaking w
        = ⟨.ok (.aborted (.panic v.index panic.message)), chain', v.left.state⟩ ∧
      chain.pass point start convert ending w = ⟨.ok (.aborted (.verdict v.index)), chain', w'⟩ :=
  passFrom_of_breaks hconvert none 0 chain w before hv h

end Chain

/-! ## Streams -/

/-- What is noted of a pass of the phase that was given up. -/
def Phase.abandoned (p : Phase) (cause : Abort) : List (Event σ) :=
  match p with
  | .filterRequest => [.passed .beforeRoute (.ok (.aborted cause))]
  | .filterRouted => [.passed .afterRoute (.ok (.aborted cause))]
  | .filterHosted => [.passed .afterHost (.ok (.aborted cause))]
  | _ => []

theorem Phase.abandoned_point (point : RequestPoint) (cause : Abort) :
    (point.phase.abandoned cause : List (Event σ)) = [.passed point (.ok (.aborted cause))] := by
  cases point <;> rfl

namespace Stream

/-- The stream with no log and nothing that waits to be put in. -/
def emptied (s : Stream σ) : Stream σ :=
  { s with board := { s.board with replaced := {}, log := [] } }

/-- The rest can be told. -/
theorem emptied_retold {s : Stream σ} (hs : s.board.status = .running) (hd : s.phase ≠ .done)
    (x : Telling σ) :
    s.emptied.retold x = { s with
      response := x.response, board :=
        { s.board with replaced := x.replaced, log := x.older } } := by
  have hstatus : s.board.status.retold x.ending = s.board.status := by
    rw [hs]
    rfl
  unfold emptied retold Board.retold
  dsimp only
  rw [hstatus, if_neg hd]
  rfl

/-- A pass over request filters that was given up ends the stream. -/
theorem filterRequest_aborted (β : Behaviour σ) {point : RequestPoint} {k : Nat} {s : Stream σ}
    {cause : Abort} {chain : Chain (Seated σ) RequestPoint} {w : Workbench σ}
    (hpass : s.filters.requests.pass point k s.settings.convert (callRequest β)
      ⟨{ s.board with point := some point }, s.request.parts⟩ = ⟨.ok (.aborted cause), chain, w⟩) :
    s.filterRequest β point k = (.finish cause.ending, noteAbort cause { s.inRequests chain w with
      board := { w.board with point := none }.note (.passed point (.ok (.aborted cause))) }) := by
  unfold filterRequest passRequests
  dsimp only
  rw [hpass]
  rfl

/-- A pass over response filters likewise. -/
theorem filterResponse_aborted (β : Behaviour σ) {k : Nat} {s : Stream σ} {cause : Abort}
    {chain : Chain (Seated σ) ResponsePoint} {w : Workbench σ}
    (hpass : s.filters.responses.pass .beforeSend k .keep (callResponse β)
      ⟨s.board.closeReply.2, s.response.parts⟩ = ⟨.ok (.aborted cause), chain, w⟩) :
    s.filterResponse β k = (.finish cause.ending, (s.inResponses chain w).noteAbort cause) := by
  unfold filterResponse passResponse passResponses
  dsimp only
  rw [hpass]
  rfl

end Stream

/-! ## Turns -/

/-- The ending of a stream that a filter broke off, in place of the one it ended by its verdict. -/
def Ending.blamed : Ending → Ending
  | .filterTerminated => .filterPanic
  | ending => ending

/-- What the program of a filter leaves that is called: its reply, and the board. -/
def Behaviour.reply (β : Behaviour σ) : Side → Nat → Seated σ → Workbench σ → Reply σ × Board σ
  | .request, i, f, w => (β.onRequest f.filter w.board.context w.parts).through f
      (w.board.note (.called .request i f.filter w.board.point w.parts))
  | .response, i, f, w =>
    let put := w.board.putReplaced w.parts
    (β.onResponse f.filter put.2.context put.1).through f
      (put.2.note (.called .response i f.filter put.2.point put.1))

namespace FilterSet

variable {β : Behaviour σ} {i : Nat} {f f' : Seated σ} {w : Workbench σ} {parts : Parts}
  {verdict : Verdict} {b : Board σ}

theorem callRequest_of_reply (h : β.reply .request i f w = (⟨f'.filter, parts, .ok verdict⟩, b))
    (hseat : f'.seat = f.seat) : callRequest β i f w = ⟨.ok verdict, f', ⟨b, parts⟩⟩ := by
  have hcall : callRequest β i f w = ⟨(β.reply .request i f w).1.answer,
    ⟨(β.reply .request i f w).1.filter, f.seat⟩,
    ⟨(β.reply .request i f w).2, (β.reply .request i f w).1.parts⟩⟩ := rfl
  rw [hcall, h, ← hseat]

/-- A response filter that answers has put in what it replaced. -/
theorem callResponse_of_reply (h : β.reply .response i f w = (⟨f'.filter, parts, .ok verdict⟩, b))
    (hseat : f'.seat = f.seat) :
    callResponse β i f w
      = ⟨.ok verdict, f', ⟨{ b with replaced := {} }, b.replaced.over parts⟩⟩ := by
  dsimp only [Behaviour.reply, Board.note] at h
  dsimp only [callResponse, Board.note]
  rw [h, ← hseat]
  rfl

end FilterSet

namespace Turn

/-- **Two turns that differ in one answer**: the filter of `v` breaks off with `panic` in the
surroundings `c₁`, and answers `terminate` in the surroundings `c`.  What its program did until then
is the same. -/
inductive Breaks (c₁ c : Surroundings σ ε) (k : Nat) (t : Turn σ ε) (panic : Panic) :
    Side → Chain.Visit (Seated σ) (Workbench σ) → Prop
  | request {point : RequestPoint} {before v} (hp : t.stream.phase = point.phase)
      (hv : t.stream.filters.requests.visits point k t.stream.settings.convert
        (callRequest c₁.behaviour)
        ⟨{ t.stream.entered.board with point := some point }, t.stream.request.parts⟩
          = before ++ [v])
      (halike : ∀ u ∈ before, callRequest c.behaviour u.index u.filter u.state = u.left)
      (hbreaks : v.left.answer = .error panic)
      (hends : c.behaviour.reply .request v.index v.filter v.state
        = (⟨v.left.filter.filter, v.left.state.parts, .ok .terminate⟩, v.left.state.board)) :
      Breaks c₁ c k t panic .request v
  | response {before v} (hp : t.stream.phase = .filterResponse)
      (hv : t.stream.filters.responses.visits .beforeSend k .keep (callResponse c₁.behaviour)
        ⟨t.stream.entered.board.closeReply.2, t.stream.response.parts⟩ = before ++ [v])
      (halike : ∀ u ∈ before, callResponse c.behaviour u.index u.filter u.state = u.left)
      (hbreaks : v.left.answer = .error panic)
      (hends : c.behaviour.reply .response v.index v.filter v.state
        = (⟨v.left.filter.filter, v.left.state.parts, .ok .terminate⟩, v.left.state.board)) :
      Breaks c₁ c k t panic .response v

/-- How a stream is told that a filter ended by its verdict. -/
def told (t : Turn σ ε) (side : Side) (v : Chain.Visit (Seated σ) (Workbench σ)) : Telling σ where
  ending := id
  older := t.stream.phase.abandoned (.verdict v.index) ++ v.left.state.board.log
  replaced := match side with
    | .request => v.left.state.board.replaced
    | .response => {}
  response := match side with
    | .request => t.stream.response
    | .response => (v.left.state.board.replaced.over v.left.state.parts).message

/-- How it is told if the filter broke off: nothing more was put into the response. -/
def toldBroken (f : Ending → Ending) (t : Turn σ ε) (panic : Panic) (side : Side)
    (v : Chain.Visit (Seated σ) (Workbench σ)) : Telling σ where
  ending := f
  older := .stat .filterPanicked ::
    (t.stream.phase.abandoned (.panic v.index panic.message) ++ v.left.state.board.log)
  replaced := v.left.state.board.replaced
  response := match side with
    | .request => t.stream.response
    | .response => v.left.state.parts.message

/-- **Both turns end `y`**, told in the one way or the other. -/
structure Parted (c₁ c : Surroundings σ ε) (k : Nat) (t : Turn σ ε) (panic : Panic) (side : Side)
    (v : Chain.Visit (Seated σ) (Workbench σ)) (y : Stream σ) : Prop where
  broken : ∀ f, t.execute c₁ k
    = (.finish .filterPanic, { t with stream := y.retold (t.toldBroken f panic side v) })
  ended : t.execute c k = (.finish .filterTerminated, { t with stream := y.retold (t.told side v) })
  claimed : y.board.claimed = v.left.state.board.claimed
  owned : y.board.owned = true
  awake : y.pausedBy = none
  latest : v.left.state.board.log.head?.any Event.isReply = false

variable {c₁ c : Surroundings σ ε} {k : Nat} {t : Turn σ ε} {panic : Panic} {side : Side}
  {v : Chain.Visit (Seated σ) (Workbench σ)}

theorem parted_request {point : RequestPoint} {before : List (Chain.Visit (Seated σ) (Workbench σ))}
    (hl : t.stream.Live) (ho : t.stream.board.owned = true) (hb : t.stream.pausedBy = none)
    (hs : t.stream.board.status = .running)
    (hconvert : t.stream.settings.convert .terminate = .ok .terminate)
    (hp : t.stream.phase = point.phase)
    (hv : t.stream.filters.requests.visits point k t.stream.settings.convert
      (callRequest c₁.behaviour)
      ⟨{ t.stream.entered.board with point := some point }, t.stream.request.parts⟩ = before ++ [v])
    (hbreaks : Chain.Breaks (callRequest c₁.behaviour) (callRequest c.behaviour) before v panic
      v.left.state) :
    ∃ y, t.Parted c₁ c k panic .request v y := by
  obtain ⟨chain, hbroken, hended⟩ := Chain.pass_of_breaks hconvert hv hbreaks
  obtain ⟨hattends, hstatus⟩ := attends_requests c₁.behaviour ho hbroken
  have htold := emptied_retold
    (s := t.stream.inRequests chain ⟨{ v.left.state.board with point := none }, v.left.state.parts⟩)
    (hstatus.trans hs) hl.notDone
  have hnoted (cause : Abort) :
      (t.stream.phase.abandoned cause : List (Event σ))
        = [.passed point (.ok (.aborted cause))] := by
    rw [hp, Phase.abandoned_point]
  refine ⟨Stream.emptied
    (t.stream.inRequests chain ⟨{ v.left.state.board with point := none }, v.left.state.parts⟩), ?_⟩
  exact
    { broken := fun f => by
        rw [execute_filters c₁ hp, filterRequest_aborted (s := t.stream.entered) c₁.behaviour
          hbroken, htold]
        rw [toldBroken, hnoted]
        rfl
      ended := by
        rw [execute_filters c hp, filterRequest_aborted (s := t.stream.entered) c.behaviour hended,
          htold]
        rw [told, hnoted]
        rfl
      claimed := rfl
      owned := hattends.owned
      awake := hb
      latest := hattends.latest }

theorem parted_response {before : List (Chain.Visit (Seated σ) (Workbench σ))}
    (hl : t.stream.Live) (ho : t.stream.board.owned = true) (hb : t.stream.pausedBy = none)
    (hs : t.stream.board.status = .running) (hp : t.stream.phase = .filterResponse)
    (hv : t.stream.filters.responses.visits .beforeSend k .keep (callResponse c₁.behaviour)
      ⟨t.stream.entered.board.closeReply.2, t.stream.response.parts⟩ = before ++ [v])
    (hbreaks : Chain.Breaks (callResponse c₁.behaviour) (callResponse c.behaviour) before v panic
      ⟨{ v.left.state.board with replaced := {} },
        v.left.state.board.replaced.over v.left.state.parts⟩) :
    ∃ y, t.Parted c₁ c k panic .response v y := by
  obtain ⟨chain, hbroken, hended⟩ :=
    Chain.pass_of_breaks (show Converter.keep .terminate = .ok .terminate from rfl) hv hbreaks
  obtain ⟨hattends, hstatus, -⟩ := attends_responses c₁.behaviour ho hbroken
  have htold := emptied_retold (s := t.stream.inResponses chain v.left.state)
    (hstatus.trans hs) hl.notDone
  have hnoted (cause : Abort) : (t.stream.phase.abandoned cause : List (Event σ)) = [] := by
    rw [hp]
    rfl
  refine ⟨(t.stream.inResponses chain v.left.state).emptied, ?_⟩
  exact
    { broken := fun f => by
        rw [execute_filterResponse c₁ hp, filterResponse_aborted (s := t.stream.entered)
          c₁.behaviour hbroken, htold]
        rw [toldBroken, hnoted]
        rfl
      ended := by
        rw [execute_filterResponse c hp, filterResponse_aborted (s := t.stream.entered) c.behaviour
          hended, htold]
        rw [told, hnoted]
        rfl
      claimed := rfl
      owned := hattends.owned
      awake := hb
      latest := hattends.latest }

/-- **Two turns that differ in one answer part in how the stream is told.** -/
theorem Breaks.exists_parted (h : t.Breaks c₁ c k panic side v) (hl : t.stream.Live)
    (ho : t.stream.board.owned = true) (hb : t.stream.pausedBy = none)
    (hs : t.stream.board.status = .running)
    (hconvert : t.stream.settings.convert .terminate = .ok .terminate) :
    ∃ y, t.Parted c₁ c k panic side v y := by
  cases h with
  | request hp hv halike hbreaks hends =>
    have hseat := seat_left (fun _ _ _ => rfl) hv
    exact parted_request hl ho hb hs hconvert hp hv
      ⟨halike, hbreaks, callRequest_of_reply hends hseat⟩
  | response hp hv halike hbreaks hends =>
    have hseat := seat_left (seat_callResponse c₁.behaviour) hv
    exact parted_response hl ho hb hs hp hv ⟨halike, hbreaks, callResponse_of_reply hends hseat⟩

namespace Parted

variable {y : Stream σ}

/-- Both drives end at that filter. -/
theorem drive_eq (h : t.Parted c₁ c k panic side v y) (hl : t.stream.Live)
    (ho : t.stream.board.owned = true) (f : Ending → Ending) :
    t.drive c₁ k = ({ t with stream := y.retold (t.toldBroken f panic side v) } : Turn σ ε).alone
        (·.finish c₁.behaviour .filterPanic) ∧
      t.drive c k = ({ t with stream := y.retold (t.told side v) } : Turn σ ε).alone
        (·.finish c.behaviour .filterTerminated) :=
  ⟨(Turn.drives_drive c₁ k t ho).eq_of_stops (.finish hl (h.broken f)),
    (Turn.drives_drive c k t ho).eq_of_stops (.finish hl h.ended)⟩

/-- If the stream was claimed before, then nothing else is done. -/
theorem drive_of_claimed (h : t.Parted c₁ c k panic side v y) (hl : t.stream.Live)
    (ho : t.stream.board.owned = true) (hc : v.left.state.board.claimed = true) :
    t.drive c₁ k = (none, { t with stream := y.retold (t.toldBroken id panic side v) }) ∧
      t.drive c k = (none, { t with stream := y.retold (t.told side v) }) := by
  obtain ⟨hbroken, hended⟩ := h.drive_eq hl ho id
  have hclaimed (x : Telling σ) : (y.retold x).board.claimed = true := h.claimed.trans hc
  rw [hbroken, hended, alone, alone, finish_of_claimed c₁.behaviour (hclaimed _),
    finish_of_claimed c.behaviour (hclaimed _)]
  exact ⟨rfl, rfl⟩

/-- If not, then the stream is ended, for the panic in place of the verdict. -/
theorem drive_of_unclaimed (h : t.Parted c₁ c k panic side v y) (hl : t.stream.Live)
    (ho : t.stream.board.owned = true) (hc : v.left.state.board.claimed = false)
    (hdestroy : c₁.behaviour.onDestroy = c.behaviour.onDestroy) :
    let r := y.finish c.behaviour .filterTerminated
    t.drive c₁ k
      = (r.1, { t with stream := r.2.retold (t.toldBroken Ending.blamed panic side v).cleared }) ∧
      t.drive c k = (r.1, { t with stream := r.2.retold (t.told side v).cleared }) := by
  obtain ⟨hbroken, hended⟩ := h.drive_eq hl ho Ending.blamed
  have hclaimed : y.board.claimed = false := h.claimed.trans hc
  have hpanic := finish_retold (t.toldBroken Ending.blamed panic side v) c.behaviour
    hclaimed h.owned
    .filterTerminated rfl
  have hverdict := finish_retold (t.told side v) c.behaviour hclaimed h.owned .filterTerminated rfl
  rw [hbroken, hended, alone, alone, finish_congr hdestroy]
  exact ⟨congrArg (fun r : Option Panic × Stream σ => (r.1, ({ t with stream := r.2 } : Turn σ ε)))
    hpanic,
    congrArg (fun r : Option Panic × Stream σ => (r.1, ({ t with stream := r.2 } : Turn σ ε)))
      hverdict⟩

/-- The same jobs were put out, however the stream is told. -/
theorem agrees (h : t.Parted c₁ c k panic side v y) (f : Ending → Ending) :
    (t.told side v).Agrees (t.toldBroken f panic side v) := by
  have hlatest := h.latest
  constructor
  · cases hp : t.stream.phase <;> simp [told, toldBroken, hp, Phase.abandoned,
      Event.isReply, hlatest]
  · cases hp : t.stream.phase <;> simp [told, toldBroken, hp, Phase.abandoned, posted,
      Event.posting?]

end Parted

end Turn

end FilterProxy

import FilterProxy.Proofs.Conclusion
import FilterProxy.Proofs.Sight

/-!
# Proofs/Outlook — what is read in the course of a life

The log of a stream tells which point stands to be read (`standing`) and which pass is being made
(`executing`), and every handle reads the former (`Board.Told.reads`).  The two differ just where
the view is **blurred** (`standing_eq`): a claim takes the point away from a pass that goes on, and
a converter that breaks a pass off leaves the point behind.
-/

namespace FilterProxy

variable {σ ε : Type}

open Board FilterSet FilterProxy.Stream Life

/-! ## What logs tell of the point -/

/-- The point whose request filters a phase runs. -/
def Phase.point? : Phase → Option RequestPoint
  | .filterRequest => some .beforeRoute
  | .filterRouted => some .afterRoute
  | .filterHosted => some .afterHost
  | _ => none

@[simp] theorem RequestPoint.point?_phase (point : RequestPoint) :
    point.phase.point? = some point := by
  cases point <;> rfl

theorem Phase.eq_of_point? {p : Phase} {point : RequestPoint} (h : p.point? = some point) :
    p = point.phase := by
  cases p <;> cases h <;> rfl

/-- **The point of the pass that is being made** over request filters, if one is. -/
def executing : List (Event σ) → Option RequestPoint
  | [] => none
  | .entered p :: _ => p.point?
  | .passed _ _ :: _ => none
  | _ :: older => executing older

/-- The point of the last pass over request filters, if a converter broke it off. -/
def brokenOff : List (Event σ) → Option RequestPoint
  | [] => none
  | .passed point (.error _) :: _ => some point
  | .passed _ (.ok _) :: _ => none
  | _ :: older => brokenOff older

/-- **The point that stands to be read**: set as a phase is entered, and reset as its pass ends and
by a claim. -/
def standing : List (Event σ) → Option RequestPoint
  | [] => none
  | .entered p :: older => p.point? <|> standing older
  | .passed _ (.ok _) :: _ => none
  | .claimed _ :: _ => none
  | _ :: older => standing older

section

variable {e : Event σ} {log : List (Event σ)} (h : e.turns = false)

include h

theorem executing_cons : executing (e :: log) = executing log := by
  cases e <;> first | rfl | cases h

theorem standing_cons : standing (e :: log) = standing log := by
  cases e <;> first | rfl | cases h

theorem claims_eq_of_not_turns : claims (e :: log) = claims log := by
  cases e <;> first | rfl | cases h

end

namespace Event

/-- A handle reads the point that stands. -/
def Reads (e : Event σ) (older : List (Event σ)) : Prop :=
  ∀ read, e.reading? = some read → read = standing older

/-- A phase is entered between passes and before any claim; a pass ends that is being made. -/
def Ordered : Event σ → List (Event σ) → Prop
  | .entered _, older => executing older = none ∧ claims older = []
  | .passed point _, older => executing older = some point
  | _, _ => True

theorem ordered_of_not_turns {e : Event σ} (h : e.turns = false) (older : List (Event σ)) :
    e.Ordered older := by
  cases e <;> trivial

end Event

/-- **What stands to be read**: the point of the pass that is being made, or of one that was broken
off; once the stream is claimed, nothing. -/
theorem standing_eq {log : List (Event σ)} (h : Throughout Event.Ordered log) :
    standing log = if claims log = [] then executing log <|> brokenOff log else none := by
  induction log with
  | nil => rfl
  | cons e older ih =>
    obtain ⟨he, hlog⟩ := Throughout.cons_iff.mp h
    have ih := ih hlog
    cases e with
    | entered p =>
      obtain ⟨hnone, hclaims⟩ := he
      simp [standing, executing, brokenOff, claims_cons, Event.claim?, ih, hnone, hclaims]
    | passed point result =>
      have hexecuting : executing older = some point := he
      cases result <;> simp [standing, executing, brokenOff, claims_cons, Event.claim?,
        ih, hexecuting]
    | claimed ending => simp [standing, claims_cons, Event.claim?]
    | _ => simpa [standing, executing, brokenOff, claims_cons, Event.claim?] using ih

/-- **The view is blurred**: the stream was claimed in the course of the pass that is being made; or
none is, and a converter broke off the last one of a stream that nobody claimed. -/
def Blurred (log : List (Event σ)) : Prop :=
  match executing log with
  | some _ => claims log ≠ []
  | none => claims log = [] ∧ brokenOff log ≠ none

theorem standing_eq_executing_iff {log : List (Event σ)} (h : Throughout Event.Ordered log) :
    standing log = executing log ↔ ¬ Blurred log := by
  rw [standing_eq h, Blurred]
  cases executing log <;> split <;> simp_all

namespace Board

variable {b b' : Board σ}

/-- **The log tells the truth about the point.** -/
structure Told (b : Board σ) : Prop where
  point : b.point = standing b.log
  unclaimed : b.claimed = false → claims b.log = []
  reads : Throughout Event.Reads b.log
  ordered : Throughout Event.Ordered b.log

theorem Told.note {e : Event σ} (h : b.Told) (he : e.Faithful b.point) : (b.note e).Told where
  point := h.point.trans (standing_cons he.turns).symm
  unclaimed hc := (claims_eq_of_not_turns he.turns).trans (h.unclaimed hc)
  reads := Throughout.cons_iff.mpr ⟨fun read hr => (he.reading read hr).trans h.point, h.reads⟩
  ordered := Throughout.cons_iff.mpr ⟨Event.ordered_of_not_turns he.turns _, h.ordered⟩

/-- A claim is told. -/
theorem Told.claim (h : b.Told) (ending : Ending) :
    (b.claim ending).2.Told ∧ executing (b.claim ending).2.log = executing b.log := by
  cases hc : b.claimed with
  | true => rw [claim_of_claimed hc]; exact ⟨h, rfl⟩
  | false =>
    have hreads : Throughout Event.Reads (claimEvents ending ++ b.log) :=
      h.reads.append fun newer e added hsplit read hr => by
        rcases mem_claimEvents (hsplit ▸ List.mem_append_cons_self)
          with rfl | rfl | rfl <;> cases hr
    have hordered : Throughout Event.Ordered (claimEvents ending ++ b.log) :=
      h.ordered.append fun newer e added hsplit => by
        rcases mem_claimEvents (hsplit ▸ List.mem_append_cons_self) with rfl | rfl | rfl <;> trivial
    rw [claim_of_unclaimed hc]
    refine ⟨⟨?_, nofun, hreads, hordered⟩, ?_⟩
    · cases ha : ending.isAbort <;> simp [claimEvents, ha, standing, clear]
    · cases ha : ending.isAbort <;> simp [claimEvents, ha, executing]

/-- **Work on the board of a stream is told**, and neither begins nor ends a pass. -/
theorem Told.works (h : b.Told) (ho : b.owned = true) (hw : Works b b') :
    b'.Told ∧ executing b'.log = executing b.log := by
  induction hw with
  | refl => exact ⟨h, rfl⟩
  | @tail b₁ b₂ hb hw ih =>
    obtain ⟨ih, hexecuting⟩ := ih
    rw [← hexecuting]
    cases hw with
    | write hp hc _ hl =>
      refine ⟨⟨?_, ?_, hl ▸ ih.reads, hl ▸ ih.ordered⟩, by rw [hl]⟩
      · rw [hp, hl]
        exact ih.point
      · rw [hc, hl]
        exact ih.unclaimed
    | note he => exact ⟨ih.note he, executing_cons he.turns⟩
    | claim ending => exact ih.claim ending
    | abandon hn => exact absurd (hn.symm.trans ((Works.owned hb).trans ho)) Bool.false_ne_true

/-- **The board of a stream between passes.** -/
structure Rested (b : Board σ) : Prop extends Told b where
  owned : b.owned = true
  idle : executing b.log = none

theorem Rested.works (h : b.Rested) (hw : Works b b') : b'.Rested := by
  obtain ⟨htold, hexecuting⟩ := h.toTold.works h.owned hw
  exact ⟨htold, (Works.owned hw).trans h.owned, hexecuting.trans h.idle⟩

/-- A phase is entered. -/
theorem Rested.ordered_entered (h : b.Rested) (hc : b.claimed = false) (p : Phase) :
    Throughout Event.Reads (.entered p :: b.log) ∧ Throughout Event.Ordered (.entered p :: b.log) :=
  ⟨Throughout.cons_iff.mpr ⟨nofun, h.reads⟩,
    Throughout.cons_iff.mpr ⟨⟨h.idle, h.unclaimed hc⟩, h.ordered⟩⟩

/-- A phase is entered that runs no request filters… -/
theorem Rested.enter {p : Phase} (h : b.Rested) (hc : b.claimed = false) (hp : p.point? = none) :
    (b.note (.entered p)).Rested where
  point := h.point.trans (by simp [note, standing, hp])
  unclaimed := h.unclaimed
  reads := (h.ordered_entered hc p).1
  ordered := (h.ordered_entered hc p).2
  owned := h.owned
  idle := hp

/-- …and one that runs those of a point. -/
theorem Rested.begin (h : b.Rested) (hc : b.claimed = false) (point : RequestPoint) :
    ({ b.note (.entered point.phase) with point := some point } : Board σ).Told where
  point := by simp [note, standing]
  unclaimed := h.unclaimed
  reads := (h.ordered_entered hc point.phase).1
  ordered := (h.ordered_entered hc point.phase).2

end Board

/-! ## Executing a phase -/

namespace Stream

section

variable (β : Behaviour σ) (s : Stream σ)

theorem works_release (ending : Ending) : Works s.board (s.release β ending).2.board := by
  have hparting := (works_destroy β s.filters s.board).1
  rw [release_eq]
  cases (s.filters.destroy β s.board).1 with
  | some p => exact hparting
  | none => exact hparting.trans (works_publish _ _)

theorem works_finish (ending : Ending) : Works s.board (s.finish β ending).2.board := by
  cases hc : s.board.claimed with
  | true => rw [finish_of_claimed β hc]
  | false =>
    rw [finish_of_unclaimed β hc]
    exact .head (.claim s.board ending)
      (works_release β { s with board := (s.board.claim ending).2 } ending)

theorem works_pause (n : Nat) : Works s.board (s.pause n).2.board := by
  cases hc : s.board.claimed with
  | true => rw [pause_of_claimed n hc]
  | false =>
    rw [pause_of_unclaimed n hc]
    cases s.settings.stopTimeout with
    | none => exact works_publish s.board _
    | some delay => exact (works_publish s.board _).tail (.effect _ rfl rfl)

theorem works_noteAbort (cause : Abort) : Works s.board (s.noteAbort cause).board := by
  cases cause with
  | panic => exact .single (.effect s.board rfl rfl)
  | verdict => exact .refl

theorem works_passResponse (k : Nat) (convert : Converter) :
    Works s.board (s.passResponse β .beforeSend k convert).2.board :=
  works_passResponses β .beforeSend k convert s.filters ⟨s.board, s.response.parts⟩

theorem works_filterResponse (k : Nat) : Works s.board (s.filterResponse β k).2.board := by
  have hclosed : Works s.board s.board.closeReply.2 := .single (.write rfl rfl rfl rfl)
  have hpass :=
    hclosed.trans (works_passResponse β { s with board := s.board.closeReply.2 } k .keep)
  unfold filterResponse
  dsimp only
  generalize ({ s with board := s.board.closeReply.2 } : Stream σ).passResponse β .beforeSend k
    .keep = r at hpass ⊢
  split
  · exact hpass
  · exact hpass
  · exact hpass
  · exact hpass.trans (works_pause r.2 _)
  · exact hpass.trans (works_noteAbort r.2 _)

theorem works_runResponseFilters (message : Message) (convert : Converter) :
    Works s.board (s.runResponseFilters β .beforeSend message convert).2.board := by
  have hpass := works_passResponse β { s with response := message } 0 convert
  unfold runResponseFilters
  dsimp only
  generalize ({ s with response := message } : Stream σ).passResponse β .beforeSend 0 convert
    = r at hpass ⊢
  split
  case h_1 cause _ =>
    have hended :=
      hpass.trans ((works_noteAbort r.2 cause).trans
        (works_finish β (r.2.noteAbort cause) cause.ending))
    split <;> exact hended
  case h_2 => exact hpass

end

variable {β : Behaviour σ} {s s' : Stream σ} {point : RequestPoint} {k : Nat}

/-- Nothing is read as a pass is concluded. -/
theorem Concludes.works {result : Except Panic Outcome} {step : Step}
    (h : s.Concludes result step s') :
    Works s.board s'.board := by
  cases h with
  | reply => exact .single (.write rfl rfl rfl rfl)
  | pause => exact works_pause s _
  | abort cause => exact works_noteAbort s cause
  | _ => exact .refl

/-- **A pass of request filters is told**: it begins as its phase is entered, and ends. -/
theorem rested_passed (hp : s.phase = point.phase) (hc : s.board.claimed = false)
    (h : s.board.Rested) :
    (s.passed β point k).board.Rested := by
  have hbegun : ({ s.entered.board with point := some point } : Board σ).Told := by
    rw [show s.entered.board = s.board.note (.entered point.phase) by rw [← hp]; rfl]
    exact h.begin hc point
  have hentered : executing s.entered.board.log = some point := by simp [executing, hp]
  have hworks := (works_pass point k s.settings.convert (works_callRequest β)
    s.entered.filters.requests
    ⟨{ s.entered.board with point := some point }, s.request.parts⟩).1
  obtain ⟨htold, hexecuting⟩ := hbegun.works h.owned hworks
  replace hexecuting := hexecuting.trans hentered
  have howned := (Works.owned hworks).trans h.owned
  unfold passed pass passRequests
  dsimp only
  generalize s.entered.filters.requests.pass point k s.settings.convert (callRequest β) _ = r
    at htold hexecuting howned ⊢
  have hreads (result : Except Panic Outcome) :
    Throughout Event.Reads (.passed point result :: r.state.board.log) :=
    Throughout.cons_iff.mpr ⟨nofun, htold.reads⟩
  have hordered (result : Except Panic Outcome) :
      Throughout Event.Ordered (.passed point result :: r.state.board.log) :=
    Throughout.cons_iff.mpr ⟨hexecuting, htold.ordered⟩
  cases r.result with
  | error p => exact ⟨⟨htold.point, htold.unclaimed, hreads _, hordered _⟩, howned, rfl⟩
  | ok outcome => exact ⟨⟨rfl, htold.unclaimed, hreads _, hordered _⟩, howned, rfl⟩

end Stream

namespace Turn

variable (c : Surroundings σ ε) (k : Nat) (t : Turn σ ε)

theorem works_matchRoute : Works t.stream.board (t.matchRoute c).2.stream.board := by
  unfold matchRoute
  dsimp only
  split
  · exact .single (.effect _ rfl rfl)
  · exact .single (.effect _ rfl rfl)
  · exact .tail (.single (.effect _ rfl rfl)) (.write rfl rfl rfl rfl)

theorem works_chooseHost : Works t.stream.board (t.chooseHost c).2.stream.board := by
  unfold chooseHost
  split
  · exact .refl
  · dsimp only
    split
    · exact .single (.effect _ rfl rfl)
    · exact .single (.effect _ rfl rfl)
    · exact .tail (.single (.effect _ rfl rfl)) (.write rfl rfl rfl rfl)

theorem works_answer (s : Stream σ) (h : Handover) : Works s.board (answer s h).board := by
  cases h with
  | kept | dropped => exact .refl
  | responded m => exact works_schedule s.board _
  | failed failure => exact works_terminate s.board _

theorem works_forward : Works t.stream.board (t.forward c).2.stream.board := by
  unfold forward
  split
  · exact .refl
  · dsimp only
    split
    · exact .head (.effect _ rfl rfl) (works_answer (t.stream.note _) _)
    · exact .head (.effect _ rfl rfl) (works_answer (t.stream.note _) _)

theorem works_respond : Works t.stream.board (t.respond c).2.stream.board := by
  unfold respond
  dsimp only
  -- only a response with a code leaves its code behind; the rest is the same
  cases (t.stream.board.putReplaced t.stream.response.parts).1.message.code?
  all_goals
    dsimp only
    split
    case h_1 =>
      refine .tail (.single ?_) (.effect _ rfl rfl)
      exact .write rfl rfl rfl rfl
    case h_2 =>
      refine .tail (.single ?_) (.effect _ rfl rfl)
      exact .write rfl rfl rfl rfl
    case h_3 =>
      refine .tail (.tail (.single ?_) (.effect _ rfl rfl)) (.effect _ rfl rfl)
      exact .write rfl rfl rfl rfl

/-- All but a phase of request filters is work. -/
theorem works_step (hp : t.stream.phase.point? = none) :
    Works t.stream.board (t.step c k).2.stream.board := by
  unfold step
  split
  · exact .refl
  · rename_i h; rw [h] at hp; cases hp
  · exact works_matchRoute c t
  · rename_i h; rw [h] at hp; cases hp
  · exact works_chooseHost c t
  · rename_i h; rw [h] at hp; cases hp
  · exact works_forward c t
  · exact .refl
  · exact works_filterResponse c.behaviour t.stream k
  · exact works_respond c t
  · exact .refl

variable {c k t} {t' : Turn σ ε} {step : Step}

/-- **Every phase is told.** -/
theorem rested_execute (hl : t.stream.Live) (h : t.stream.board.Rested)
    (hx : t.execute c k = (step, t')) :
    t'.stream.board.Rested := by
  cases hp : t.stream.phase.point? with
  | none =>
    obtain rfl : (t.execute c k).2 = t' := by rw [hx]
    exact (h.enter hl.unclaimed hp).works (works_step c k ⟨t.stream.entered, t.env⟩ hp)
  | some point =>
    have hp := Phase.eq_of_point? hp
    obtain ⟨hconcludes, -⟩ := concludes_execute hp h.owned hx
    exact (rested_passed hp hl.unclaimed h).works hconcludes.works

variable {x y : Nat × Turn σ ε}

theorem Stride.rested (h : Stride c x y) (hx : x.2.stream.board.Rested) :
    y.2.stream.board.Rested := by
  cases h with
  | next hl he => exact (rested_execute hl hx he).works (.single (.effect _ rfl rfl))
  | @goto k t t' q hl he => exact (rested_execute hl hx he : t'.stream.board.Rested)
  | jump hl he => exact (rested_execute hl hx he).works (.single (.effect _ rfl rfl))

/-- **A drive is told.** -/
theorem Drives.rested {r : Option Panic × Turn σ ε} (h : Drives c x r)
    (hx : x.2.stream.board.Rested) :
    r.2.stream.board.Rested := by
  obtain ⟨y, hstrides, hstop⟩ := h
  have hy : y.2.stream.board.Rested := by
    clear hstop
    induction hstrides with
    | refl => exact hx
    | tail _ hs ih => exact hs.rested ih
  cases hstop with
  | halt => exact hy
  | rest hl he => exact rested_execute hl hy he
  | escape hl he => exact rested_execute hl hy he
  | @finish k t t' ending hl he =>
    exact (rested_execute hl hy he).works (works_finish c.behaviour t'.stream ending)
  | @overrun k t t' q hl he =>
    exact (rested_execute hl hy he).works (works_finish c.behaviour t'.stream .tooManyJumps)

/-- **A job is told.** -/
theorem Ran.rested {job : Job} {r : Option Panic × Turn σ ε} (h : Ran c t job r)
    (ht : t.stream.board.Rested) :
    r.2.stream.board.Rested := by
  cases h with
  | idle => exact ht
  | timeout => exact ht.works (works_finish c.behaviour t.stream .stopTimeout)
  | release ending => exact ht.works (works_release c.behaviour t.stream ending)
  | @drive _ start s ho =>
    have hs : s.board.Rested := by
      cases ho with
      | receive => exact ht
      | resume => exact ht.works (works_publish _ _)
      | reroute => exact ht.works ((works_publish _ _).tail (.write rfl rfl rfl rfl))
      | response =>
        refine ht.works (.tail (b := t.stream.board.closeReply.2) (.single ?_) (.effect _ rfl rfl))
        exact .write rfl rfl rfl rfl
    exact (drives_drive c start ⟨s, t.env⟩ hs.owned).rested hs

end Turn

/-! ## Whole lives -/

/-- **Every deed is told.** -/
theorem Life.rested_next {l : Life σ} (h : l.stream.board.Rested) (d : Deed σ ε) :
    (l.next d).stream.board.Rested := by
  cases d with
  | add β r => exact h.works (FilterSet.works_introduce β l.stream.filters l.stream.board r).1
  | receive | resume => exact h.works (works_schedule _ _)
  | terminate ending => exact h.works (works_terminate _ _)
  | act side filter index program => exact h.works (works_run filter index program _)
  | answer answer => exact h.works (Turn.works_answer _ _)
  | direct c message convert =>
    exact h.works (works_runResponseFilters c.behaviour l.stream message convert)
  | run p c env =>
    by_cases hp : l.Due p
    case neg => rwa [Life.next, if_neg hp]
    have hran := (Turn.ran_exec c ⟨l.stream, env⟩ p.job).rested h
    rw [Life.next, if_pos hp]
    dsimp only
    cases (Turn.exec c p.job ⟨l.stream, env⟩).1 with
    | none => exact hran
    | some panic => exact hran.works (.single (.effect _ rfl rfl))

theorem Life.rested_after (id : StreamId) (settings : Settings) (deeds : List (Deed σ ε)) :
    (after id settings deeds).stream.board.Rested := by
  induction deeds using List.reverseRecOn with
  | nil =>
    have hreads : Throughout Event.Reads (.stat .created :: [] : List (Event σ)) :=
      Throughout.cons_iff.mpr ⟨nofun, .nil⟩
    have hordered : Throughout Event.Ordered (.stat .created :: [] : List (Event σ)) :=
      Throughout.cons_iff.mpr ⟨trivial, .nil⟩
    exact ⟨⟨rfl, fun _ => rfl, hreads, hordered⟩, rfl, rfl⟩
  | append_singleton deeds d ih =>
    rw [after_append]
    exact rested_next ih d

/-- **Where handles read the point of the pass that is being made, and none where none is.**
Filters without a stream read the point of a pass over them until their board is claimed in the
course of it.  Between passes, and whatever else is done with them, they read none, unless the point
of the last pass lingers.  Of a stream, what a handle reads is exact at every moment of every life
unless the view is blurred at that moment, and so is what is left to be read between deeds, when no
pass is being made. -/
theorem point_read_exactly_iff :
    (∀ (β : Behaviour σ) (id : StreamId) (acts : List (Detached.Act σ)),
      let d := Detached.after β id acts
      (d.board.point = none ↔ ¬ Detached.Lingers β id acts) ∧
        ∀ act, readings (d.next β act).board.log = ((d.sights β act).map (·.point)).reverse
          ++ readings d.board.log ∧
          ∀ b ∈ d.sights β act, (b.point = act.point? ↔ match act.point? with
            | some _ => b.claimed = d.board.claimed
            | none => Detached.Lingers β id acts → b.claimed ≠ d.board.claimed)) ∧
      ∀ (id : StreamId) (settings : Settings) (deeds : List (Deed σ ε)),
        let l := after id settings deeds
        (executing l.log = none ∧ (l.stream.board.point = none ↔ ¬ Blurred l.log)) ∧
          ∀ e older, e :: older <:+ l.log → ∀ read, e.reading? = some read →
            (read = executing older ↔ ¬ Blurred older) := by
  refine ⟨?_, fun id settings deeds => ⟨?_, ?_⟩⟩
  · intro β id acts d
    have hbetween : d.board.point = none ↔ ¬ Detached.Lingers β id acts :=
      Detached.point_after id acts
    refine ⟨hbetween, fun act => ⟨Detached.readings_next, fun b hb => ?_⟩⟩
    rw [Detached.point_sights b hb]
    cases act.point? with
    | some point => simp
    | none =>
      rw [show (none <|> d.board.point) = d.board.point from rfl, ite_eq_right_iff, hbetween]
      exact imp_not_comm
  · have h := rested_after id settings deeds
    refine ⟨h.idle, ?_⟩
    have hexact := standing_eq_executing_iff h.ordered
    rw [h.idle, ← h.point] at hexact
    exact hexact
  · rintro e older ⟨newer, hnewer⟩ read hread
    have h := rested_after id settings deeds
    have hordered : Throughout Event.Ordered (newer ++ e :: older) := by
      rw [hnewer]
      exact h.ordered
    rw [h.reads newer e older hnewer.symm read hread]
    exact standing_eq_executing_iff (Throughout.cons_iff.mp hordered.of_append).2

/-- A filter looks and lets the message pass; one that quits ends its stream first. -/
def watching : Behaviour Bool where
  onRequest quits _ parts :=
    let watch := .look fun _ => .done ⟨quits, parts, .ok .proceed⟩
    if quits then .act .terminate watch else watch
  onResponse quits _ parts := .done ⟨quits, parts, .ok .proceed⟩
  onDestroy quits _ := .done { filter := quits }

/-- A stream takes a request up with one request filter. -/
def watched (quits : Bool) : List (Deed Bool Unit) :=
  [.add watching (.request quits .beforeRoute), .receive {},
    .run ⟨.receive {}, false⟩ (.secluded watching) ()]

/-- The log of the stream that was quit, before its filter was called… -/
def beforeCalled : List (Event Bool) := (after ⟨1⟩ {} (watched true)).log.drop 8

/-- …and before it looked. -/
def beforeLooked : List (Event Bool) := (after ⟨1⟩ {} (watched true)).log.drop 3

/-- The call is told the point of its pass; the look, behind the claim, is blurred. -/
theorem point_read_exactly_iff_watched : ¬ Blurred beforeCalled ∧ Blurred beforeLooked := by
  obtain ⟨-, hreads⟩ := (point_read_exactly_iff (ε := Unit)).2 ⟨1⟩ {} (watched true)
  have hcalled : .called .request 0 true (some .beforeRoute) {} :: beforeCalled
    <:+ (after ⟨1⟩ {} (watched true)).log :=
    List.drop_suffix 7 (after ⟨1⟩ {} (watched true)).log
  have hlooked : .looked .request 0 true ⟨none, none, {}⟩ :: beforeLooked
    <:+ (after ⟨1⟩ {} (watched true)).log :=
    List.drop_suffix 2 (after ⟨1⟩ {} (watched true)).log
  constructor
  · exact (hreads _ _ hcalled _ rfl).mp (by decide +kernel)
  · by_contra hclear
    have hread := (hreads _ _ hlooked _ rfl).mpr hclear
    exact absurd hread (by decide +kernel)

/-- A policy that breaks off. -/
def breaking : Converter := fun _ => .error ⟨none⟩

/-- The only filter's answer breaks off. -/
def brokenDown : Life Bool := after ⟨1⟩ { converter := some breaking } (watched false)

/-- **A handle reads no point in the middle of a pass**, behind a claim; and where a converter broke
off, it goes on reading one when no pass is made.  So it is with a stream and without. -/
theorem claims_and_breaks_blur_view :
    (.looked .request 0 true ⟨none, none, {}⟩ :: beforeLooked
      <:+ (after ⟨1⟩ {} (watched true)).log ∧
        executing beforeLooked = some .beforeRoute) ∧
      (((Detached.after watching ⟨1⟩ [.add (.request true .beforeRoute)]).sights watching
        (.passRequests .beforeRoute 0 .keep {})).map (·.point) = [some .beforeRoute, none]) ∧
      (executing brokenDown.log = none ∧ brokenDown.stream.board.point = some .beforeRoute) ∧
      (Detached.after watching ⟨1⟩ [.passRequests .beforeRoute 0 breaking {},
        .add (.request false .beforeRoute)]).board.point = some .beforeRoute := by
  refine ⟨⟨List.drop_suffix 2 (after ⟨1⟩ {} (watched true)).log, ?_⟩, ?_, ?_, ?_⟩
  all_goals decide +kernel

end FilterProxy

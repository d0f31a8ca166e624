import FilterProxy.Proofs.Draft
import FilterProxy.Proofs.Resumption

/-!
# Proofs/Written — what is written is the draft

The revisions of a life (`Life.Recounts`) are those of its turns (`Turn.revisions`), in order, and
between them the swaps through handles that are given or were kept.  **The messages written are
those its draft sent** (`written_is_the_draft`): however often response filters stop the stream, and
whenever parts are replaced, no replacement is lost and none is put in twice.
-/

namespace FilterProxy

variable {σ ε : Type}

open Board FilterSet FilterProxy.Stream Life

/-! ## The messages written -/

/-- The message written to the client. -/
def Event.written? : Event σ → Option Message
  | .written m _ => some m
  | _ => none

/-- **The messages written**, latest first. -/
def writings (log : List (Event σ)) : List Message := log.filterMap Event.written?

theorem writings_append {new log : List (Event σ)} (h : ∀ e ∈ new, e.written? = none) :
    writings (new ++ log) = writings log := by
  rw [writings, List.filterMap_append, List.filterMap_eq_nil_iff.mpr h]
  rfl

theorem Event.written?_of_isOutward {e : Event σ} (h : e.isOutward = false) :
    e.written? = none := by
  cases e <;> first | rfl | cases h

theorem Event.written?_of_within {p : Phase} (hp : p ≠ .respond) {e : Event σ} (h : e.Within p) :
    e.written? = none := by
  cases e <;> first | rfl | exact absurd h hp

theorem Board.Frame.writings_eq {b b' : Board σ} (h : b.Frame Event.Framed b') :
    writings b'.log = writings b.log := by
  obtain ⟨new, hlog, hnew⟩ := h.log
  rw [hlog, writings_append fun e he => Event.written?_of_isOutward (hnew e he).outward]

/-! ## Revisions -/

/-- **The revisions that executing a phase makes.**  A response arrives where its filters are
reached from another phase. -/
def Turn.revisions (c : Surroundings σ ε) (k : Nat) (t : Turn σ ε) : List Revision :=
  match t.stream.phase with
  | .filterResponse =>
    (if (entries t.stream.board.log).head?
      = some .filterResponse then [] else [.arrived t.stream.response])
      ++ (t.stream.sendVisits c.behaviour k).map (·.revision c.behaviour)
  | .respond => [.sent]
  | _ => []

/-- The revisions a deed makes that runs no job: the swaps through a handle that is given or was
kept. -/
def Deed.revisions (l : Life σ) : Deed σ ε → List Revision
  | .add β r => (l.stream.filters.introSwaps β l.stream.board r).map .swapped
  | .act _ filter index program => (program.swaps filter index l.stream.board).map .swapped
  | _ => []

/-- The turns of a drive, in order. -/
inductive Turn.Makes (c : Surroundings σ ε) : Nat × Turn σ ε → List (Nat × Turn σ ε) → Prop
  | halt {x} (hl : ¬ x.2.stream.Live) : Makes c x []
  | stop {x} (hl : x.2.stream.Live) (hn : ∀ y, ¬ Stride c x y) : Makes c x [x]
  | stride {x y turns} (hs : Stride c x y) (hy : Makes c y turns) : Makes c x (x :: turns)

/-- **The revisions of a life**, in order, as it does these deeds. -/
inductive Life.Recounts (id : StreamId) (settings : Settings) :
    List (Deed σ ε) → List Revision → Prop
  | fresh : Recounts id settings [] []
  | beside {deeds d rs} (h : Recounts id settings deeds rs) (hd : ∀ p c env, d ≠ .run p c env) :
      Recounts id settings (deeds ++ [d]) (rs ++ d.revisions (after id settings deeds))
  /-- A job is run that does not have the stream driven. -/
  | idle {deeds p c env rs} (h : Recounts id settings deeds rs)
      (hn : ∀ k s, (after id settings deeds).Due p →
        ¬ (after id settings deeds).stream.Opens p.job k s) :
      Recounts id settings (deeds ++ [.run p c env]) rs
  | drive {deeds p c env rs k s turns} (h : Recounts id settings deeds rs)
      (hp : (after id settings deeds).Due p) (ho : (after id settings deeds).stream.Opens p.job k s)
      (ht : Turn.Makes c (k, ⟨s, env⟩) turns) :
      Recounts id settings (deeds ++ [.run p c env])
        (rs ++ turns.flatMap fun x => x.2.revisions c x.1)

/-- Every drive makes its turns. -/
theorem Turn.Drives.exists_makes {c : Surroundings σ ε} {x : Nat × Turn σ ε}
    {r : Option Panic × Turn σ ε} (h : Drives c x r) : ∃ turns, Makes c x turns := by
  obtain ⟨z, hz, hstop⟩ := h
  induction hz using Relation.ReflTransGen.head_induction_on with
  | refl =>
    by_cases hl : z.2.stream.Live
    · exact ⟨_, .stop hl hstop.not_stride⟩
    · exact ⟨_, .halt hl⟩
  | head hs _ ih =>
    obtain ⟨turns, hy⟩ := ih
    exact ⟨_, .stride hs hy⟩

/-- **Every life has revisions.** -/
theorem Life.exists_recounts (id : StreamId) (settings : Settings) (deeds : List (Deed σ ε)) :
    ∃ rs, Recounts id settings deeds rs := by
  induction deeds using List.reverseRecOn with
  | nil => exact ⟨_, .fresh⟩
  | append_singleton deeds d ih =>
    obtain ⟨rs, h⟩ := ih
    by_cases hrun : ∃ p c env, d = .run p c env
    case neg => exact ⟨_, h.beside fun p c env hd => hrun ⟨p, c, env, hd⟩⟩
    obtain ⟨p, c, env, rfl⟩ := hrun
    by_cases hopens : (after id settings deeds).Due p ∧ ∃ k s,
      (after id settings deeds).stream.Opens p.job k s
    case neg => exact ⟨_, h.idle fun k s hp ho => hopens ⟨hp, k, s, ho⟩⟩
    obtain ⟨hp, k, s, ho⟩ := hopens
    have howned := ho.owned (reached_after id settings deeds).orderly.books.owned
    obtain ⟨turns, ht⟩ := (Turn.drives_drive c k ⟨s, env⟩ howned).exists_makes
    exact ⟨_, h.drive hp ho ht⟩

/-! ## Drafted streams -/

/-- **The stream is as drafted.**  Unless it is claimed, its board holds what waits, and it has the
parts of the draft from its response filters on. -/
structure Stream.Drafted (s : Stream σ) (d : Draft) : Prop where
  waiting : s.board.Retains d.waiting
  parts : s.board.claimed = false → (entries s.board.log).head? = some .filterResponse →
    s.response.parts = d.parts
  sent : writings s.board.log = d.sent

namespace Stream.Drafted

variable {s s' : Stream σ} {d : Draft}

/-- A claimed stream only has to have sent what the draft sent. -/
theorem of_claimed (hc : s.board.claimed = true) (hsent : writings s.board.log = d.sent) :
    s.Drafted d :=
  ⟨.of_claimed hc, fun hc' => absurd (hc'.symm.trans hc) nofun, hsent⟩

/-- What leaves the response that was reached alone, and its replacements, keeps a stream as
drafted. -/
theorem keep (h : s.Drafted d) (hc : s'.board.claimed = s.board.claimed)
    (hr : s'.board.replaced = s.board.replaced) (hlog : s'.board.log = s.board.log)
    (hresponse : (entries s.board.log).head? = some .filterResponse → s'.response = s.response) :
    s'.Drafted d where
  waiting := h.waiting.keep hc hr
  parts hc' hhead := by
    rw [hlog] at hhead
    exact hresponse hhead ▸ h.parts (hc.symm.trans hc') hhead
  sent := hlog ▸ h.sent

theorem note (h : s.Drafted d) {e : Event σ} (he : e.enters? = none) (hw : e.written? = none) :
    (s.note e).Drafted d where
  waiting := h.waiting.keep rfl rfl
  parts hc hhead :=
    h.parts hc (by rwa [show entries (s.note e).board.log = _
      from entries_cons_of_none he _] at hhead)
  sent := (writings_append (List.forall_mem_singleton.mpr hw)).trans h.sent

theorem survive (h : s.Drafted d) (panic : Option Panic) : (Life.survive panic s).Drafted d := by
  cases panic with
  | none => exact h
  | some p => exact h.note rfl rfl

/-- A stream that is taken up is as drafted: the response that its filters may have reached is still
there. -/
theorem opens (h : s.Drafted d) (hs : s.Standing none) {job : Job} {k : Nat}
    (ho : s.Opens job k s') :
    s'.Drafted d := by
  -- a response is taken in only where its filters were not reached yet
  have elsewhere (hc : s.board.claimed = false) (hp : s.phase ≠ .filterResponse) :
      (entries s.board.log).head? ≠ some .filterResponse := by
    rcases hs hc with ⟨-, hnone⟩ | ⟨-, hhead, -⟩
    · rw [hnone]
      exact nofun
    · rw [hhead]
      exact fun heq => hp (Option.some.inj heq)
  have hwoken : (s.note (.published .running)).Drafted d := h.note rfl rfl
  have hcompleted : (s.note (.stat (.phaseCompleted .awaitResponse))).Drafted d := h.note rfl rfl
  cases ho with
  | receive => exact h.keep rfl rfl rfl fun _ => rfl
  | resume => exact hwoken.keep rfl rfl rfl fun _ => rfl
  | reroute hc hpaused hcaller hlt hr =>
    have hp : s.phase ≠ .filterResponse := fun hp => by rw [hp] at hlt; exact absurd hlt (by decide)
    exact hwoken.keep rfl rfl rfl fun hhead => absurd hhead (elsewhere hc hp)
  | response hc hp =>
    have hp : s.phase ≠ .filterResponse := by rw [hp]; decide
    exact hcompleted.keep rfl rfl rfl fun hhead => absurd hhead (elsewhere hc hp)

end Stream.Drafted

/-! ## Executing a phase -/

namespace Stream

variable {s : Stream σ} {xs : List Swap}

theorem retains_pause (n : Nat) (h : s.board.Retains xs) : (s.pause n).2.board.Retains xs := by
  cases hc : s.board.claimed with
  | true => rwa [pause_of_claimed n hc]
  | false =>
    rw [pause_of_unclaimed n hc]
    cases s.settings.stopTimeout <;> exact h.keep rfl rfl

theorem retains_shortcut (h : s.board.Retains xs) : s.shortcut.2.board.Retains xs := by
  unfold shortcut
  dsimp only
  split <;> exact h.keep rfl rfl

theorem retains_noteAbort (cause : Abort) (h : s.board.Retains xs) :
    (s.noteAbort cause).board.Retains xs := by
  cases cause with
  | verdict => exact h
  | panic => exact h.keep rfl rfl

theorem retains_filterRequest (β : Behaviour σ) (point : RequestPoint) (k : Nat)
    (h : s.board.Retains xs) :
    (s.filterRequest β point k).2.board.Retains xs := by
  have hpass := retains_passRequests (β := β) point k s.settings.convert s.filters
    (w := ⟨s.board, s.request.parts⟩) h
  unfold filterRequest
  dsimp only
  generalize s.filters.passRequests β point k s.settings.convert ⟨s.board, s.request.parts⟩
    = r at hpass ⊢
  rcases r.result with p | _ | n | q | cause
  case error => exact hpass
  case ok.completed =>
    dsimp only
    split
    · exact retains_shortcut hpass
    · exact hpass
  case ok.stopped =>
    dsimp only
    split
    · exact retains_shortcut hpass
    · exact retains_pause n hpass
  case ok.resumeAt => exact hpass
  case ok.aborted => exact retains_noteAbort cause hpass

end Stream

namespace Turn

variable {c : Surroundings σ ε} {k : Nat} {t t' : Turn σ ε} {step : Step}
  {xs : List Swap} {d : Draft}

theorem retains_answer {s : Stream σ} (h : s.board.Retains xs) (x : Handover) :
    (answer s x).board.Retains xs := by
  cases x with
  | kept => exact h
  | dropped => exact h
  | responded m => exact h.schedule _
  | failed failure => exact .terminate s.board _

/-- **Replacements wait through every phase before those of the response.** -/
theorem retains_step (h : t.stream.board.Retains xs) (hf : t.stream.phase ≠ .filterResponse)
    (hr : t.stream.phase ≠ .respond) : (t.step c k).2.stream.board.Retains xs := by
  unfold step
  split
  case h_2 | h_4 | h_6 => exact retains_filterRequest c.behaviour _ k h
  case h_3 =>
    unfold matchRoute
    dsimp only
    split <;> exact h.keep rfl rfl
  case h_5 =>
    unfold chooseHost
    split
    case h_1 => exact h
    case h_2 =>
      dsimp only
      split <;> exact h.keep rfl rfl
  case h_7 =>
    unfold forward
    split
    case h_1 => exact h
    case h_2 host _ =>
      dsimp only
      generalize c.forward t.env t.stream.board.context.id host t.stream.request = r
      have hanswer : (answer (t.stream.note (.forwarded host t.stream.request r.1))
        r.1.handover).board.Retains xs :=
        retains_answer (s := t.stream.note (.forwarded host t.stream.request r.1)) (h.keep rfl rfl)
          r.1.handover
      split <;> exact hanswer
  case h_9 hp => exact absurd hp hf
  case h_10 hp => exact absurd hp hr
  all_goals exact h

/-- Once it is written, a response has no replacements waiting. -/
theorem retains_respond : (t.respond c).2.stream.board.Retains [] := by
  have hput : (t.stream.board.putReplaced t.stream.response.parts).2.Retains [] := fun _ => rfl
  unfold respond
  dsimp only
  cases (t.stream.board.putReplaced t.stream.response.parts).1.message.code?
  all_goals
    dsimp only
    split <;> exact hput.keep rfl rfl

/-- What is written as the phase is executed. -/
theorem writings_respond (hp : t.stream.phase = .respond) (k : Nat) :
    writings (t.execute c k).2.stream.board.log = t.stream.outgoing
      :: writings t.stream.board.log := by
  obtain ⟨s, hexec, -, hlog⟩ := execute_respond (c := c) hp k rfl
  have hwritten : writings s.board.log = t.stream.outgoing :: writings t.stream.board.log := by
    rw [hlog]
    rfl
  have hstream := congrArg Prod.snd hexec
  dsimp only at hstream
  rw [hstream]
  split <;> exact hwritten

/-- Where the response filters are reached, the response they get arrives. -/
theorem shows_arrived (h : t.stream.Drafted d) :
    (⟨t.stream.board, t.stream.response.parts⟩ : Workbench σ).Shows
      ((if (entries t.stream.board.log).head? = some .filterResponse then []
        else [Revision.arrived t.stream.response]).foldl Draft.revise d) := by
  split
  case isTrue hhead => exact ⟨h.waiting, fun hc => h.parts hc hhead⟩
  case isFalse => exact ⟨h.waiting, fun _ => rfl⟩

theorem written_mem_execute (hp : t.stream.phase = .respond) (k : Nat) :
    .written t.stream.outgoing (c.write t.env t.stream.board.context.id t.stream.outgoing).1
      ∈ (t.execute c k).2.stream.board.log := by
  obtain ⟨s, hexec, -, hlog⟩ := execute_respond (c := c) hp k rfl
  have hstream := congrArg Prod.snd hexec
  dsimp only at hstream
  rw [hstream]
  split
  case h_3 => exact List.mem_cons_of_mem _ (hlog ▸ List.mem_cons_self)
  all_goals exact hlog ▸ List.mem_cons_self

variable (hl : t.stream.Live) (ho : t.stream.board.owned = true) (h : t.stream.Drafted d)
  (hreached : t.stream.phase = .respond → (entries t.stream.board.log).head? = some .filterResponse)

include hl ho h hreached

/-- **The messages written are those sent**, whatever becomes of the phase. -/
theorem writings_execute (hx : t.execute c k = (step, t')) :
    writings t'.stream.board.log = ((t.revisions c k).foldl Draft.revise d).sent := by
  by_cases hp : t.stream.phase = .respond
  case pos =>
    have hwritten := writings_respond (c := c) hp k
    rw [hx] at hwritten
    have houtgoing : t.stream.outgoing = d.settled.parts.message := by
      rw [outgoing, putReplaced, h.waiting hl.unclaimed, h.parts hl.unclaimed (hreached hp)]
      rfl
    rw [hwritten, houtgoing, h.sent, revisions, hp]
    rfl
  case neg =>
    obtain ⟨new, is, hexec⟩ := executed_execute hl ho hx
    have hnew : ∀ e ∈ new ++ [.entered t.stream.phase], e.written? = none := fun e he => by
      rcases List.mem_append.mp he with he | he
      · exact Event.written?_of_within hp (hexec.worked.within e he)
      · obtain rfl := List.mem_singleton.mp he
        rfl
    have hrevisions : ∀ r ∈ t.revisions c k, r ≠ .sent := by
      unfold revisions
      split
      case h_1 =>
        intro r hr
        rcases List.mem_append.mp hr with hr | hr
        · split at hr
          · cases hr
          · obtain rfl := List.mem_singleton.mp hr
            exact nofun
        · obtain ⟨v, -, rfl⟩ := List.mem_map.mp hr
          exact nofun
      case h_2 hp' => exact absurd hp' hp
      case h_3 => exact List.forall_mem_nil _
    rw [hexec.log, writings_append hnew, h.sent, Draft.sent_foldl hrevisions]

/-- **Executing a phase makes its revisions**, unless that ends the stream. -/
theorem drafted_execute (hx : t.execute c k = (step, t')) (hstep : ∀ r, step ≠ .finish r) :
    t'.stream.Drafted ((t.revisions c k).foldl Draft.revise d) := by
  have hsent := writings_execute (c := c) hl ho h hreached hx
  have hhead : (entries t'.stream.board.log).head? = some t.stream.phase := by
    obtain ⟨new, is, hexec⟩ := executed_execute hl ho hx
    rw [hexec.entries]
    rfl
  by_cases hf : t.stream.phase = .filterResponse
  case pos =>
    rw [execute_filterResponse c hf] at hx
    obtain ⟨rfl, rfl⟩ := Prod.mk.inj hx
    have hshows := shows_filterResponse ho (shows_arrived h) hstep
    rw [revisions, hf, List.foldl_append] at hsent ⊢
    exact ⟨hshows.waiting, fun hc _ => hshows.parts hc, hsent⟩
  -- anywhere else no response is on its way
  have haway : t'.stream.board.claimed = false → (entries t'.stream.board.log).head?
    = some .filterResponse →
      t'.stream.response.parts = ((t.revisions c k).foldl Draft.revise d).parts :=
    fun _ heq => absurd (Option.some.inj (hhead.symm.trans heq)) hf
  by_cases hr : t.stream.phase = .respond
  case pos =>
    have hexec : t.execute c k = t.entered.respond c := step_respond c (t := t.entered) hr k
    have hretains := retains_respond (c := c) (t := t.entered)
    rw [← hexec, hx] at hretains
    rw [revisions, hr] at hsent haway ⊢
    exact ⟨hretains, haway, hsent⟩
  case neg =>
    have hnone : t.revisions c k = [] := by
      unfold revisions
      split <;> first | rfl | contradiction
    have hretains : (t.execute c k).2.stream.board.Retains d.waiting :=
      retains_step (t := t.entered) (h.waiting.keep rfl rfl) hf hr
    rw [hx] at hretains
    rw [hnone] at hsent haway ⊢
    exact ⟨hretains, haway, hsent⟩

end Turn

/-! ## Drives and deeds -/

/-- Ending a stream writes nothing. -/
theorem Stream.Drafted.finish {s : Stream σ} {d : Draft} (hsent : writings s.board.log = d.sent)
    (ho : s.board.owned = true) (β : Behaviour σ) (r : Ending) : (s.finish β r).2.Drafted d :=
  .of_claimed (claimed_finish β r ho) ((Beside.finish β r ho).board.writings_eq.trans hsent)

section

variable {l : Life σ} {c : Surroundings σ ε} {d : Draft}

/-- A life that is about to write its response went through its response filters. -/
theorem Reached.to_respond {k : Nat} (h : Reached (some k) l) (hp : l.stream.phase = .respond) :
    (entries l.stream.board.log).head? = some .filterResponse := by
  have hmay : MayEnter l.log l.stream.phase := h.onCourse.standing
  rw [hp] at hmay
  exact hmay.to_respond

/-- A stride makes the revisions of its phase. -/
theorem Turn.Stride.drafted {x y : Nat × Turn σ ε} (hs : Stride c x y)
    (h : Reached (some x.1) (l.become x.2.stream)) (hx : x.2.stream.Drafted d) :
    y.2.stream.Drafted ((x.2.revisions c x.1).foldl Draft.revise d) := by
  have ho := h.orderly.books.owned
  have drafted {t' : Turn σ ε} {step : Step} (hl : x.2.stream.Live)
    (he : x.2.execute c x.1 = (step, t'))
      (hstep : ∀ r, step ≠ .finish r) :
        t'.stream.Drafted ((x.2.revisions c x.1).foldl Draft.revise d) :=
    drafted_execute hl ho hx h.to_respond he hstep
  cases hs with
  | next hl he => exact ((drafted hl he nofun).note rfl rfl).keep rfl rfl rfl fun _ => rfl
  | goto hl he => exact (drafted hl he nofun).keep rfl rfl rfl fun _ => rfl
  | jump hl he hj => exact ((drafted hl he nofun).note rfl rfl).keep rfl rfl rfl fun _ => rfl

/-- A stop makes the revisions of its phase, if it executes one. -/
theorem Turn.Stops.drafted {x : Nat × Turn σ ε} {r : Option Panic × Turn σ ε} (hs : Stops c x r)
    (hl : x.2.stream.Live) (h : Reached (some x.1) (l.become x.2.stream))
    (hx : x.2.stream.Drafted d) :
    (survive r.1 r.2.stream).Drafted ((x.2.revisions c x.1).foldl Draft.revise d) := by
  have ho := h.orderly.books.owned
  refine Stream.Drafted.survive ?_ r.1
  have ended {t' : Turn σ ε} {step : Step} (he : x.2.execute c x.1 = (step, t')) (r : Ending) :
      (t'.stream.finish c.behaviour r).2.Drafted ((x.2.revisions c x.1).foldl Draft.revise d) := by
    obtain ⟨new, is, hexec⟩ := executed_execute hl ho he
    exact .finish (writings_execute hl ho hx h.to_respond he) ((hexec.moves hl).owned.trans ho)
      c.behaviour r
  cases hs with
  | halt hstop =>
    rcases hstop with hc | hd
    · exact absurd (hl.unclaimed.symm.trans hc) nofun
    · exact absurd hd hl.notDone
  | rest _ he => exact drafted_execute hl ho hx h.to_respond he nofun
  | finish _ he => exact ended he _
  | overrun _ he => exact ended he _
  | escape _ he => exact drafted_execute hl ho hx h.to_respond he nofun

/-- **A drive makes the revisions of its turns.** -/
theorem Turn.Makes.drafted {settings : Settings} {Answers : Handover → Prop} {x : Nat × Turn σ ε}
    {turns : List (Nat × Turn σ ε)} (hm : Makes c x turns) {r : Option Panic × Turn σ ε}
    (hd : Drives c x r)
    (h : Lived settings Answers (some x.1) (l.become x.2.stream)) (hx : x.2.stream.Drafted d) :
    (survive r.1 r.2.stream).Drafted
    ((turns.flatMap fun y => y.2.revisions c y.1).foldl Draft.revise d) := by
  induction hm generalizing d with
  | @halt x hl =>
    obtain ⟨y, hs, hstop⟩ := hd
    rcases Relation.ReflTransGen.cases_head hs with rfl | ⟨z, hz, -⟩
    · cases hstop with
      | halt => exact hx
      | _ hl' => exact absurd hl' hl
    · exact absurd hz.live hl
  | @stop x hl hn =>
    obtain ⟨y, hs, hstop⟩ := hd
    rcases Relation.ReflTransGen.cases_head hs with rfl | ⟨z, hz, -⟩
    · simpa using hstop.drafted hl h.reached hx
    · exact absurd hz (hn z)
  | @stride x y turns hs hy ih =>
    rw [List.flatMap_cons, List.foldl_append]
    exact ih (hd.of_strides (.single hs)) (h.strides (.single hs)) (hs.drafted h.reached hx)

/-- A deed that runs no job makes the revisions of the handle it is done through. -/
theorem Stream.Drafted.next_beside (h : l.stream.Drafted d) (hl : Reached none l) {e : Deed σ ε}
    (hrun : ∀ p c env, e ≠ .run p c env) (hdirect : e.isDirect = false) :
    (l.next e).stream.Drafted ((e.revisions l).foldl Draft.revise d) := by
  obtain ⟨hbeside, -⟩ := l.beside_next hl.orderly.books.owned e hrun
  obtain ⟨new, hlog, hquiet⟩ := hl.quiet_next fun p c env he => absurd he (hrun p c env)
  have hentries : entries (l.next e).stream.board.log = entries l.log :=
    (congrArg entries hlog).trans (entries_append hquiet _)
  have left {d' : Draft} (hwaiting : (l.next e).stream.board.Retains d'.waiting)
      (hresponse : (l.next e).stream.response = l.stream.response) (hparts : d'.parts = d.parts)
      (hsent : d'.sent = d.sent) : (l.next e).stream.Drafted d' := by
    refine ⟨hwaiting, fun hc hhead => ?_, hbeside.board.writings_eq.trans (h.sent.trans hsent.symm)⟩
    rw [hentries] at hhead
    rw [hresponse, hparts]
    exact h.parts (hbeside.board.unclaimed hc) hhead
  cases e with
  | add β r =>
    rw [Deed.revisions, Draft.foldl_swapped]
    exact left (retains_introduce l.stream.filters h.waiting r) rfl rfl rfl
  | receive m => exact left (h.waiting.schedule _) rfl rfl rfl
  | resume => exact left (h.waiting.schedule _) rfl rfl rfl
  | terminate r => exact left (.terminate _ _) rfl rfl rfl
  | act side filter index program =>
    rw [Deed.revisions, Draft.foldl_swapped]
    exact left (h.waiting.run filter index program) rfl rfl rfl
  | answer x => exact left (Turn.retains_answer h.waiting x) (by cases x <;> rfl) rfl rfl
  | direct => cases hdirect
  | run p c env => exact absurd rfl (hrun p c env)

/-- A job that does not have the stream driven revises nothing, if it does not end the stream. -/
theorem Stream.Drafted.next_idle (h : l.stream.Drafted d) (hl : Reached none l)
    {p : Posting} {env : ε}
    (hn : ∀ k s, l.Due p → ¬ l.stream.Opens p.job k s) :
      (l.next (.run p c env)).stream.Drafted d := by
  have ho := hl.orderly.books.owned
  by_cases hp : l.Due p
  case neg => rw [Life.next, if_neg hp]; exact h
  have hn := fun k s => hn k s hp
  rw [Life.next, if_pos hp]
  have hran := Turn.ran_exec c ⟨l.stream, env⟩ p.job
  generalize Turn.exec c p.job ⟨l.stream, env⟩ = r at hran
  rcases p with ⟨job, byReply⟩
  dsimp only at hran hn ⊢
  cases hran with
  | idle => exact h
  | drive hopens => exact absurd hopens (hn _ _)
  | timeout => exact (finish h.sent ho c.behaviour .stopTimeout).survive _
  | release ending =>
    have hc := (hl.orderly.condemned_due hp rfl).claimed
    refine survive (.of_claimed (claimed_release c.behaviour ending ho hc) ?_) _
    exact (Beside.release c.behaviour ending ho hc).board.writings_eq.trans h.sent

end

/-! ## Lives -/

/-- **A life makes its revisions.** -/
theorem Life.Recounts.drafted {id : StreamId} {settings : Settings} {deeds : List (Deed σ ε)}
    {rs : List Revision}
    (h : Recounts id settings deeds rs) (hdirect : ∀ d ∈ deeds, d.isDirect = false) :
    (after id settings deeds).stream.Drafted (.of rs) := by
  induction h with
  | fresh => exact ⟨fun _ => rfl, fun _ => nofun, rfl⟩
  | @beside deeds d rs h hd ih =>
    obtain ⟨hbefore, hd'⟩ := List.forall_mem_append.mp hdirect
    rw [after_append, Draft.of_append]
    exact (ih hbefore).next_beside (reached_after id settings deeds) hd (hd' d List.mem_cons_self)
  | @idle deeds p c env rs h hn ih =>
    have hx := ih (List.forall_mem_append.mp hdirect).1
    rw [after_append]
    exact hx.next_idle (reached_after id settings deeds) hn
  | @drive deeds p c env rs k s turns h hp ho ht ih =>
    have hx := ih (List.forall_mem_append.mp hdirect).1
    have hl := lived_after id settings deeds
    rw [after_append, Draft.of_append]
    change ((after id settings deeds).next (.run p c env)).stream.Drafted _
    rw [Life.next, if_pos hp, ho.exec]
    have hdrives := Turn.drives_drive c k ⟨s, env⟩ (ho.owned hl.owned)
    exact ht.drafted
      (l := { (after id settings deeds) with stream := s, ran := p :: (after id settings
        deeds).ran })
      hdrives (hl.opened hp ho) (hx.opens hl.reached.onCourse.standing ho)

/-- No response is written twice. -/
theorem Life.length_writings_le_one (id : StreamId) (settings : Settings)
    (deeds : List (Deed σ ε)) :
    (writings (after id settings deeds).log).length ≤ 1 := by
  have hlawful := (reached_after id settings deeds).onCourse.lawful
  have hwritten : (fun e : Event σ => e.written?.isSome) = Event.isWriting := by
    funext e
    cases e <;> rfl
  rw [writings, List.length_filterMap_eq_countP, hwritten]
  exact Throughout.countP_le_one fun newer e older hsplit hw =>
    (Event.Lawful.writing hlawful newer e older hsplit hw).2

/-- **What is written is the draft.**  Without direct runs, every life has revisions, and the
messages written are those its draft sent.  Whenever the stream is about to write, this is one
message, and the writer is called with it. -/
theorem written_is_the_draft (id : StreamId) (settings : Settings) (deeds : List (Deed σ ε))
    (hdirect : ∀ d ∈ deeds, d.isDirect = false) :
    (∃ rs, Recounts id settings deeds rs) ∧ ∀ rs, Recounts id settings deeds rs →
      let l := after id settings deeds
      writings l.log = (Draft.of rs).sent ∧
        ∀ c k t, Acts id settings deeds c k t → t.stream.phase = .respond →
          ∃ m, (Draft.of rs).sent = [m] ∧
            .written m (c.write t.env t.stream.board.context.id m).1 ∈ l.log := by
  refine ⟨exists_recounts id settings deeds, fun rs hrs => ?_⟩
  intro l
  have hsent : writings l.log = (Draft.of rs).sent := (hrs.drafted hdirect).sent
  refine ⟨hsent, fun c k t ha hp => ⟨t.stream.outgoing, ?_, ?_⟩⟩
  · have hmem : t.stream.outgoing ∈ writings l.log := by
      obtain ⟨newer, hlog⟩ := ha.suffix_execute
      rw [writings, ← hlog, List.filterMap_append, ← writings, ← writings, Turn.writings_respond hp]
      exact List.mem_append_right _ List.mem_cons_self
    obtain ⟨m, hone⟩ := List.length_eq_one_iff.mp
      (Nat.le_antisymm (length_writings_le_one id settings deeds) (List.length_pos_of_mem hmem))
    rw [← hsent, hone]
    rw [hone] at hmem
    rw [List.mem_singleton.mp hmem]
  · exact ha.suffix_execute.subset (Turn.written_mem_execute hp k)

/-- A filter adds a byte to the data and empties the headers, which it replaces in the same call. -/
def revising : Behaviour Verdict where
  onRequest v _ parts := .done ⟨v, parts, .ok v⟩
  onResponse v _ parts := .act (.replaceHeaders (({} : Headers).set "by" "filter"))
    (.done ⟨v, { parts with headers := {}, data := parts.data ++ [1] }, .ok v⟩)
  onDestroy v _ := .done { filter := v }

/-- Trailers are replaced before the response filters are reached.  The first of two filters stops
the stream, replaces the data twice meanwhile, and asks to go on. -/
def revised : List (Deed Verdict Unit) :=
  [.add revising (.response .stop .beforeSend), .add revising (.response .proceed .beforeSend),
    .receive {},
    .run ⟨.receive {}, false⟩ (.serving revising) (),
    .act .response .stop 0 (.act (.replaceTrailers (({} : Headers).set "end" "now")) (.done ())),
    .run ⟨.response {}, false⟩ (.serving revising) (),
    .act .response .stop 0
      (.act (.replaceData [7]) (.act (.replaceData [8]) (.act .resume (.done ())))),
    .run ⟨.resume (some (.response, 0)), false⟩ (.serving revising) ()]

theorem written_is_the_draft_revised : (∀ d ∈ revised, d.isDirect = false) ∧
    ∃ rs, Recounts ⟨1⟩ {} revised rs ∧ (Draft.of rs).sent = [{
      headers := some (({} : Headers).set "by" "filter"), data := some [8, 1]
      trailers := some (({} : Headers).set "end" "now") }] := by
  have hdirect : ∀ d ∈ revised, d.isDirect = false := by simp [revised, Deed.isDirect]
  obtain ⟨⟨rs, hrs⟩, hall⟩ := written_is_the_draft ⟨1⟩ {} revised hdirect
  obtain ⟨hsent, -⟩ := hall rs hrs
  exact ⟨hdirect, rs, hrs, hsent ▸ (by decide +kernel)⟩

end FilterProxy

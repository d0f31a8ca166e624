import FilterProxy.Proofs.Jumps
import FilterProxy.Proofs.Outlook

/-!
# Proofs/Again — no wish to go back outlives its jump

A pass over request filters that ends in a wish to go back keeps that wish with the filters, and the
phase that made the pass takes it at once; nothing else touches it (`Turn.again_execute`).  So
**between deeds no wish is kept**, a stream jumps where the pass that just ended wished to go and
nowhere else (`Lived.granted`), and filters without a stream keep **the last wish that nobody took**
(`Detached.again_after`).
-/

namespace FilterProxy

variable {σ ε : Type}

open Board FilterSet FilterProxy.Stream Life

/-! ## What leaves the wish alone -/

/-- Where the pass wishes to go back to that ended so. -/
def backTo? : Except Panic Outcome → Option Phase
  | .ok (.resumeAt q) => some q
  | _ => none

namespace FilterSet

variable (β : Behaviour σ)

theorem again_add (s : FilterSet σ) (b : Board σ) (r : Registration σ) :
    (s.add β b r).1.again = s.again := by
  cases r <;> rfl

theorem again_destroy (s : FilterSet σ) (b : Board σ) : (s.destroy β b).2.1.again = s.again := by
  unfold destroy
  dsimp only
  split <;> rfl

/-- **A pass keeps the wish it ends in**, and the one kept before if it ends otherwise. -/
theorem again_passRequests (point : RequestPoint) (start : Nat) (convert : Converter)
    (s : FilterSet σ) (w : Workbench σ) :
    (passRequests β point start convert s w).filters.again
      = (backTo? (passRequests β point start convert s w).result).or s.again := by
  unfold passRequests
  dsimp only
  generalize s.requests.pass point start convert (callRequest β) _ = r
  rcases r with ⟨_ | _ | _ | _ | _, _, _⟩ <;> rfl

end FilterSet

namespace Stream

variable (β : Behaviour σ) (s : Stream σ)

theorem again_release (ending : Ending) :
    (s.release β ending).2.filters.again = s.filters.again := by
  rw [release_eq]
  cases (s.filters.destroy β s.board).1 with
  | some p => exact again_destroy β s.filters s.board
  | none => exact again_destroy β s.filters s.board

theorem again_finish (ending : Ending) : (s.finish β ending).2.filters.again = s.filters.again := by
  cases hc : s.board.claimed with
  | true => rw [finish_of_claimed β hc]
  | false =>
    rw [finish_of_unclaimed β hc]
    exact again_release β { s with board := (s.board.claim ending).2 } ending

theorem again_pause (n : Nat) : (s.pause n).2.filters.again = s.filters.again := by
  cases hc : s.board.claimed with
  | true => rw [pause_of_claimed n hc]
  | false =>
    rw [pause_of_unclaimed n hc]
    cases s.settings.stopTimeout <;> rfl

theorem again_noteAbort (cause : Abort) : (s.noteAbort cause).filters.again = s.filters.again := by
  cases cause <;> rfl

theorem again_filterResponse (k : Nat) :
    (s.filterResponse β k).2.filters.again = s.filters.again := by
  have hpass : (({ s with board := s.board.closeReply.2 } : Stream σ).passResponse β .beforeSend k
      .keep).2.filters.again = s.filters.again := rfl
  unfold filterResponse
  dsimp only
  generalize ({ s with board := s.board.closeReply.2 } : Stream σ).passResponse β .beforeSend k
    .keep = r at hpass ⊢
  split
  · exact hpass
  · exact hpass
  · exact hpass
  · exact (again_pause r.2 _).trans hpass
  · exact (again_noteAbort r.2 _).trans hpass

theorem again_runResponseFilters (message : Message) (convert : Converter) :
    (s.runResponseFilters β .beforeSend message convert).2.filters.again = s.filters.again := by
  rw [runResponseFilters_eq β message convert rfl]
  split
  case h_1 cause _ => exact (again_finish β _ _).trans (again_noteAbort _ _)
  case h_2 => rfl

end Stream

namespace Turn

variable (c : Surroundings σ ε) (k : Nat) (t : Turn σ ε)

theorem again_matchRoute : (t.matchRoute c).2.stream.filters.again = t.stream.filters.again := by
  unfold matchRoute
  dsimp only
  split <;> rfl

theorem again_chooseHost : (t.chooseHost c).2.stream.filters.again = t.stream.filters.again := by
  unfold chooseHost
  dsimp only
  split
  · rfl
  · split <;> rfl

theorem again_answer (s : Stream σ) (x : Handover) :
    (answer s x).filters.again = s.filters.again := by
  cases x <;> rfl

theorem again_forward : (t.forward c).2.stream.filters.again = t.stream.filters.again := by
  unfold forward
  dsimp only
  split
  · rfl
  · split <;> exact again_answer _ _

theorem again_respond : (t.respond c).2.stream.filters.again = t.stream.filters.again := by
  unfold respond
  dsimp only
  split <;> rfl

/-- No phase but one of request filters touches the wish. -/
theorem again_step (hp : t.stream.phase.point? = none) :
    (t.step c k).2.stream.filters.again = t.stream.filters.again := by
  unfold step
  split
  · rfl
  · rename_i h; rw [h] at hp; cases hp
  · exact again_matchRoute c t
  · rename_i h; rw [h] at hp; cases hp
  · exact again_chooseHost c t
  · rename_i h; rw [h] at hp; cases hp
  · exact again_forward c t
  · rfl
  · exact again_filterResponse c.behaviour t.stream k
  · exact again_respond c t
  · rfl

end Turn

/-! ## Phases, drives and jobs -/

namespace Stream

variable {s s' : Stream σ}

/-- **A wish is taken as the pass is concluded that made it.** -/
theorem Concludes.again {result : Except Panic Outcome} {step : Step}
    (h : s.Concludes result step s')
    (hs : s.filters.again = backTo? result) : s'.filters.again = none := by
  cases h with
  | next | rest | escape => exact hs
  | reply ho => rcases ho with rfl | ⟨n, rfl⟩ <;> exact hs
  | pause => exact (again_pause s _).trans hs
  | jump => rfl
  | abort cause => exact (again_noteAbort s cause).trans hs

/-- A phase of request filters jumps where its pass wishes to go back to, and jumps for nothing
else. -/
theorem Concludes.jump_iff {result : Except Panic Outcome} {step : Step}
    (h : s.Concludes result step s') (q : Phase) : step = .jump q ↔ result = .ok (.resumeAt q) := by
  cases h with
  | reply ho => rcases ho with rfl | ⟨n, rfl⟩ <;> exact ⟨nofun, nofun⟩
  | jump => simp
  | _ => exact ⟨nofun, nofun⟩

end Stream

namespace Turn

variable {c : Surroundings σ ε} {k : Nat} {t t' : Turn σ ε} {step : Step} {x y : Nat × Turn σ ε}

/-- **No phase leaves a wish behind.** -/
theorem again_execute (ho : t.stream.board.owned = true) (h : t.stream.filters.again = none)
    (hx : t.execute c k = (step, t')) : t'.stream.filters.again = none := by
  cases hp : t.stream.phase.point? with
  | none =>
    obtain rfl : (t.execute c k).2 = t' := by rw [hx]
    exact (again_step c k ⟨t.stream.entered, t.env⟩ hp).trans h
  | some point =>
    obtain ⟨hconcludes, -⟩ := concludes_execute (Phase.eq_of_point? hp) ho hx
    refine hconcludes.again ((again_passRequests ..).trans ?_)
    rw [show t.stream.entered.filters.again = none from h, Option.or_none]
    rfl

/-- **A phase jumps exactly where its pass wishes to go back to.** -/
theorem execute_jump_iff (hl : t.stream.Live) (ho : t.stream.board.owned = true) (q : Phase) :
    (t.execute c k).1 = .jump q ↔
      ∃ point, t.stream.phase = point.phase ∧ (t.stream.pass c.behaviour point k).result = .ok
        (.resumeAt q) := by
  cases hp : t.stream.phase.point? with
  | none =>
    have hnot (point : RequestPoint) (hp' : t.stream.phase = point.phase) : False := by
      rw [hp', RequestPoint.point?_phase] at hp
      cases hp
    refine iff_of_false (fun hq => ?_) fun ⟨point, hp', _⟩ => hnot point hp'
    obtain ⟨new, is, hx⟩ :=
      executed_execute hl ho (Prod.ext hq rfl : t.execute c k = (.jump q, (t.execute c k).2))
    cases hx with
    | @jump _ _ _ _ point _ _ hp' => exact hnot point hp'
  | some point =>
    have hp := Phase.eq_of_point? hp
    obtain ⟨hconcludes, -⟩ := concludes_execute hp ho (rfl : t.execute c k = (_, _))
    refine (hconcludes.jump_iff q).trans ⟨fun hr => ⟨point, hp, hr⟩, ?_⟩
    rintro ⟨point', hp', hr⟩
    obtain rfl : point = point' := by
      rw [hp] at hp'
      simpa using congrArg Phase.point? hp'
    exact hr

theorem Stride.again (h : Stride c x y) (ho : x.2.stream.board.owned = true)
    (hx : x.2.stream.filters.again = none) : y.2.stream.filters.again = none := by
  cases h with
  | @next k t t' hl he => exact (again_execute ho hx he : t'.stream.filters.again = none)
  | @goto k t t' q hl he => exact (again_execute ho hx he : t'.stream.filters.again = none)
  | @jump k t t' q rest hl he => exact (again_execute ho hx he : t'.stream.filters.again = none)

theorem Stride.again_strides (h : Relation.ReflTransGen (Stride c) x y)
    (ho : x.2.stream.board.owned = true)
    (hx : x.2.stream.filters.again = none) : y.2.stream.filters.again = none := by
  induction h with
  | refl => exact hx
  | tail hs h ih => exact h.again (owned_strides hs ho) ih

/-- **No drive leaves a wish behind**, however it stops. -/
theorem Drives.again {r : Option Panic × Turn σ ε} (h : Drives c x r)
    (ho : x.2.stream.board.owned = true)
    (hx : x.2.stream.filters.again = none) : r.2.stream.filters.again = none := by
  obtain ⟨y, hs, hstop⟩ := h
  have hy := Stride.again_strides hs ho hx
  have ho := Stride.owned_strides hs ho
  cases hstop with
  | halt => exact hy
  | rest hl he => exact again_execute ho hy he
  | finish hl he => exact (again_finish c.behaviour _ _).trans (again_execute ho hy he)
  | overrun hl he => exact (again_finish c.behaviour _ _).trans (again_execute ho hy he)
  | escape hl he => exact again_execute ho hy he

end Turn

theorem Stream.Opens.again {s s' : Stream σ} {job : Job} {k : Nat} (h : s.Opens job k s') :
    s'.filters.again = s.filters.again := by cases h <;> rfl

/-- **No job leaves a wish behind.** -/
theorem Turn.Ran.again {c : Surroundings σ ε} {t : Turn σ ε} {job : Job}
    {r : Option Panic × Turn σ ε}
    (h : Ran c t job r) (ho : t.stream.board.owned = true) (ht : t.stream.filters.again = none) :
    r.2.stream.filters.again = none := by
  cases h with
  | idle => exact ht
  | timeout => exact (again_finish c.behaviour t.stream .stopTimeout).trans ht
  | release ending => exact (again_release c.behaviour t.stream ending).trans ht
  | @drive _ start s hopens =>
    have howned := hopens.owned ho
    exact (drives_drive c start ⟨s, t.env⟩ howned).again howned (hopens.again.trans ht)

/-! ## Whole lives -/

/-- **No deed leaves a wish behind.** -/
theorem Life.again_next {l : Life σ} (ho : l.stream.board.owned = true)
    (h : l.stream.filters.again = none)
    (d : Deed σ ε) : (l.next d).stream.filters.again = none := by
  cases d with
  | add β r => exact (again_add β l.stream.filters l.stream.board r).trans h
  | receive | resume | terminate | act => exact h
  | answer x => exact (Turn.again_answer l.stream x).trans h
  | direct c message convert =>
    exact (again_runResponseFilters c.behaviour l.stream message convert).trans h
  | run p c env =>
    by_cases hp : l.Due p
    case neg => rwa [Life.next, if_neg hp]
    have hran := (Turn.ran_exec c ⟨l.stream, env⟩ p.job).again ho h
    rw [Life.next, if_pos hp]
    dsimp only
    cases (Turn.exec c p.job ⟨l.stream, env⟩).1 <;> exact hran

theorem Life.again_after (id : StreamId) (settings : Settings) (deeds : List (Deed σ ε)) :
    (after id settings deeds).stream.filters.again = none := by
  induction deeds using List.reverseRecOn with
  | nil => rfl
  | append_singleton deeds d ih =>
    rw [after_append]
    exact again_next (reached_after id settings deeds).orderly.books.owned ih d

/-- Nor is there one as a phase is executed. -/
theorem Life.Acts.again {id : StreamId} {settings : Settings} {deeds : List (Deed σ ε)}
    {c : Surroundings σ ε} {k : Nat} {t : Turn σ ε} (h : Acts id settings deeds c k t) :
    t.stream.Live ∧ t.stream.board.owned = true ∧ t.stream.filters.again = none := by
  obtain @⟨before, _, more, _, _, _, hd, @⟨p, _, env, start, s, _, _, hp, ho, hs, hl⟩⟩ := h
  have howned := ho.owned (reached_after id settings before).orderly.books.owned
  refine ⟨hl, Turn.Stride.owned_strides hs howned, Turn.Stride.again_strides hs howned ?_⟩
  exact ho.again.trans (again_after id settings before)

/-! ## Jumps in the log -/

/-- A jump goes where the pass that just ended wishes to go back to. -/
def Event.Granted (e : Event σ) (older : List (Event σ)) : Prop :=
  ∀ q, e = .jumped q → ∃ point, older.head? = some (.passed point (.ok (.resumeAt q)))

theorem Throughout.granted {log log' : List (Event σ)} (h : Throughout Event.Granted log)
    (new : List (Event σ))
    (hlog : log' = new ++ log) (hnew : ∀ e ∈ new, e.isJump = false) :
      Throughout Event.Granted log' := by
  rw [hlog]
  refine h.append fun newer e added hsplit q hq => ?_
  have hjump := hnew e (hsplit ▸ List.mem_append_cons_self)
  rw [hq] at hjump
  cases hjump

/-- A phase that is executed logs no jump. -/
theorem Stream.Traced.granted {s s' : Stream σ} {k : Nat} {step : Step} {new : List (Event σ)}
    {is : List Nat} (h : s.Traced k step s' new is) (hs : Throughout Event.Granted s.board.log) :
    Throughout Event.Granted s'.board.log :=
  (hs.granted [.entered s.phase] rfl (by simp [Event.isJump])).granted new h.executed.worked.log
    fun e he => Event.isJump_of_within (h.executed.worked.within e he)

/-- **Every jump goes where the pass that just ended wishes to go back to.** -/
theorem Lived.granted {settings : Settings} {Answers : Handover → Prop} {start : Option Nat}
    {l : Life σ} (h : Lived settings Answers start l) : Throughout Event.Granted l.log := by
  have finished {s : Stream σ} (hs : Throughout Event.Granted s.board.log)
    (ho : s.board.owned = true)
      (β : Behaviour σ) (ending : Ending) :
        Throughout Event.Granted (s.finish β ending).2.board.log := by
    obtain ⟨new, hlog, hnew⟩ := finish_log β ending s ho
    exact hs.granted new hlog fun e he => (Event.idle_of_isEnding (hnew e he)).jump
  induction h with
  | fresh id => exact Throughout.granted .nil [.stat .created] rfl (by simp [Event.isJump])
  | add h r ih => exact ih
  | stir new h hs hm hlog hnew ih =>
    exact ih.granted new hlog fun e he => (Event.idle_of_isOutside (hnew e he)).jump
  | @answer l x h hx ih =>
    obtain ⟨new, hlog, hnew, -⟩ := Turn.answer_spec l.stream x h.owned
    exact ih.granted new hlog fun e he => (Event.idle_of_isOutside (hnew e he)).jump
  | direct h hp hs m ih =>
    exact ih.granted _ hp.log fun e he => (Event.idle_of_pass (hp.kinds e he)).jump
  | finish h β ending ih => exact finished ih h.owned β ending
  | take h hp hi ih => exact ih
  | @release l p ending h hp hj β ih =>
    obtain ⟨new, hlog, hnew⟩ := release_log β ending l.stream h.owned
    exact ih.granted new hlog fun e he => (Event.idle_of_isEnding (hnew e he)).jump
  | @opened l p k s h hp ho ih =>
    generalize p.job = job at ho
    cases ho with
    | receive => exact ih
    | resume | reroute => exact ih.granted [.published .running] rfl (by simp [Event.isJump])
    | response =>
      exact ih.granted [.stat (.phaseCompleted .awaitResponse)] rfl (by simp [Event.isJump])
  | halt h hc ih => exact ih
  | next h hl hx ih =>
    exact (hx.granted ih).granted [.stat (.phaseCompleted _)] rfl (by simp [Event.isJump])
  | goto h hl hx ih => exact hx.granted ih
  | @jump k l q s new is rest h hl hx hj ih =>
    refine Throughout.cons_iff.mpr ⟨fun q' hq => ?_, hx.granted ih⟩
    obtain rfl : q = q' := Event.jumped.inj hq
    obtain ⟨point, new', hlog, -⟩ := hx.wish h.owned
    exact ⟨point, by rw [hlog]; rfl⟩
  | rest h hl hx ih => exact hx.granted ih
  | ended h hl hx β ih =>
    exact finished (hx.granted ih) ((hx.executed.moves hl).owned.trans h.owned) β _
  | @overrun k l q s new is h hl hx hj β ih =>
    obtain ⟨new, hlog, hnew⟩ :=
      Reached.survive_log (s.finish β .tooManyJumps).1 (s.finish β .tooManyJumps).2
    have hfinished := finished (hx.granted ih) ((hx.executed.moves hl).owned.trans h.owned) β
      .tooManyJumps
    exact hfinished.granted new hlog fun e he => (Event.idle_of_isOutside (hnew e he)).jump
  | escape h hl hx ih => exact (hx.granted ih).granted [.escaped _] rfl (by simp [Event.isJump])

/-! ## Filters without a stream -/

namespace Detached

variable (β : Behaviour σ)

/-- Where the act has the filters ask to go back to. -/
def asks (d : Detached σ) : Act σ → Option Phase
  | .passRequests point start convert parts =>
    backTo? (d.filters.passRequests β point start convert ⟨d.board, parts⟩).result
  | _ => none

variable {β}

theorem again_next (d : Detached σ) {act : Act σ} (ht : act ≠ .takeAgain) :
    (d.next β act).filters.again = (d.asks β act).or d.filters.again := by
  cases act with
  | add r => exact again_add β d.filters d.board r
  | passRequests point start convert parts => exact again_passRequests ..
  | passResponses | handle | write => rfl
  | takeAgain => exact absurd rfl ht
  | destroy => exact again_destroy β d.filters d.board

variable (β) in
/-- **The wish made last**: an act asked for it, and since then none took it and none asked for
another. -/
def Asked (id : StreamId) (acts : List (Act σ)) (q : Phase) : Prop :=
  ∃ later act earlier, acts = later ++ act :: earlier ∧ (after β id earlier).asks β act = some q ∧
    ∀ newer a older, later = newer ++ a :: older →
      a ≠ .takeAgain ∧ (after β id (older ++ act :: earlier)).asks β a = none

theorem asked_cons (id : StreamId) (act : Act σ) (earlier : List (Act σ)) (q : Phase) :
    Asked β id (act :: earlier) q ↔ (after β id earlier).asks β act = some q ∨
      (act ≠ .takeAgain ∧ (after β id earlier).asks β act = none) ∧ Asked β id earlier q := by
  constructor
  · rintro ⟨later, asking, before, heq, hasks, hlater⟩
    cases later with
    | nil =>
      obtain ⟨rfl, rfl⟩ := List.cons.inj heq
      exact .inl hasks
    | cons a later =>
      obtain ⟨rfl, rfl⟩ := List.cons.inj heq
      refine .inr ⟨hlater [] act later rfl, later, asking, before, rfl, hasks,
        fun newer b older h => ?_⟩
      exact hlater (act :: newer) b older (by rw [h]; rfl)
  · rintro (hasks | ⟨hquiet, later, asking, before, rfl, hasks, hlater⟩)
    · exact ⟨[], act, earlier, rfl, hasks, fun newer a older h => absurd h (by simp)⟩
    · refine ⟨act :: later, asking, before, rfl, hasks, fun newer a older h => ?_⟩
      rcases List.cons_eq_append_iff.mp h with ⟨rfl, heq⟩ | ⟨newer, rfl, heq⟩
      · obtain ⟨rfl, rfl⟩ := List.cons.inj heq
        exact hquiet
      · exact hlater newer a older heq

/-- **Filters keep the last wish that nobody took.** -/
theorem again_after (id : StreamId) (acts : List (Act σ)) (q : Phase) :
    (after β id acts).filters.again = some q ↔ Asked β id acts q := by
  induction acts with
  | nil =>
    refine iff_of_false (Option.some_ne_none q).symm ?_
    rintro ⟨later, act, earlier, h, -⟩
    exact List.append_ne_nil_of_right_ne_nil later (List.cons_ne_nil act earlier) h.symm
  | cons act earlier ih =>
    rw [asked_cons, ← ih, after]
    by_cases ht : act = .takeAgain
    case pos =>
      subst ht
      refine iff_of_false (Option.some_ne_none q).symm ?_
      rintro (hwish | ⟨⟨hact, -⟩, -⟩)
      · exact Option.some_ne_none q hwish.symm
      · exact hact rfl
    case neg =>
      rw [again_next _ ht, Option.or_eq_some_iff]
      simp [ht]

end Detached

/-- **No wish to go back is stale.**  Whatever filters and collaborators do, and however jobs break
off or end, a stream keeps no wish between deeds, nor as any phase is executed.  A phase jumps
exactly if the pass it made ended in a wish to go back, and the stream then stands where that pass
wished; so every jump in its log comes right upon the end of such a pass.  Filters without a stream
keep the wish made last, and none if it was taken. -/
theorem no_stale_wish :
    (∀ (id : StreamId) (settings : Settings) (deeds : List (Deed σ ε)),
      let l := after id settings deeds
      l.stream.filters.again = none ∧
        (∀ q older, .jumped q :: older <:+ l.log →
          ∃ point, older.head? = some (.passed point (.ok (.resumeAt q)))) ∧
        ∀ c k t, Acts id settings deeds c k t → t.stream.filters.again = none ∧
          (∀ q, (t.execute c k).1 = .jump q ↔ ∃ point, t.stream.phase = point.phase ∧
            (t.stream.pass c.behaviour point k).result = .ok (.resumeAt q)) ∧
          ∀ y, Turn.Stride c (k, t) y → ∀ q, (t.execute c k).1 = .jump q →
            y.2.stream.phase = q ∧ y.2.stream.board.log.head? = some (.jumped q)) ∧
      ∀ (β : Behaviour σ) (id : StreamId) (acts : List (Detached.Act σ)) (q : Phase),
        (Detached.after β id acts).filters.again = some q ↔ Detached.Asked β id acts q := by
  refine ⟨fun id settings deeds => ⟨again_after id settings deeds, ?_, fun c k t ht => ?_⟩,
    fun β id acts q => Detached.again_after id acts q⟩
  · rintro q older ⟨newer, hlog⟩
    exact (lived_after id settings deeds).granted newer (.jumped q) older hlog.symm q rfl
  · obtain ⟨hl, ho, hagain⟩ := ht.again
    refine ⟨hagain, Turn.execute_jump_iff hl ho, fun y hy q hq => ?_⟩
    cases hy with
    | next hl he | goto hl he =>
      rw [he] at hq
      cases hq
    | jump hl he hj =>
      rw [he] at hq
      obtain rfl := Step.jump.inj hq
      exact ⟨rfl, rfl⟩

/-- A filter sends its stream on to be routed at once. -/
def sentOn : List (Deed (List Verdict) Unit) :=
  [.add foreseen (.request [.rematch] .beforeRoute), .receive {},
    .run ⟨.receive {}, false⟩ (.secluded foreseen) ()]

/-- The turn in which the filter does so. -/
def sendingOn : Turn (List Verdict) Unit :=
  ((Turn.execute (.secluded foreseen) 0 ⟨(after ⟨1⟩ {} (sentOn.take 2)).stream, ()⟩).2).advance
    .init

theorem acts_sendingOn : Acts ⟨1⟩ {} sentOn (.secluded foreseen) 0 sendingOn := by
  have hd : sentOn = sentOn.take 2 ++ .run ⟨.receive {}, false⟩ (.secluded foreseen) () :: [] := rfl
  refine .intro hd (.intro (by decide +kernel) (.receive ?_ ?_)
    (.single (.next ⟨?_, ?_⟩ (Prod.ext ?_ rfl))) ⟨?_, ?_⟩)
  all_goals decide +kernel

/-- The same filter without a stream, and a pass over it. -/
def sentBack : List (Detached.Act (List Verdict)) :=
  [.passRequests .beforeRoute 0 .keep {}, .add (.request [.rematch] .beforeRoute)]

/-- The filter's pass is a turn that jumps, the stream keeps no wish past it, and the jump is logged
upon the pass; without a stream the wish is kept until it is taken. -/
theorem no_stale_wish_sentOn :
    (after ⟨1⟩ {} sentOn).stream.filters.again = none ∧
      Acts ⟨1⟩ {} sentOn (.secluded foreseen) 0 sendingOn ∧
      (sendingOn.execute (.secluded foreseen) 0).1 = .jump .matchRoute ∧
      (∃ older, .jumped .matchRoute :: older <:+ (after ⟨1⟩ {} sentOn).log ∧
        ∃ point, older.head? = some (.passed point (.ok (.resumeAt .matchRoute)))) ∧
      (Detached.after foreseen ⟨1⟩ sentBack).filters.again = some .matchRoute ∧
      ¬ Detached.Asked foreseen ⟨1⟩ (.takeAgain :: sentBack) .matchRoute := by
  obtain ⟨hlives, hdetached⟩ := no_stale_wish (σ := List Verdict) (ε := Unit)
  obtain ⟨hagain, hjumped, hacts⟩ := hlives ⟨1⟩ {} sentOn
  obtain ⟨-, hjump, -⟩ := hacts _ _ _ acts_sendingOn
  have hlog : .jumped .matchRoute :: (after ⟨1⟩ {} sentOn).log.drop 8
    <:+ (after ⟨1⟩ {} sentOn).log :=
    List.drop_suffix 7 (after ⟨1⟩ {} sentOn).log
  refine ⟨hagain, acts_sendingOn, ?_, ⟨_, hlog, hjumped .matchRoute _ hlog⟩, ?_, ?_⟩
  · exact (hjump .matchRoute).mpr ⟨.beforeRoute, by decide +kernel, by decide +kernel⟩
  · refine (hdetached foreseen ⟨1⟩ sentBack .matchRoute).mpr ?_
    exact ⟨[], _, _, rfl, by decide +kernel, fun newer a older h => absurd h (by simp)⟩
  · exact fun h => absurd ((hdetached foreseen ⟨1⟩ _ .matchRoute).mpr h) (by decide +kernel)

end FilterProxy

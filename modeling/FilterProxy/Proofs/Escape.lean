import FilterProxy.Proofs.Shutdown

/-!
# Proofs/Escape — a panic that escapes from a job leaves a stream that can be ended

When a collaborator or the converter breaks off, its panic escapes from the job that called it, and
the stream is left at the phase it was executing: awake, unclaimed and still listed.  **No job takes
it up again** (`Stream.Left`), as a request counts at `init` only, a response while one is awaited,
a resumption and a time limit in a pause.  But **whoever ends it first does so**, and its release
tells the filters and clears it.
-/

namespace FilterProxy

variable {σ ε : Type}

open Board FilterSet FilterProxy.Stream Life

/-- What belongs to an ending is no effect. -/
theorem Event.isEffect_of_isEnding {e : Event σ} (h : e.isEnding = true) : e.isEffect = false := by
  cases e <;> first | rfl | cases h

/-! ## Collaborators that break off -/

/-- **A collaborator or the converter panics** as the phase is executed with the filters from
position `k` on. -/
inductive Turn.BreaksOff (c : Surroundings σ ε) (k : Nat) (t : Turn σ ε) : Panic → Prop
  | router {p} (hp : t.stream.phase = .matchRoute)
      (ha : (c.reload t.env c.routing).1.find t.stream.asked = .error p) : BreaksOff c k t p
  | chooser {route p} (hp : t.stream.phase = .chooseHost) (hr : t.stream.board.route = some route)
      (ha : (c.choose t.env route t.stream.asked).1 = .error p) : BreaksOff c k t p
  | transport {host p} (hp : t.stream.phase = .forward) (hh : t.stream.host = some host)
      (ha : (c.forward t.env t.stream.board.context.id host t.stream.request).1.panic = some p) :
        BreaksOff c k t p
  | writer {p} (hp : t.stream.phase = .respond)
      (ha : (c.write t.env t.stream.board.context.id t.stream.outgoing).1 = .error p) :
        BreaksOff c k t p
  /-- The pass over the request filters fails, and so only by the converter. -/
  | converter {point p} (hp : t.stream.phase = point.phase)
      (ha : (t.stream.pass c.behaviour point k).result = .error p) : BreaksOff c k t p

/-- **The panic escapes from the phase.** -/
theorem Turn.BreaksOff.execute {c : Surroundings σ ε} {k : Nat} {t : Turn σ ε} {p : Panic}
    (h : t.BreaksOff c k p) : (t.execute c k).1 = .escape p := by
  cases h with
  | router hp ha =>
    have ha : (c.reload t.env c.routing).1.find (t.stream.entered.request.headers.getD {})
      = .error p := ha
    unfold Turn.execute step
    rw [show t.stream.entered.phase = .matchRoute from hp]
    simp only [matchRoute, ha]
  | @chooser route _ hp hr ha =>
    have hr : t.stream.entered.board.route = some route := hr
    have ha : (c.choose t.env route (t.stream.entered.request.headers.getD {})).1 = .error p := ha
    unfold Turn.execute step
    rw [show t.stream.entered.phase = .chooseHost from hp]
    simp only [chooseHost, hr, ha]
  | transport hp hh ha =>
    rw [execute_forward hp hh]
    simp only [ha, Option.elim]
  | writer hp ha =>
    obtain ⟨s, hexec, -⟩ := execute_respond hp k ha
    exact congrArg Prod.fst hexec
  | converter hp ha =>
    rw [execute_filters c hp, filterRequest_entered, ha]
    rfl

/-! ## Streams that no job takes up again -/

namespace Stream

/-- The stream that a job drives is awake. -/
theorem Opens.awake {s s' : Stream σ} {job : Job} {k : Nat} (h : s.Opens job k s')
    (hs : s.Poised none) :
    s'.pausedBy = none := by
  cases h with
  | receive _ hp | response _ hp => exact hs.awake (by rw [hp]; rfl)
  | _ => rfl

/-- …and so it stays as long as it strides. -/
theorem awake_strides {c : Surroundings σ ε} {x y : Nat × Turn σ ε}
    (h : Relation.ReflTransGen (Turn.Stride c) x y) (ho : x.2.stream.board.owned = true)
    (hb : x.2.stream.pausedBy = none) : y.2.stream.pausedBy = none := by
  induction h with
  | refl => exact hb
  | tail hs hstride ih =>
    have ho := Turn.Stride.owned_strides hs ho
    cases hstride with
    | next hl hx =>
      obtain ⟨new, is, hx⟩ := Turn.executed_execute hl ho hx
      cases hx with
      | next hw ha => exact ha.pausedBy.trans ih
    | goto hl hx =>
      obtain ⟨new, is, hx⟩ := Turn.executed_execute hl ho hx
      cases hx with
      | reply hw ha => exact ha.pausedBy.trans ih
    | jump hl hx =>
      obtain ⟨new, is, hx⟩ := Turn.executed_execute hl ho hx
      cases hx with
      | jump hw ha => exact ha.pausedBy.trans ih

namespace Left

variable {s : Stream σ}

/-- **What a panic leaves that escapes from a phase** is left for good. -/
theorem of_escape {c : Surroundings σ ε} {k : Nat} {t t' : Turn σ ε} {p : Panic}
    (hl : t.stream.Live)
    (ho : t.stream.board.owned = true) (hb : t.stream.pausedBy = none)
    (hx : t.execute c k = (.escape p, t')) :
    t'.stream.Left := by
  obtain ⟨new, is, hexecuted⟩ := Turn.executed_execute hl ho hx
  have hsequel := Turn.sequel_execute (c := c) (k := k) hl ho
  rw [hx] at hsequel
  refine ⟨?_, .inr ?_⟩
  · cases hexecuted with
    | escape hw ha => exact ha.pausedBy.trans hb
  · rw [hexecuted.phase]
    cases hsequel with
    | escape _ _ hp => simpa using hp

/-- It stays so as long as its phase and pause do. -/
theorem congr {s' : Stream σ} (h : s.Left) (hb : s'.pausedBy = s.pausedBy) (hp : s'.phase = s.phase)
    (hc : s.board.claimed = true → s'.board.claimed = true) : s'.Left :=
  ⟨hb.trans h.awake, h.idle.imp hc fun hidle => hp ▸ hidle⟩

end Left

end Stream

namespace Reached

variable {l : Life σ}

/-- **Whatever happens to such a stream leaves it so.** -/
theorem left_next (h : Reached none l) (hs : l.stream.Left) (d : Deed σ ε) :
    (l.next d).stream.Left := by
  by_cases hrun : ∃ p c env, d = .run p c env ∧ ∀ r, p.job ≠ .release r
  · obtain ⟨p, c, env, rfl, hj⟩ := hrun
    rw [Life.next]
    split
    · rw [hs.exec c env hj]
      exact hs
    · exact hs
  have hyields := h.yields_next d
  generalize l.next d = l' at hyields
  cases hyields with
  | add _ _ _ hm => exact hs.congr rfl rfl hm.claimed
  | board new _ hm => exact hs.congr rfl rfl hm.claimed
  | direct m hp => exact hs.congr rfl rfl hp.moves.claimed
  | @abort c _ _ _ _ _ m cause hp =>
    obtain ⟨-, -, -, hmoves, heq⟩ := noteAbort_spec (l.directly _ m _).stream cause
    have ho := hmoves.owned.trans (hp.moves.owned.trans h.orderly.books.owned)
    refine ⟨?_, .inl (claimed_finish c.behaviour cause.ending ho)⟩
    rcases finish_pausedBy c.behaviour ((l.directly _ m _).stream.noteAbort cause) cause.ending
      with heq' | hnone
    · rw [become_stream, heq', heq]
      exact hs.awake
    · exact hnone
  | idle hp hj => exact absurd ⟨_, _, _, rfl, hj⟩ hrun
  | settled hp hj => exact absurd ⟨_, _, _, rfl, hj⟩ hrun
  | @release p c env r hp hj =>
    have hcondemned := h.orderly.condemned_due hp hj
    obtain ⟨-, hclaimed, -⟩ := hcondemned.release c.behaviour
    refine ⟨(awake_survive _ _).pausedBy.trans ?_, .inl ((claimed_survive _ _).trans hclaimed)⟩
    rw [release_eq]
    rfl

theorem left_foldl (deeds : List (Deed σ ε)) (h : Reached none l) (hs : l.stream.Left) :
    (deeds.foldl Life.next l).stream.Left := by
  induction deeds generalizing l with
  | nil => exact hs
  | cons d deeds ih => exact ih (h.next_deed d) (h.left_next hs d)

end Reached

/-- The errand may end its stream: it is not left to jobs, and a filter that acts may say so. -/
def Errand.MayEnd (β : Behaviour σ) : Errand σ → Prop
  | .terminate _ | .answer (.failed _) | .direct .. => True
  | .act _ _ program => ¬ program.Endures
  | .add r => ¬ ∀ id, (β.onAdd r.filter id r.side).Endures
  | _ => False

/-- The incident may end the stream at `ref`, at once. -/
def Incident.MayEnd (β : Behaviour σ) (ref : Nat) : Incident σ → Prop
  | .moment (.errand ref' e) => ref' = ref ∧ e.MayEnd β
  | .hand _ (.failed _) | .reset .. | .shutdown => True
  | _ => False

/-- Nothing else claims a stream that no job takes up… -/
theorem Reached.unclaimed_next {l : Life σ} (h : Reached none l) (hs : l.stream.Left)
    (hc : l.stream.board.claimed = false) {c : Surroundings σ ε} {ref : Nat} {x : Incident σ}
    {d : Deed σ ε}
    (hd : x.Causes c ref d) (hx : ¬ x.MayEnd c.behaviour ref) :
      (l.next d).stream.board.claimed = false := by
  have ho := h.orderly.books.owned
  have posted (job : Job) : (l.post job).stream.board.claimed = false := by
    simp only [Life.post, become_stream, schedule_of_owned ho]
    exact hc
  have answered (y : Handover) (hy : ∀ failure, y ≠ .failed failure) :
      (Turn.answer l.stream y).board.claimed = false := by
    cases y with
    | failed failure => exact absurd rfl (hy failure)
    | responded m => rw [Turn.answer_responded ho]; exact hc
    | _ => exact hc
  cases hd with
  | errand e env byReply =>
    cases e with
    | add r =>
      have hendures : ∀ id, (c.behaviour.onAdd r.filter id r.side).Endures := by
        simpa [Incident.MayEnd, Errand.MayEnd] using hx
      exact ((hendures _).claimed_run ..).trans hc
    | act filter index program =>
      have hendures : program.Endures := by simpa [Incident.MayEnd, Errand.MayEnd] using hx
      exact (hendures.claimed_run ..).trans hc
    | receive m => exact posted _
    | resume => exact posted _
    | answer y =>
      exact answered y fun failure hy => by simp [Incident.MayEnd, Errand.MayEnd, hy] at hx
    | run job =>
      rw [Errand.deed, Life.next]
      split
      case isTrue hp =>
        by_cases hj : ∀ r, job ≠ .release r
        · rw [hs.exec c env hj]
          exact hc
        · obtain ⟨r, rfl⟩ := not_forall_not.mp hj
          have hmem : r ∈ releases l.log := (mem_releases_of_due hp rfl).2
          rw [h.orderly.releases_of_unclaimed hc] at hmem
          cases hmem
      case isFalse => exact hc
    | _ => simp [Incident.MayEnd, Errand.MayEnd] at hx
  | hand n y => exact answered y fun failure hy => by simp [Incident.MayEnd, hy] at hx
  | _ => simp [Incident.MayEnd] at hx

/-- …nor does any number of such deeds. -/
theorem Reached.unclaimed_foldl (deeds : List (Deed σ ε)) {l : Life σ} (h : Reached none l)
    (hs : l.stream.Left) (hc : l.stream.board.claimed = false) {β : Behaviour σ} {ref : Nat}
    (hd : ∀ d ∈ deeds, ∃ (x : Incident σ) (c : Surroundings σ ε),
      c.behaviour = β ∧ x.Causes c ref d ∧ ¬ x.MayEnd β ref) :
    (deeds.foldl Life.next l).stream.board.claimed = false := by
  induction deeds generalizing l with
  | nil => exact hc
  | cons d deeds ih =>
    obtain ⟨x, c, rfl, hcause, hx⟩ := hd d List.mem_cons_self
    exact ih (h.next_deed d) (h.left_next hs d) (h.unclaimed_next hs hc hcause hx)
      fun d' hd' => hd d' (List.mem_cons_of_mem d hd')

namespace Share.Lives

variable {s : Share σ} {l : Life σ}

/-- The stream of the share is as the life's. -/
theorem left (h : s.Lives l) {m : Member σ} (hm : s.member = some m) :
    l.stream.Left ↔ m.stream.Left := by
  obtain ⟨m', hm', -, hstream⟩ := h.member
  obtain rfl : m = m' := Option.some.inj (hm.symm.trans hm')
  rw [hstream]
  exact ⟨fun hl => hl.congr rfl rfl id, fun hl => hl.congr rfl rfl id⟩

/-- **A job that waits is run** in the life as well. -/
theorem run (h : s.Lives l) {job : Job} (hj : job ∈ s.jobs) (c : Surroundings σ ε) (env : ε) :
    ∃ l' : Life σ, (s.serve c env (.run job)).Lives l' ∧ l'.stream
      = Life.survive (Turn.exec c job ⟨l.stream, env⟩).1
        (Turn.exec c job ⟨l.stream, env⟩).2.stream := by
  have hd : s.draw (.run job) = some { s with jobs := s.jobs.erase job } := if_pos hj
  obtain ⟨m, hm, -, hl⟩ := h.member
  obtain ⟨hmember, hrecord, byReply, hledger, hstream⟩ := h.draw c env hd
  refine ⟨_, ?_, hstream⟩
  rw [Share.serve, hd]
  refine lives_visited (hmember.trans hm) ?_ hledger
  rw [hrecord, ← Errand.work_atop, ← hl]
  exact hstream

end Share.Lives

/-! ## The streams of a proxy -/

/-- The stream holds nothing any more. -/
structure Stream.Emptied (s : Stream σ) : Prop where
  request : s.request = {}
  response : s.response = {}
  host : s.host = none
  done : s.phase = .done

/-- The stream that waits for its release is condemned. -/
theorem Life.Awaits.condemned {l : Life σ} {r : Ending} (h : l.Awaits r) :
    l.stream.Condemned r where
  books := h.reached.orderly.books
  claimed := h.claimed
  claims := h.claim
  farewells := (h.reached.orderly.untold h.notDone).1
  statuses := (h.reached.orderly.untold h.notDone).2

namespace Proxy

/-- The pool runs a job of the stream at `ref`. -/
def running (ref : Nat) (job : Job) : Incident σ := .moment (.errand ref (.run job))

/-- **A panic breaks a job off**: in the course of it the stream at `ref` executes a phase in which
a collaborator or the converter panics, and nobody has claimed the stream by then. -/
inductive BreaksOff (q : Proxy σ ε) (ref : Nat) (job : Job) (p : Panic) : Prop
  | intro {m : Member σ} {start k : Nat} {s : Stream σ} {t : Turn σ ε}
      (hj : job ∈ (q.share ref).jobs) (hm : q.streams[ref]? = some m)
      (ho : m.stream.Opens job start s)
      (hs : Relation.ReflTransGen (Turn.Stride q.surroundings) (start, ⟨s, q.env⟩) (k, t))
      (hl : t.stream.Live)
      (hp : t.BreaksOff q.surroundings k p)
      (hc : (t.execute q.surroundings k).2.stream.claimed = false)

/-- No job takes the stream at `ref` up. -/
def Leaves (q : Proxy σ ε) (ref : Nat) : Prop :=
  ∃ m : Member σ, q.streams[ref]? = some m ∧ m.stream.Left

/-- **The job does nothing for the stream at `ref`**: no phase is executed, no filter and no
collaborator called. -/
def Idles (q : Proxy σ ε) (ref : Nat) (job : Job) : Prop :=
  ∃ new, ((q.undergo (running ref job)).share ref).record = new ++ (q.share ref).record ∧
    ∀ e ∈ new, e.isEffect = false ∧ ∀ side, e.call? side = none

/-- **The stream at `ref` was ended for `r`**: whatever happens, its release waits in the pool until
it is run.  That empties the stream and, if no filter panics as it is told, publishes the ending and
tells each filter once. -/
def EndedFor (q : Proxy σ ε) (ref : Nat) (r : Ending) : Prop :=
  ∀ more : List (Incident σ), releasing ref r ∉ more →
    let q' := more.foldl undergo q
    let last := q'.undergo (releasing ref r)
    .release r ∈ (q'.share ref).jobs ∧ ∃ m m' : Member σ, q'.streams[ref]? = some m ∧
      last.streams[ref]? = some m' ∧ m'.stream.Emptied ∧
      (m.stream.filters.AllCalm q.surroundings.behaviour m.stream.board →
        m'.stream.board.status = .finished r ∧
          ∀ side, ∀ i < m.stream.filters.size side,
            (farewells side (last.share ref).record).count i = 1)

/-- **The stream at `ref` can be ended** by whoever comes first, and is found under its identity. -/
structure Endable (q : Proxy σ ε) (ref : Nat) : Prop where
  terminate : ∀ r, (q.terminate ref r).1 = true ∧ (q.terminate ref r).2.EndedFor ref r
  reset : ∀ id, q.active.find? id = some ref → ∀ r, (q.reset id r).1 = true ∧
    (q.reset id r).2.EndedFor ref r
  /-- A shutdown counts it among the listed streams that nobody has claimed. -/
  shutdown : ref ∈ q.active.streams → q.isUnclaimed ref = true ∧
    q.shutdown.1 = q.active.streams.countP q.isUnclaimed ∧ q.shutdown.2.EndedFor ref .shutdown
  listed : q.Unique → ref ∈ q.active.streams ∧
    ∃ m : Member σ, q.streams[ref]? = some m ∧ q.active.find? m.stream.board.context.id = some ref

variable {q : Proxy σ ε} {stillborn : Finset Nat} {ref : Nat} {job : Job} {p : Panic}

/-- What is left of a job that broke off. -/
theorem BreaksOff.serve (h : q.Tidy stillborn) (hb : q.BreaksOff ref job p) :
    let q' := q.serve ref (.run job)
    q'.Tidy stillborn ∧ q'.active = q.active ∧ q'.Unclaimed ref ∧ q'.Leaves ref := by
  obtain @⟨m, start, k, s, t, hj, hm, ho, hs, hl, hp, hc⟩ := hb
  have howned : m.stream.board.owned = true := (h.sound.fit ref m hm).owned
  have hpoised : m.stream.Poised none := by
    obtain ⟨-, id, settings, deeds, hlives⟩ := h.lives ref m hm
    obtain ⟨m', hm', -, hstream⟩ := hlives.member
    obtain rfl : m = m' := Option.some.inj (hm.symm.trans hm')
    have hpoised := (reached_after (ε := ε) id settings deeds).poised
    rw [hstream] at hpoised
    exact hpoised
  have hsowned := ho.owned howned
  have htowned := Turn.Stride.owned_strides hs hsowned
  generalize hx : t.execute q.surroundings k = x at hc
  obtain ⟨step, t'⟩ := x
  obtain rfl : step = .escape p := (congrArg Prod.fst hx).symm.trans hp.execute
  have hleft := Left.of_escape hl htowned (awake_strides hs hsowned (ho.awake hpoised)) hx
  have hexec : Turn.exec q.surroundings job ⟨m.stream, q.env⟩ = (some p, t') :=
    (ho.exec q.surroundings q.env).trans
      (((Turn.drives_drive q.surroundings start ⟨s, q.env⟩ hsowned).of_strides hs).eq_of_stops
        (.escape hl hx))
  have hdrawn := drawn_job q (Pool.mem_jobs.mp hj)
  obtain ⟨m', hv⟩ := h.visits hdrawn hm
  have hserve : q.serve ref (.run job)
      = Proxy.engage { q with pool := q.pool.withdraw ref job } ref
        ((Errand.run job).work q.surroundings) := by
    rw [serve_eq, draw, if_pos (Pool.mem_jobs.mp hj)]
  rw [← hserve] at hv
  have hself := congrArg Share.member (share_serve_self q ref (.run job))
  rw [Share.serve, Share.draw, if_pos hj, Share.visited_member (s := { q.share ref with jobs := _ })
    hm] at hself
  have hm' : m' = { m with stream := { t'.stream with
      board := { (t'.stream.note (.escaped p)).board with log := [] } } } := by
    have heq := Option.some.inj (hv.left.symm.trans hself)
    rw [heq]
    simp only [Errand.work, hexec]
    rfl
  have hclaimed : m'.stream.claimed = false := hm' ▸ hc
  refine ⟨hv.tidy h, ?_, ⟨m', hv.left, hclaimed⟩, m', hv.left, hm' ▸ hleft.congr rfl rfl id⟩
  obtain ⟨b, hactive, hb⟩ := hv.active
  rw [hactive, (hb (.inl hclaimed)).2]
  rfl

/-- **Whatever happens to the proxy leaves the stream so**, and none but who ends it claims it. -/
theorem Leaves.foldl (h : q.Tidy stillborn) (hl : q.Leaves ref) (more : List (Incident σ)) :
    (more.foldl undergo q).Leaves ref ∧
      (q.Unclaimed ref → (∀ x ∈ more, ¬ x.MayEnd q.surroundings.behaviour ref) →
        (more.foldl undergo q).Unclaimed ref) := by
  obtain ⟨m, hm, hleft⟩ := hl
  obtain ⟨-, id, settings, before, hlives⟩ := h.lives ref m hm
  have hreached : Reached none (after id settings before) := reached_after ..
  have hleft := (hlives.left hm).mpr hleft
  obtain ⟨deeds, hlater, hdeeds⟩ := lives_foldl hlives more
  obtain ⟨m', hm', -, -⟩ := hlater.member
  refine ⟨⟨m', hm', (hlater.left hm').mp (hreached.left_foldl deeds hleft)⟩,
    fun ⟨m₀, hm₀, hc⟩ hmore => ?_⟩
  refine ⟨m', hm', (hlater.claimed hm').symm.trans ?_⟩
  have hcaused : ∀ d ∈ deeds, ∃ (x : Incident σ) (c : Surroundings σ ε),
      c.behaviour = q.surroundings.behaviour ∧ x.Causes c ref d ∧
        ¬ x.MayEnd q.surroundings.behaviour ref :=
    fun d hd => by
      obtain ⟨x, hx, c, hc, hcause⟩ := hdeeds d hd
      exact ⟨x, c, hc, hcause, hmore x hx⟩
  exact hreached.unclaimed_foldl deeds hleft ((hlives.claimed hm₀).trans hc) hcaused

/-- **No job does anything for a stream that none takes up.** -/
theorem Leaves.idles (h : q.Tidy stillborn) (hl : q.Leaves ref) (job : Job) : q.Idles ref job := by
  obtain ⟨m, hm, hleft⟩ := hl
  obtain ⟨-, _, _, _, hlives⟩ := h.lives ref m hm
  obtain ⟨m', hm', hlog, -⟩ := hlives.member
  obtain rfl : m = m' := Option.some.inj (hm.symm.trans hm')
  have hself : (q.undergo (running ref job)).share ref = (q.share ref).serve q.surroundings q.env
    (.run job) :=
    share_serve_self q ref (.run job)
  unfold Idles
  rw [hself, Share.serve]
  by_cases hj : job ∈ (q.share ref).jobs
  case neg =>
    rw [Share.draw, if_neg hj]
    exact ⟨[], rfl, List.forall_mem_nil _⟩
  rw [Share.draw, if_pos hj]
  dsimp only
  rw [Share.visited_record (s := { q.share ref with jobs := _ }) hm]
  refine ⟨_, rfl, ?_⟩
  by_cases hrelease : ∃ r, job = .release r
  · obtain ⟨r, rfl⟩ := hrelease
    obtain ⟨new, hnew, hending⟩ :=
      release_log q.surroundings.behaviour r m.stream (h.sound.fit ref m hm).owned
    obtain ⟨escaped, hescaped, houtside⟩ := Reached.survive_log
      (m.stream.release q.surroundings.behaviour r).1
        (m.stream.release q.surroundings.behaviour r).2
    intro e he
    have hall : e ∈ escaped ++ (new ++ m.stream.board.log) := by
      rw [← hnew, ← hescaped]
      exact he
    rw [hlog, List.append_nil] at hall
    rcases List.mem_append.mp hall with he | he
    · exact ⟨Event.isEffect_of_isOutside (houtside e he), fun side =>
        Event.call?_of_isOutside side (houtside e he)⟩
    · exact ⟨Event.isEffect_of_isEnding (hending e he), fun side =>
        Event.call?_of_isEnding side (hending e he)⟩
  · have hexec := hleft.exec q.surroundings q.env fun r hr => hrelease ⟨r, hr⟩
    intro e he
    simp only [Errand.work, hexec, Life.survive, hlog] at he
    cases he

/-- **A release that is waited for is run**: the stream is emptied and, if no filter panics, its
ending is published and each of its filters was told once. -/
theorem released_whole {l : Life σ} {r : Ending} (h : (q.share ref).Lives l) (ha : l.Awaits r)
    {m : Member σ} (hm : q.streams[ref]? = some m) : ∃ m' : Member σ,
      (q.undergo (releasing ref r)).streams[ref]? = some m' ∧ m'.stream.Emptied ∧
        (m.stream.filters.AllCalm q.surroundings.behaviour m.stream.board → m'.stream.board.status
          = .finished r ∧
          ∀ side, ∀ i < m.stream.filters.size side,
            (farewells side ((q.undergo (releasing ref r)).share ref).record).count i = 1) := by
  obtain ⟨m', hm', -, hcalm⟩ := released h ha hm
  obtain ⟨l', hserved, hstream⟩ := h.run (h.mem_jobs ha) q.surroundings q.env
  have hlives : ((q.undergo (releasing ref r)).share ref).Lives l' := by
    rwa [← share_serve_self] at hserved
  have hreleased : l'.stream = Life.survive (l.stream.release q.surroundings.behaviour r).1
      (l.stream.release q.surroundings.behaviour r).2 := hstream
  refine ⟨m', hm', ?_, fun hall => ⟨hcalm.mpr hall, fun side i hi => ?_⟩⟩
  · obtain ⟨m'', hm'', -, hl'⟩ := hlives.member
    obtain rfl : m' = m'' := Option.some.inj (hm'.symm.trans hm'')
    have hemptied : l'.stream.Emptied := by
      rw [hreleased, release_eq]
      cases (l.stream.filters.destroy q.surroundings.behaviour l.stream.board).1
        <;> exact ⟨rfl, rfl, rfl, rfl⟩
    rw [hl'] at hemptied
    exact ⟨hemptied.request, hemptied.response, hemptied.host, hemptied.done⟩
  · obtain ⟨m'', hm'', -, hl⟩ := h.member
    obtain rfl : m = m'' := Option.some.inj (hm.symm.trans hm'')
    have hstatus : (l.stream.release q.surroundings.behaviour r).2.board.status = .finished r := by
      have heq := congrArg (·.board.status) hreleased
      rw [(hlives.status hm').1, hcalm.mpr hall] at heq
      cases hp : (l.stream.release q.surroundings.behaviour r).1 <;> rw [hp] at heq
        <;> exact heq.symm
    obtain ⟨hcomplete, hpublished⟩ := ha.condemned.complete_iff q.surroundings.behaviour
    have htold := (hcomplete.mpr (hpublished.mp hstatus)).told side i (by rw [hl]; exact hi)
    rw [← hlives.log, Life.log, hreleased]
    cases (l.stream.release q.surroundings.behaviour r).1 <;> exact htold

/-- Whoever waits for its release was ended. -/
theorem endedFor {l : Life σ} {r : Ending} (h : (q.share ref).Lives l) (ha : l.Awaits r) :
    q.EndedFor ref r := by
  intro more hmore
  obtain ⟨l', hlives, hwaits⟩ := awaits_foldl h ha hmore
  obtain ⟨m, hm, -, -⟩ := hlives.member
  obtain ⟨m', hm', hreleased⟩ := released_whole hlives hwaits hm
  rw [(setUpLike_foldl _ more).behaviour] at hreleased
  exact ⟨hlives.mem_jobs hwaits, m, m', hm, hm', hreleased⟩

/-- **A stream nobody has claimed can be ended.** -/
theorem Tidy.endable (h : q.Tidy stillborn) (hc : q.Unclaimed ref) : q.Endable ref := by
  have hended (r : Ending) : (q.terminate ref r).1 = true ∧
    (q.terminate ref r).2.EndedFor ref r := by
    obtain ⟨l, -, -, hawaits, hlives⟩ := h.awaits hc q.surroundings q.env r
    rw [← share_serve_self] at hlives
    exact ⟨(h.terminate_fst r).trans (isUnclaimed_iff.mpr hc), endedFor hlives hawaits⟩
  refine ⟨hended, fun id hid r => ?_, fun href => ?_, fun hunique => ?_⟩
  · rw [Proxy.reset, hid]
    exact hended r
  · obtain ⟨hcount, hends⟩ := h.shutdown_spec
    obtain ⟨l, -, -, hawaits, hlives⟩ := h.awaits hc q.surroundings q.env .shutdown
    rw [← hends.ended ref href] at hlives
    exact ⟨isUnclaimed_iff.mpr hc, hcount, endedFor hlives hawaits⟩
  · obtain ⟨m, hm, hc⟩ := hc
    have hentry := h.enlisted hunique ref m hm (.inl hc)
    exact ⟨List.mem_map.mpr ⟨_, hentry, rfl⟩, m, hm, (h.find?_active hunique).mpr hentry⟩

end Proxy

/-- **A panic that escapes leaves the stream to be ended.**  Whatever happened to a proxy, let a
collaborator or the converter panic in a job of a stream that nobody has claimed by then.  The
stream is not claimed by that, nor struck off the list.  Whatever happens then, no job executes a
phase of it or calls a filter or a collaborator; only who ends it claims it; and whoever does so
first succeeds, and has it released as any other. -/
theorem escape_leaves_endable {p : Proxy σ ε} (hp : p.Fresh) (incidents : List (Incident σ))
    {ref : Nat} {job : Job} {panic : Panic}
    (hb : (incidents.foldl Proxy.undergo p).BreaksOff ref job panic) :
    let q := incidents.foldl Proxy.undergo p
    let left := q.undergo (Proxy.running ref job)
    left.Unclaimed ref ∧ left.active = q.active ∧ ∀ more : List (Incident σ),
      let q' := more.foldl Proxy.undergo left
      (∀ job', q'.Idles ref job') ∧
        ((∀ x ∈ more, ¬ x.MayEnd p.surroundings.behaviour ref) → q'.Unclaimed ref) ∧
        (q'.Unclaimed ref → q'.Endable ref) := by
  intro q left
  obtain ⟨htidy, hactive, hunclaimed, hleaves⟩ := hb.serve (hp.tidy.foldl incidents)
  refine ⟨hunclaimed, hactive, fun more => ?_⟩
  obtain ⟨hleaves', hstays⟩ := hleaves.foldl htidy more
  have htidy' : (more.foldl Proxy.undergo left).Tidy _ := htidy.foldl more
  have hbehaviour : left.surroundings.behaviour = p.surroundings.behaviour :=
    (Proxy.setUpLike_undergo q (Proxy.running ref job)).behaviour.trans
      (Proxy.setUpLike_foldl p incidents).behaviour
  exact ⟨hleaves'.idles htidy', fun hmore => hstays hunclaimed (hbehaviour ▸ hmore), htidy'.endable⟩

/-! ## A request goes astray -/

/-- The router panics. -/
def astray : Surroundings Bool Unit :=
  { Surroundings.secluded stopping with routing := ⟨some fun _ => .error ⟨none⟩⟩ }

/-- A stream with a filter is given a request. -/
def givenRequest : Proxy Bool Unit :=
  let incidents : List (Incident Bool) :=
    [.new, .moment (.errand 0 (.add (.response true .beforeSend))),
      .moment (.errand 0 (.receive {}))]
  incidents.foldl Proxy.undergo { surroundings := astray, env := () }

theorem Turn.Stride.of_next {c : Surroundings σ ε} {k : Nat} {t : Turn σ ε} (hl : t.stream.Live)
    (h : (t.execute c k).1 = .next) :
      Turn.Stride c (k, t) (0, (t.execute c k).2.advance t.stream.phase) :=
  .next hl (Prod.ext h rfl)

theorem breaksOff_givenRequest : givenRequest.BreaksOff 0 (.receive {}) ⟨none⟩ := by
  let m : Member Bool := (givenRequest.streams[0]?).get (by decide +kernel)
  let t₀ : Turn Bool Unit := ⟨{ m.stream with request := {} }, ()⟩
  let t₁ : Turn Bool Unit := (t₀.execute astray 0).2.advance t₀.stream.phase
  let t₂ : Turn Bool Unit := (t₁.execute astray 0).2.advance t₁.stream.phase
  have hm : givenRequest.streams[0]? = some m := (Option.some_get _).symm
  have hstart : m.stream.Opens (.receive {}) 0 t₀.stream :=
    .receive (by decide +kernel) (by decide +kernel)
  have hinit : Turn.Stride astray (0, t₀) (0, t₁) :=
    .of_next ⟨by decide +kernel, by decide +kernel⟩ (by decide +kernel)
  have hfilters : Turn.Stride astray (0, t₁) (0, t₂) :=
    .of_next ⟨by decide +kernel, by decide +kernel⟩ (by decide +kernel)
  have hrouter : t₂.BreaksOff astray 0 ⟨none⟩ := .router (by decide +kernel) rfl
  exact .intro (by decide +kernel) hm hstart (.tail (.single hinit) hfilters)
    ⟨by decide +kernel, by decide +kernel⟩ hrouter (by decide +kernel)

/-- The request is not matched again, and the stream is reset. -/
theorem escape_leaves_endable_givenRequest :
    let left := givenRequest.undergo (Proxy.running 0 (.receive {}))
    givenRequest.BreaksOff 0 (.receive {}) ⟨none⟩ ∧ left.Unclaimed 0 ∧
      left.active.entries = [(⟨1⟩, 0)] ∧ (left.reset ⟨1⟩ .reset).1 = true ∧
      ((left.reset ⟨1⟩ .reset).2.undergo (Proxy.releasing 0 .reset)).streams.toList.map
          (·.stream.board.status)
        = [.finished .reset] := by
  intro left
  have hfresh : ({ surroundings := astray, env := () } : Proxy Bool Unit).Fresh :=
    ⟨⟨rfl, rfl, rfl⟩, rfl, rfl, rfl⟩
  obtain ⟨hunclaimed, hactive, hlater⟩ := escape_leaves_endable hfresh _ breaksOff_givenRequest
  obtain ⟨-, -, hendable⟩ := hlater []
  have hreset := (hendable hunclaimed).reset ⟨1⟩ (by decide +kernel) .reset
  refine ⟨breaksOff_givenRequest, hunclaimed, ?_, hreset.1, ?_⟩
  · exact (congrArg Registry.entries hactive).trans (by decide +kernel)
  · decide +kernel

end FilterProxy

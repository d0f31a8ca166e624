import FilterProxy.Proofs.Shortfall

/-!
# Proofs/Outcome — a stream ends as it went

Collaborators are called by streams nobody has claimed, so **what they answer decides**
(`Life.Acts.claims`): a stream is completed iff the client took its response, and a failure is told
as what it is.
-/

namespace FilterProxy

variable {σ ε : Type}

open Board FilterSet FilterProxy.Stream Life

theorem Event.plain_of_isEnding {e : Event σ} (h : e.isEnding = true) :
    e.isCompletion = false ∧ e.isCreation = false := by
  cases e with
  | stat s => cases s <;> first | exact ⟨rfl, rfl⟩ | cases h
  | _ => exact ⟨rfl, rfl⟩

/-- A job that has the stream driven falls short of a completion. -/
theorem Stream.Opens.fallsShort {s s' : Stream σ} {job : Job} {k : Nat} (h : s.Opens job k s') :
    FallsShort s.board.log s'.board.log := by
  cases h with
  | receive => exact .refl _
  | _ => exact .one nofun rfl rfl

/-! ## Turns -/

section

variable {settings : Settings} {Answers : Handover → Prop} {l : Life σ} {d : Deed σ ε}
  {c : Surroundings σ ε} {k : Nat} {t : Turn σ ε}

theorem Life.Turns.books (h : Lived settings Answers none l) (ht : l.Turns d c k t) :
    t.stream.board.Books := by
  obtain ⟨hp, ho, hs, hl⟩ := ht
  obtain ⟨_, _, _, _, _, hlived⟩ := h.of_executes (.intro hp ho hs hl)
  exact hlived.reached.orderly.books

/-- **What a turn comes to decides how the stream ends.** -/
theorem Life.Turns.claims (h : Lived settings Answers none l) (ht : l.Turns d c k t) {r : Ending}
    (hx : (∃ t', t.execute c k = (.finish r, t') ∧ t'.stream.board.claimed = false) ∨
      FilterProxy.claims (t.execute c k).2.stream.board.log = [r]) :
    FilterProxy.claims (l.next d).log = [r] := by
  have hb := ht.books h
  have hnext := (h.reached.next_deed d).orderly.books
  obtain ⟨hl, ho, x, hdrives, hstream⟩ := ht.drives h.reached
  have hdriven : x.2.stream.board.log <:+ (l.next d).log := by
    obtain ⟨new, hsurvived, -⟩ := Reached.survive_log x.1 x.2.stream
    exact ⟨new, by rw [Life.log, hstream, hsurvived]⟩
  rcases hx with ⟨t', hexec, hc⟩ | hclaims
  · obtain ⟨new, is, hexecuted⟩ := Turn.executed_execute hl ho hexec
    have hb' := (hexecuted.moves hl).books hb
    have hfinish := (firstStands hb' r).finish c.behaviour
    rw [hb'.unclaimed hc] at hfinish
    refine hnext.claims_of_suffix hdriven ?_
    rw [hdrives.eq_of_stops (.finish hl hexec)]
    exact hfinish
  · exact hnext.claims_of_suffix ((hdrives.suffix_execute ho hl).trans hdriven) hclaims

/-- **What a turn logs in which the client takes the response**: one completion is recorded. -/
theorem Life.Turns.log (h : Lived settings Answers none l) (ht : l.Turns d c k t)
    (ha : t.Accepted c) :
    ∃ before last, FallsShort l.log before ∧
      (l.next d).log = last ++ .stat (.phaseCompleted .respond) :: before ∧
      ∀ e ∈ last, e.isCompletion = false ∧ e.isCreation = false := by
  obtain ⟨hl, ho, x, hdrives, hstream⟩ := ht.drives h.reached
  obtain ⟨t', hexec, -, hlog⟩ := ha.execute hl k
  obtain ⟨new, is, hexecuted⟩ := Turn.executed_execute hl ho hexec
  obtain ⟨more, hmore, hending⟩ := finish_log c.behaviour .completed t'.stream
    ((hexecuted.moves hl).owned.trans ho)
  obtain ⟨escaped, hescaped, hshort⟩ := fallsShort_survive (s := x.2.stream) x.1
  have hbefore : FallsShort l.log t.stream.board.log := by
    obtain ⟨hp, hopens, hs, -⟩ := ht
    exact hopens.fallsShort.trans
      (Turn.fallsShort_strides hs (hopens.owned h.reached.orderly.books.owned))
  refine ⟨.written t.stream.outgoing (.ok (.ok ())) :: t.stream.entered.board.log, escaped ++ more,
    .cons ⟨nofun, rfl, rfl⟩ (hbefore.cons ⟨nofun, rfl, rfl⟩), ?_, fun e he => ?_⟩
  · rw [Life.log, hstream, hescaped, hdrives.eq_of_stops (.finish hl hexec)]
    dsimp only [Turn.alone]
    rw [hmore, hlog, List.append_assoc]
  · rcases List.mem_append.mp he with he | he
    · exact ⟨(hshort e he).stat, (hshort e he).creation⟩
    · exact Event.plain_of_isEnding (hending e he)

/-- A turn in which the client takes the response records one completion. -/
theorem Life.Turns.completions (h : Lived settings Answers none l) (ht : l.Turns d c k t)
    (ha : t.Accepted c) :
    (l.next d).log.countP Event.isCompletion = l.log.countP Event.isCompletion + 1 := by
  obtain ⟨before, last, hbefore, hlog, hlast⟩ := ht.log h ha
  have hnone : last.countP Event.isCompletion = 0 := List.countP_eq_zero.mpr fun e he => by
    simp [(hlast e he).1]
  rw [hlog, List.countP_append, hnone, ← hbefore.countP_isCompletion, Nat.zero_add,
    List.countP_cons]
  rfl

end

/-! ## Deeds -/

namespace Reached

variable {l : Life σ}

theorem fallsShort_run (h : Reached none l) (p : Posting) (c : Surroundings σ ε) (env : ε) :
    FallsShort l.log (l.next (.run p c env)).log ∨
      ∃ k t, l.Turns (.run p c env) c k t ∧ t.Accepted c := by
  by_cases hp : l.Due p
  case neg => rw [Life.next, if_neg hp]; exact .inl (.refl _)
  have ho := h.orderly.books.owned
  have hran := Turn.ran_exec c ⟨l.stream, env⟩ p.job
  have hnext : (l.next (.run p c env)).log = (Life.survive (Turn.exec c p.job ⟨l.stream, env⟩).1
      (Turn.exec c p.job ⟨l.stream, env⟩).2.stream).board.log := by rw [Life.next, if_pos hp]; rfl
  rw [hnext]
  generalize Turn.exec c p.job ⟨l.stream, env⟩ = r at hran ⊢
  have hsurvive := fallsShort_survive (s := r.2.stream) r.1
  rcases p with ⟨job, byReply⟩
  dsimp only at hran
  cases hran with
  | idle hi => exact .inl hsurvive
  | @drive _ k s hopens =>
    have ho' := hopens.owned ho
    rcases (Turn.drives_drive c k ⟨s, env⟩ ho').fallsShort ho' with hshort | ⟨y, hs, hl, ha⟩
    · exact .inl ((hopens.fallsShort.trans hshort).trans hsurvive)
    · exact .inr ⟨y.1, y.2, .intro hp hopens hs hl, ha⟩
  | timeout =>
    exact .inl ((fallsShort_finish c.behaviour (r := .stopTimeout) (by simp) ho).trans hsurvive)
  | release ending => exact .inl ((fallsShort_release c.behaviour ending ho).trans hsurvive)

/-- **Every deed falls short of a completion**, unless it asks for one or the client takes the
response. -/
theorem fallsShort_next (h : Reached none l) {d : Deed σ ε} (hd : d ≠ .terminate .completed) :
    FallsShort l.log (l.next d).log ∨ ∃ c k t, l.Turns d c k t ∧ t.Accepted c := by
  have ho := h.orderly.books.owned
  cases d with
  | run p c env => exact (h.fallsShort_run p c env).imp_right fun ⟨k, t, ht⟩ => ⟨c, k, t, ht⟩
  | add β r => exact .inl (fallsShort_introduce β l.stream.filters r ho)
  | receive request => exact .inl (fallsShort_schedule ho _)
  | resume => exact .inl (fallsShort_schedule ho _)
  | terminate ending =>
    exact .inl (fallsShort_terminate (fun he => hd (congrArg _ he)) ho)
  | act side filter index program => exact .inl (fallsShort_program filter index program ho)
  | answer x => exact .inl (fallsShort_answer x ho)
  | direct c message convert =>
    exact .inl (fallsShort_runResponseFilters c.behaviour message convert ho)

end Reached

/-- **A stream is created once**: no deed does so again. -/
theorem Lived.created_next {settings : Settings} {Answers : Handover → Prop} {l : Life σ}
    (h : Lived settings Answers none l) (d : Deed σ ε) :
    (l.next d).log.countP Event.isCreation = l.log.countP Event.isCreation := by
  by_cases hd : d = .terminate .completed
  case pos =>
    subst hd
    have hb := h.reached.orderly.books
    rw [Life.next, become_log, Stream.terminate]
    cases hc : l.stream.board.claimed with
    | true => rw [terminate_of_claimed hc]; rfl
    | false => rw [terminate_of_unclaimed hb.owned hc]; rfl
  case neg =>
    rcases h.reached.fallsShort_next hd with hshort | ⟨c, k, t, ht, ha⟩
    · exact hshort.countP_isCreation
    · obtain ⟨before, last, hbefore, hlog, hlast⟩ := ht.log h ha
      have hnone : last.countP Event.isCreation = 0 := List.countP_eq_zero.mpr fun e he => by
        simp [(hlast e he).2]
      rw [hlog, List.countP_append, hnone, ← hbefore.countP_isCreation, Nat.zero_add,
        List.countP_cons]
      rfl

/-- **Every life begins once.** -/
theorem created_after (id : StreamId) (settings : Settings) (deeds : List (Deed σ ε)) :
    (after id settings deeds).log.countP Event.isCreation = 1 := by
  induction deeds using List.reverseRecOn with
  | nil => rfl
  | append_singleton deeds d ih =>
    rw [after_append]
    exact ((lived_after id settings deeds).created_next d).trans ih

/-! ## Whole lives -/

section

variable {id : StreamId} {settings : Settings} {deeds : List (Deed σ ε)} {c : Surroundings σ ε}
  {k : Nat} {t : Turn σ ε}

theorem Life.Acts.live (ha : Acts id settings deeds c k t) : t.stream.Live := by
  obtain ⟨-, ht⟩ := ha
  exact (ht.drives (reached_after ..)).1

theorem Life.Acts.books (ha : Acts id settings deeds c k t) : t.stream.board.Books := by
  obtain ⟨-, ht⟩ := ha
  exact ht.books (lived_after ..)

/-- **What a turn comes to decides how the stream ends**, whatever is done later. -/
theorem Life.Acts.claims (ha : Acts id settings deeds c k t) {r : Ending}
    (hx : (∃ t', t.execute c k = (.finish r, t') ∧ t'.stream.board.claimed = false) ∨
      FilterProxy.claims (t.execute c k).2.stream.board.log = [r]) :
    FilterProxy.claims (after id settings deeds).log = [r] := by
  obtain @⟨before, d, more, _, _, _, rfl, ht⟩ := ha
  rw [after_append]
  exact ((reached_after id settings before).next_deed d).claims_foldl more
    (ht.claims (lived_after ..) hx)

end

/-- **The completions of a life**: as many were recorded as claimed, and only for a response that
the client took. -/
structure Life.Honest (A : Surroundings σ ε → Nat → Turn σ ε → Prop) (l : Life σ) : Prop where
  completions : l.log.countP Event.isCompletion = (claims l.log).count .completed
  accepted : .completed ∈ claims l.log → ∃ c k t, A c k t ∧ t.Accepted c

/-- **Every life is honest** in which nobody asks for a completion. -/
theorem honest_before {id : StreamId} {settings : Settings} {deeds : List (Deed σ ε)}
    (hd : .terminate .completed ∉ deeds) (before more : List (Deed σ ε))
    (hsplit : deeds = before ++ more) :
      (after id settings before).Honest (Acts id settings deeds) := by
  induction before using List.reverseRecOn generalizing more with
  | nil => exact ⟨rfl, fun h => by cases h⟩
  | append_singleton before d ih =>
    have hsplit : deeds = before ++ d :: more := by rw [hsplit, List.append_assoc]; rfl
    have ih := ih (d :: more) hsplit
    have h := lived_after id settings before
    have hne : d ≠ .terminate .completed := fun he => hd (by simp [hsplit, he])
    rw [after_append]
    change ((after id settings before).next d).Honest _
    rcases h.reached.fallsShort_next hne with hshort | ⟨c, k, t, ht, ha⟩
    · refine ⟨?_, fun hmem => ih.accepted ?_⟩
      · rw [hshort.countP_isCompletion, hshort.count_claims, ih.completions]
      · rw [← List.count_pos_iff, hshort.count_claims] at hmem
        exact List.count_pos_iff.mp hmem
    · have hl := (ht.drives h.reached).1
      have hbefore : claims (after id settings before).log = [] := by
        obtain ⟨-, hopens, -, -⟩ := ht
        exact h.reached.orderly.books.unclaimed hopens.unclaimed
      have hafter := ht.claims h (.inl ((ha.execute hl k).imp fun _ hx => ⟨hx.1, hx.2.1⟩))
      have hcount := ht.completions h ha
      rw [ih.completions, hbefore] at hcount
      refine ⟨?_, fun _ => ⟨c, k, t, .intro hsplit ht, ha⟩⟩
      rw [hcount, hafter]
      rfl

/-- A failure told to a stream nobody has claimed is why it ends. -/
theorem claims_after_failed {id : StreamId} {settings : Settings} {before : List (Deed σ ε)}
    (failure : Failure) (more : List (Deed σ ε))
    (hnone : claims (after id settings before).log = []) :
    claims (after id settings (before ++ .answer (.failed failure) :: more)).log
      = [.hostFailure] := by
  have h : Reached none (after id settings before) := reached_after id settings before
  have hfailed := Turn.claims_answer_failed h.orderly.books failure
  rw [show claims (after id settings before).stream.board.log = [] from hnone] at hfailed
  rw [after_append]
  exact (h.next_deed (.answer (.failed failure) : Deed σ ε)).claims_foldl more hfailed

open Event in
/-- **A stream ends as it went**, if nobody asks for a completion.  It is completed iff the client
took its response while nobody had claimed it, and then one completion is recorded, else none.  A
stream that calls a collaborator is claimed by nobody, so a failure ends it under the failure's own
ending, which is never a completion; a failure told later does so as well if it comes first.
Whoever claims the stream while the client takes the response stands. -/
theorem ends_as_it_went (id : StreamId) (settings : Settings) {deeds : List (Deed σ ε)}
    (hd : .terminate .completed ∉ deeds) :
    let l := after id settings deeds
    let A := Acts id settings deeds
    (claims l.log = [.completed] ↔ ∃ c k t, A c k t ∧ t.Accepted c) ∧
      ((∃ c k t, A c k t ∧ t.Accepted c) → l.log.countP isCompletion = 1) ∧
      ((∀ c k t, A c k t → ¬ t.Accepted c) → l.log.countP isCompletion = 0) ∧
      (∀ c k t r, A c k t → t.Fails c r → r ≠ .completed ∧ claims l.log = [r]) ∧
      (∀ before failure more, deeds = before ++ .answer (.failed failure) :: more →
        claims (after id settings before).log = [] → claims l.log = [.hostFailure]) ∧
      ∀ c k t, A c k t → claims t.stream.board.log = [] ∧
        (t.stream.phase = .respond →
          ∀ s : Stream σ, Moves t.stream.board s.board → s.FirstStands .completed) := by
  intro l A
  have hhonest : l.Honest A := honest_before hd deeds [] (List.append_nil _).symm
  have hcompleted : (∃ c k t, A c k t ∧ t.Accepted c) → claims l.log = [.completed] := by
    rintro ⟨c, k, t, ha, htaken⟩
    exact ha.claims (.inl ((htaken.execute ha.live k).imp fun _ hx => ⟨hx.1, hx.2.1⟩))
  refine ⟨⟨fun hclaims => hhonest.accepted ?_, hcompleted⟩, fun htaken => ?_, fun hnone => ?_,
    fun c k t r ha hfails => ?_, ?_, fun c k t ha => ?_⟩
  · rw [hclaims]
    exact List.mem_singleton_self _
  · rw [hhonest.completions, hcompleted htaken]
    rfl
  · rw [hhonest.completions, List.count_eq_zero]
    intro hmem
    obtain ⟨c, k, t, ha, htaken⟩ := hhonest.accepted hmem
    exact hnone c k t ha htaken
  · exact ⟨hfails.ne_completed, ha.claims (hfails.execute ha.live ha.books k)⟩
  · rintro before failure more hsplit hnone
    change claims (after id settings deeds).log = _
    rw [hsplit]
    exact claims_after_failed failure more hnone
  · refine ⟨ha.books.unclaimed ha.live.unclaimed, fun _ s hm => ?_⟩
    exact firstStands (hm.books ha.books) .completed

/-! ## A stream that is served -/

/-- There is always a route and a host, which answers before the forwarding is over. -/
def obliging : Surroundings Unit Unit :=
  { Surroundings.secluded passing with
    routing := ⟨some fun _ => .ok (some default)⟩
    choose := fun _ _ _ => (.ok (.ok default), ())
    forward := fun _ _ _ _ => ({ handover := .responded {} }, ()) }

/-- A request is handed over, and the pool runs what comes of it. -/
def served : List (Deed Unit Unit) :=
  [.receive {}, .run ⟨.receive {}, false⟩ obliging (), .run ⟨.response {}, false⟩ obliging ()]

/-- The client took the response of the stream, which told so once. -/
theorem ends_as_it_went_served :
    (∃ c k t, Acts ⟨1⟩ {} served c k t ∧ t.Accepted c) ∧
      (after ⟨1⟩ {} served).log.countP Event.isCompletion = 1 := by
  have hd : .terminate .completed ∉ served := by simp [served]
  obtain ⟨hiff, hone, -⟩ := ends_as_it_went ⟨1⟩ {} hd
  have hclaims : claims (after ⟨1⟩ {} served).log = [.completed] := by decide +kernel
  exact ⟨hiff.mp hclaims, hone (hiff.mp hclaims)⟩

end FilterProxy

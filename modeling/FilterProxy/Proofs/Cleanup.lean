import FilterProxy.Proofs.Listing

/-!
# Proofs/Cleanup — cleanup happens once, and who claims first decides

Many things may end a stream, in any order and more than once.  Each of them claims its cleanup, and
**only the first claim is granted** (`Board.claim_spec`); it fixes what is recorded and which last
status may be published.  After the release, filters are called by direct runs alone.
-/

namespace FilterProxy

variable {σ ε : Type}

/-! ## Claims -/

/-- **A claim is granted iff none was before**, and the first stands. -/
theorem Board.Books.claim_spec {b : Board σ} (h : b.Books) (ending : Ending) :
    (b.claim ending).1 = (claims b.log).isEmpty ∧
      claims (b.claim ending).2.log = [(claims b.log).head?.getD ending] := by
  cases hc : b.claimed with
  | true =>
    obtain ⟨e, he⟩ := h.claimed hc
    simp [claim_of_claimed hc, he]
  | false =>
    have hnone := h.unclaimed hc
    rw [claim_of_unclaimed hc]
    exact ⟨by rw [hnone]; rfl, by rw [claims_claimEvents, hnone]; rfl⟩

/-- A termination claims as well. -/
theorem Board.Books.terminate_spec {b : Board σ} (h : b.Books) (ending : Ending) :
    (b.terminate ending).1 = (claims b.log).isEmpty ∧
      claims (b.terminate ending).2.log = [(claims b.log).head?.getD ending] := by
  obtain ⟨hgranted, hclaims⟩ := h.claim_spec ending
  cases hc : b.claimed with
  | true =>
    rw [claim_of_claimed hc] at hgranted hclaims
    rw [terminate_of_claimed hc]
    exact ⟨hgranted, hclaims⟩
  | false =>
    rw [claim_of_unclaimed hc] at hgranted hclaims
    rw [terminate_of_unclaimed h.owned hc]
    exact ⟨hgranted, by rw [claims_cons]; exact hclaims⟩

/-- A claim found in the log stands. -/
theorem Board.Books.claims_of_suffix {b : Board σ} (hb : b.Books) {log : List (Event σ)}
    {r : Ending} (h : log <:+ b.log) (hr : claims log = [r]) : claims b.log = [r] := by
  have hsuffix : claims log <:+ claims b.log := h.filterMap _
  rw [hr] at hsuffix
  cases hc : b.claimed with
  | false =>
    rw [hb.unclaimed hc] at hsuffix
    exact absurd (List.suffix_nil.mp hsuffix) nofun
  | true =>
    obtain ⟨r', hr'⟩ := hb.claimed hc
    rw [hr'] at hsuffix ⊢
    exact (hsuffix.eq_of_length rfl).symm

namespace Stream

open Board FilterSet

/-- A release claims nothing. -/
theorem claims_release {s : Stream σ} (h : s.board.Books) (hc : s.board.claimed = true)
    (β : Behaviour σ) (ending : Ending) :
    FilterProxy.claims (s.release β ending).2.board.log = FilterProxy.claims s.board.log := by
  obtain ⟨count, hp⟩ := parting_destroy β s.filters s.board h.owned
  have hclaims := (hp.moves.frozen hc).claims
  rw [release_eq]
  cases (destroy β s.filters s.board).1 with
  | some p => exact hclaims
  | none => exact hclaims

/-- **Whoever claims, the first claimer stands**: by the claim alone, or leaving the release to a
job, or with the release at once. -/
structure FirstStands (s : Stream σ) (ending : Ending) : Prop where
  granted : (s.board.claim ending).1 = (claims s.board.log).isEmpty
  claim : claims (s.board.claim ending).2.log = [(claims s.board.log).head?.getD ending]
  terminate : (s.terminate ending).1 = (claims s.board.log).isEmpty ∧
    claims (s.terminate ending).2.board.log = [(claims s.board.log).head?.getD ending]
  finish : ∀ β : Behaviour σ, claims (s.finish β ending).2.board.log
    = [(claims s.board.log).head?.getD ending]

theorem firstStands {s : Stream σ} (h : s.board.Books) (ending : Ending) :
    s.FirstStands ending := by
  obtain ⟨hgranted, hclaims⟩ := h.claim_spec ending
  refine ⟨hgranted, hclaims, h.terminate_spec ending, fun β => ?_⟩
  cases hc : s.board.claimed with
  | true =>
    rw [claim_of_claimed hc] at hclaims
    rw [finish_of_claimed β hc]
    exact hclaims
  | false =>
    rw [finish_of_unclaimed β hc, claims_release (h.claim ending) (by simp [claim_of_unclaimed hc])]
    exact hclaims

end Stream

/-- Nothing follows the last status. -/
theorem head?_statuses {log : List (Event σ)} {r : Ending}
    (hfinal : Throughout
      (fun e older => e.status?.isSome → ∀ r, .finished r ∉ statuses older) log)
    (hr : .finished r ∈ statuses log) : (statuses log).head? = some (.finished r) := by
  induction log with
  | nil => cases hr
  | cons e older ih =>
    obtain ⟨he, holder⟩ := Throughout.cons_iff.mp hfinal
    rw [statuses_cons] at hr ⊢
    cases hs : e.status? with
    | none =>
      rw [hs] at hr
      exact ih holder hr
    | some s =>
      rw [hs] at hr he
      rcases List.mem_cons.mp hr with rfl | hr
      · rfl
      · exact absurd hr (he rfl r)

/-- **What holds of cleanup at any moment of a life.** -/
structure Life.Cleanup (l : Life σ) : Prop where
  claims : (l.stream.claimed = false ∧ claims l.log = []) ∨
    (l.stream.claimed = true ∧ ∃ e, claims l.log = [e])
  cleanings : cleanings l.log = (FilterProxy.claims l.log).length
  terminations : terminations l.log = (FilterProxy.claims l.log).filter Ending.isAbort
  farewells : ∀ side i, (farewells side l.log).count i ≤ 1
  /-- Once a last status was published, it is the claim's, and it is the status. -/
  finished : ∀ r, .finished r ∈ statuses l.log ∨ l.stream.board.status = .finished r →
    FilterProxy.claims l.log = [r] ∧ l.stream.board.status = .finished r
  /-- A released stream was claimed, and no other release is due. -/
  released : l.stream.phase = .done →
    l.stream.claimed = true ∧ ∀ p r, p.job = .release r → ¬ l.Due p

theorem Orderly.cleanup {l : Life σ} (h : Orderly l) : l.Cleanup where
  claims := by
    cases hc : l.stream.board.claimed with
    | false => exact .inl ⟨hc, h.books.unclaimed hc⟩
    | true => exact .inr ⟨hc, h.books.claimed hc⟩
  cleanings := h.books.cleanings
  terminations := h.books.terminations
  farewells := h.once
  finished r hr := by
    have hmem : .finished r ∈ statuses l.log := by
      rcases hr with hr | hr
      · exact hr
      · exact Decidable.by_contra fun hn => h.books.status_ne hn hr
    refine ⟨h.books.finished r hmem, ?_⟩
    rw [h.books.status, head?_statuses h.books.final hmem]
    rfl
  released := h.released

/-! ## Triggers -/

/-- The deed is one of those that end a stream from outside of its phases, with that ending. -/
inductive Life.Triggers (l : Life σ) : Deed σ ε → Ending → Prop
  | terminate (ending) : Triggers l (.terminate ending) ending
  | handle (side filter index) :
      Triggers l (.act side filter index (.act .terminate (.done ()))) .filterTerminated
  | failed (failure) : Triggers l (.answer (.failed failure)) .hostFailure
  /-- The time limit of the pause the stream is in. -/
  | timeout {index byReply c env} (hp : l.stream.pausedBy = some index)
      (hdue : l.Due ⟨.timeout l.stream.generation, byReply⟩) :
      Triggers l (.run ⟨.timeout l.stream.generation, byReply⟩ c env) .stopTimeout

namespace Reached

open Board FilterSet FilterProxy.Stream Life

variable {l : Life σ}

/-- **Every trigger claims**, and the first claimer stands. -/
theorem claims_trigger (h : Reached none l) {d : Deed σ ε} {ending : Ending}
    (hd : l.Triggers d ending) : claims (l.next d).log = [(claims l.log).head?.getD ending] := by
  have hb := h.orderly.books
  cases hd with
  | terminate => exact (hb.terminate_spec ending).2
  | handle side filter index =>
    have heq : (Program.run filter index (.act .terminate (.done ()) : Program side Unit)
        l.stream.board).2 = (l.stream.board.terminate .filterTerminated).2 := by
      simp [Program.run, perform, hb.owned]
    rw [Life.next, heq]
    exact (hb.terminate_spec _).2
  | failed failure => exact (hb.terminate_spec _).2
  | @timeout index byReply c env hp hdue =>
    have heq : Turn.exec c (.timeout l.stream.generation) ⟨l.stream, env⟩
        = Turn.alone ⟨l.stream, env⟩ (·.finish c.behaviour .stopTimeout) :=
      if_neg (by simp [hp])
    rw [Life.next, if_pos hdue, heq]
    have hclaims := (firstStands hb .stopTimeout).finish c.behaviour
    dsimp only [Turn.alone]
    cases (l.stream.finish c.behaviour .stopTimeout).1 with
    | none => exact hclaims
    | some p => exact hclaims

/-- **A time limit of a pause that is over** changes nothing. -/
theorem stale_timeout {generation : Nat}
    (hs : l.stream.pausedBy = none ∨ l.stream.generation ≠ generation) (byReply : Bool)
    (c : Surroundings σ ε) (env : ε) :
    (l.next (.run ⟨.timeout generation, byReply⟩ c env)).stream = l.stream := by
  have heq : Turn.exec c (.timeout generation) ⟨l.stream, env⟩ = (none, ⟨l.stream, env⟩) :=
    if_pos (by simpa using hs)
  rw [Life.next]
  split
  · rw [heq]; rfl
  · rfl

end Reached

/-! ## Calls -/

/-- **No filter is called late**: before a call, no filter was told that the stream is gone and no
last status was published. -/
def Event.Timely (e : Event σ) (older : List (Event σ)) : Prop :=
  ∀ side, (e.call? side).isSome →
    (∀ side, farewells side older = []) ∧ ∀ r, .finished r ∉ statuses older

theorem Event.timely_of_no_call {e : Event σ} (he : ∀ side, e.call? side = none)
    (older : List (Event σ)) : e.Timely older := by
  intro side hs
  rw [he side] at hs
  cases hs

/-- A log that says no farewell is timely. -/
theorem timely_of_untold {log : List (Event σ)} (hf : ∀ side, farewells side log = [])
    (hs : ∀ r, .finished r ∉ statuses log) : Throughout Event.Timely log := by
  rintro newer e older rfl side -
  have hsuffix : older <:+ newer ++ e :: older :=
    (List.suffix_cons e older).trans (List.suffix_append newer _)
  refine ⟨fun side => ?_, fun r hr => hs r ((hsuffix.filterMap _).subset hr)⟩
  have hside : farewells side older <:+ farewells side (newer ++ e :: older) := hsuffix.filterMap _
  rw [hf side] at hside
  exact List.suffix_nil.mp hside

theorem Throughout.append_timely {new log : List (Event σ)} (h : Throughout Event.Timely log)
    (hnew : ∀ e ∈ new, ∀ side, e.call? side = none) :
    Throughout Event.Timely (new ++ log) := by
  refine h.append fun newer e added hsplit => Event.timely_of_no_call (hnew e ?_) _
  rw [hsplit]
  exact List.mem_append_right _ List.mem_cons_self

namespace Reached

open Board FilterSet FilterProxy.Stream Life

variable {l : Life σ}

/-- A drive says no farewell, and what ends the stream after it makes no call. -/
theorem Settled.timely {β : Behaviour σ} {panic : Option Panic} {s : Stream σ}
    (h : Settled β l panic s) : Throughout Event.Timely s.board.log := by
  obtain ⟨s₀, hs₀, hd₀, -, hend⟩ := h
  obtain ⟨hf, hstatus⟩ := hs₀.orderly.untold hd₀
  rcases hend with rfl | ⟨ending, hfinish⟩
  · exact timely_of_untold hf hstatus
  · obtain ⟨new, hlog, hnew⟩ := finish_log β ending s₀ hs₀.orderly.books.owned
    rw [show s = _ from congrArg Prod.snd hfinish, hlog]
    exact (timely_of_untold hf hstatus).append_timely fun e he side =>
      Event.call?_of_isEnding side (hnew e he)

/-- **No deed but a direct run calls a filter late.** -/
theorem timely_next (h : Reached none l) {d : Deed σ ε} (hd : d.isDirect = false) :
    ∀ newer e older, (l.next d).log = newer ++ e :: older → l.log <:+ older → e.Timely older := by
  have quiet {log : List (Event σ)} (new : List (Event σ)) (hlog : log = new ++ l.log)
      (hnew : ∀ e ∈ new, ∀ side, e.call? side = none) :
      ∀ newer e older, log = newer ++ e :: older → l.log <:+ older → e.Timely older := by
    rintro newer e older hsplit ⟨added, rfl⟩
    rw [hlog, ← List.cons_append, ← List.append_assoc] at hsplit
    refine Event.timely_of_no_call (hnew e ?_) _
    rw [List.append_cancel_right hsplit]
    exact List.mem_append_right _ List.mem_cons_self
  have hyields := h.yields_next d
  generalize l.next d = l' at hyields
  cases hyields with
  | add new f hs hm hlog hnew =>
    exact quiet new hlog fun e he side => Event.call?_of_isOutside side (hnew e he)
  | board new _ hm hlog hnew =>
    exact quiet new hlog fun e he side => Event.call?_of_isOutside side (hnew e he)
  | direct => cases hd
  | abort => cases hd
  | idle => exact quiet [] rfl (by simp)
  | @settled p c env panic s hp hj _ hs =>
    obtain ⟨escaped, hescaped, houtside⟩ := survive_log panic s
    intro newer e older hsplit _
    exact (hs.timely.append_timely fun e he side => Event.call?_of_isOutside side (houtside e he))
      newer e older (hescaped.symm.trans hsplit)
  | @release p c env ending hp hj =>
    obtain ⟨escaped, hescaped, houtside⟩ := survive_log (l.stream.release c.behaviour ending).1
      (l.stream.release c.behaviour ending).2
    obtain ⟨new, hlog, hnew⟩ := release_log c.behaviour ending l.stream h.orderly.books.owned
    refine quiet (escaped ++ new) ?_ fun e he side => ?_
    · rw [List.append_assoc, Life.log, Life.log, ← hlog]
      exact hescaped
    · rcases List.mem_append.mp he with he | he
      · exact Event.call?_of_isOutside side (houtside e he)
      · exact Event.call?_of_isEnding side (hnew e he)

/-- **Nothing later changes a claim.** -/
theorem claims_foldl (h : Reached none l) (more : List (Deed σ ε)) {e : Ending}
    (he : claims l.log = [e]) : claims (more.foldl Life.next l).log = [e] :=
  (h.foldl more).orderly.books.claims_of_suffix (h.suffix_foldl more) he

/-- **Nothing later changes a last status.** -/
theorem status_foldl (h : Reached none l) (more : List (Deed σ ε)) {r : Ending}
    (hr : l.stream.board.status = .finished r) :
    (more.foldl Life.next l).stream.board.status = .finished r := by
  have hmem : .finished r ∈ statuses l.log :=
    Decidable.by_contra fun hn => h.orderly.books.status_ne hn hr
  have hsuffix : statuses l.log <:+ statuses (more.foldl Life.next l).log :=
    (h.suffix_foldl more).filterMap _
  exact ((h.foldl more).orderly.cleanup.finished r (.inl (hsuffix.subset hmem))).2

end Reached

end FilterProxy

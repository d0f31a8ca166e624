import FilterProxy.Proofs.Conclusion
import FilterProxy.Proofs.Jumps
import FilterProxy.Proofs.Pause

/-!
# Proofs/Precedence — a reply that waits when a pass ends

Request filters may raise a direct reply and give whatever verdict they like.  When their pass
completes or is stopped, the waiting reply becomes the response at once, and nothing leads up to the
response filters any more (`Life.Precedes`).  When the pass ends in a wish for another phase, nobody
looks at the reply.  So **a reply precedes all else iff its pass does not end in a wish**
(`precedes_iff`).
-/

namespace FilterProxy

variable {σ ε : Type}

open Board FilterSet FilterProxy.Stream Life

/-- **A pass over request filters ends in the course of the deed**, with that outcome and that
board. -/
inductive Life.EndsPass (l : Life σ) : Deed σ ε → Outcome → Board σ → Prop
  | intro {p c env k s outcome} {point : RequestPoint} (hx : l.Executes (.run p c env) k s)
      (hp : s.phase = point.phase) (hr : (s.pass c.behaviour point k).result = .ok outcome) :
      EndsPass l (.run p c env) outcome (s.pass c.behaviour point k).bench.board

/-- **The reply precedes all else** once the pass ended with board `b`: the response filters come
next, with the reply for the response, and nothing that leads up to them is called ever after. -/
structure Life.Precedes (l : Life σ) (d : Deed σ ε) (b : Board σ) (m : Message) : Prop where
  next : ∃ s, l.Executes d 0 s ∧ s.phase = .filterResponse ∧ s.board.log = b.log ∧ s.response = m
  after : ∀ more : List (Deed σ ε), ∃ newer,
    (more.foldl Life.next (l.next d)).log = newer ++ b.log ∧ ∀ e ∈ newer, e.isUpward = false

namespace Life

variable {settings : Settings} {Answers : Handover → Prop} {l : Life σ} {d : Deed σ ε}
  {outcome : Outcome} {b : Board σ} {m : Message}

/-- A phase executed in the course of the deed is found in the log, right upon what it found. -/
theorem Executes.entered (h : Reached none l) {k : Nat} {s : Stream σ} (hx : l.Executes d k s) :
    .entered s.phase :: s.board.log <:+ (l.next d).log :=
  ((h.entered_iff d s.phase s.board.log).mpr ⟨k, s, hx, rfl, rfl⟩).1

/-- **Once the response filters are reached**, nothing leads up to them. -/
theorem Executes.not_upward (h : Reached none l) {k : Nat} {s : Stream σ} (hx : l.Executes d k s)
    (hp : s.phase = .filterResponse) (more : List (Deed σ ε)) : ∃ newer,
      (more.foldl Life.next (l.next d)).log = newer ++ s.board.log ∧
        ∀ e ∈ newer, e.isUpward = false := by
  have hnext := h.next_deed d
  obtain ⟨newer, hlog⟩ := (hx.entered h).trans (hnext.suffix_foldl more)
  have hlawful := (hnext.foldl more).onCourse.lawful
  refine ⟨newer ++ [.entered s.phase], by rw [← hlog, List.append_assoc]; rfl, fun e he => ?_⟩
  rcases List.mem_append.mp he with he | he
  · obtain ⟨pre, post, rfl⟩ := List.append_of_mem he
    have hsplit : (more.foldl Life.next (l.next d)).log
        = pre ++ e :: (post ++ .entered s.phase :: s.board.log) := by rw [← hlog]; simp
    refine Bool.eq_false_iff.mpr fun hupward => ?_
    refine Event.Lawful.not_beyond hlawful pre e _ hsplit hupward (.inr ?_)
    rw [entries, List.filterMap_append, List.mem_append]
    exact .inr (List.mem_filterMap.mpr ⟨_, List.mem_cons_self, congrArg some hp⟩)
  · rw [List.mem_singleton.mp he]
    rfl

/-- **A pass that ends in a wish** makes the stream jump with the reply still waiting, or ends
it. -/
structure Overlooks (l : Life σ) (d : Deed σ ε) (q : Phase) (b : Board σ) (m : Message) : Prop where
  later : (∃ s, l.Executes d 0 s ∧ s.phase = q ∧ s.board.log = .jumped q :: b.log ∧
      s.board.reply = some m) ∨ l.Ended (l.next d) .tooManyJumps
  /-- Something else than the response filters comes next. -/
  next : ∃ e, e :: b.log <:+ (l.next d).log ∧ e.enters? = none

/-- A stream that executes a phase was not claimed before the deed. -/
theorem Executes.unclaimed {k : Nat} {s : Stream σ} (hx : l.Executes d k s) :
    l.stream.board.claimed = false := by
  obtain ⟨-, ho, -, -⟩ := hx
  exact ho.unclaimed

/-- With no jump left for the wish the stream ends. -/
theorem Overlooks.of_finish {l' : Life σ} {q : Phase} (hl : claims l.log = []) (h : Reached none l')
    (hc : l'.stream.board.claimed = false) (β : Behaviour σ)
    (hnext : (l.next d).stream = survive (l'.stream.finish β .tooManyJumps).1
      (l'.stream.finish β .tooManyJumps).2) : l.Overlooks d q l'.stream.board m := by
  obtain ⟨⟨more, hlog, -⟩, -⟩ := finish_first β .tooManyJumps hc h.orderly.books.owned
  have hended := (Ended.of_finish hl h hc β .tooManyJumps hnext).1
  refine ⟨.inr hended, .claimed .tooManyJumps, ⟨more, ?_⟩, rfl⟩
  rw [Life.log, hnext]
  exact (hlog.trans (List.append_assoc _ _ _)).symm

/-- **What comes next where a pass ends with a reply waiting.** -/
theorem EndsPass.cases (h : Lived settings Answers none l) (hpass : l.EndsPass d outcome b)
    (hc : b.claimed = false) (hr : b.reply = some m) (hout : ∀ cause, outcome ≠ .aborted cause) :
    ((∀ q, outcome ≠ .resumeAt q) ∧ l.Precedes d b m) ∨
      ∃ q, outcome = .resumeAt q ∧ l.Overlooks d q b m := by
  obtain @⟨p, c, env, k, s, _, point, hx, hp, hresult⟩ := hpass
  obtain ⟨env', r, hlive, hs, hdrives, hnext, hstride⟩ := hx.ahead h
  obtain ⟨step, ⟨s', e⟩, ht⟩ : ∃ step t', Turn.execute c k ⟨s, env'⟩ = (step, t') := ⟨_, _, rfl⟩
  have hconcludes := (Turn.concludes_execute (t := ⟨s, env'⟩) hp hs.owned ht).1
  dsimp only at hconcludes
  rw [hresult] at hconcludes
  cases hconcludes with
  | next hn => exact absurd (hn.symm.trans hr) nofun
  | pause hn => exact absurd (hn.symm.trans hr) nofun
  | rest hn => exact absurd (hn.symm.trans hr) nofun
  | abort cause => exact absurd rfl (hout cause)
  | @reply _ m' ho hm =>
    obtain rfl : m' = m := Option.some.inj (hm.symm.trans hr)
    have hx' := hstride _ (.goto hlive ht) ⟨hc, nofun⟩
    refine .inl ⟨fun q hq => ?_, ⟨⟨_, hx', rfl, rfl, rfl⟩, hx'.not_upward h.reached rfl⟩⟩
    rcases ho with rfl | ⟨n, rfl⟩ <;> cases hq
  | @jump q =>
    refine .inr ⟨q, rfl, ?_⟩
    obtain ⟨new, is, hexec⟩ := Turn.executed_execute hlive hs.owned ht
    cases hj : (s.passed c.behaviour point k).jumpsLeft with
    | zero =>
      rw [hdrives.eq_of_stops (.overrun hlive ht hj)] at hnext
      have hl := h.reached.orderly.books.unclaimed hx.unclaimed
      exact .of_finish hl (hs.reached.stay hlive hexec rfl) hc c.behaviour hnext
    | succ rest =>
      have hq : q ≠ .done := by
        cases hexec with
        | jump hw ha hp hq => rcases hq with rfl | rfl <;> nofun
      have hx' := hstride _ (.jump hlive ht hj) ⟨hc, hq⟩
      refine ⟨.inl ⟨_, hx', rfl, rfl, hr⟩, .jumped q, ?_, rfl⟩
      exact (List.suffix_cons _ _).trans (hx'.entered h.reached)

/-- One event is found upon a log. -/
theorem eq_of_cons_suffix {e f : Event σ} {log older : List (Event σ)} (he : e :: older <:+ log)
    (hf : f :: older <:+ log) : e = f :=
  (List.cons.inj (List.suffix_of_suffix_length_le he hf (Nat.le_refl _) |>.eq_of_length rfl)).1

theorem Overlooks.not_precedes (h : Reached none l) {q : Phase} (ho : l.Overlooks d q b m) :
    ¬ l.Precedes d b m := by
  rintro ⟨⟨s, hx, hp, hlog, -⟩, -⟩
  obtain ⟨e, he, henters⟩ := ho.next
  obtain rfl := eq_of_cons_suffix he (hlog ▸ hx.entered h)
  cases henters

end Life

/-- **A waiting reply precedes all else iff its pass does not end in a wish for another phase.**
Let any pass of a stream that nobody claimed complete, be stopped or end in a wish while a reply
waits.  Then the response filters come next with the reply for the response, and nothing that leads
up to them is called any more, unless it is a wish: the stream then jumps with the reply still
waiting, or ends for want of jumps. -/
theorem precedes_iff (id : StreamId) (settings : Settings) (deeds : List (Deed σ ε)) {d : Deed σ ε}
    {outcome : Outcome} {b : Board σ} {m : Message}
    (hpass : (after id settings deeds).EndsPass d outcome b) (hc : b.claimed = false)
    (hr : b.reply = some m) (hout : ∀ cause, outcome ≠ .aborted cause) :
    let l := after id settings deeds
    (l.Precedes d b m ↔ ∀ q, outcome ≠ .resumeAt q) ∧
      ∀ q, outcome = .resumeAt q → l.Overlooks d q b m := by
  intro l
  have h := lived_after id settings deeds
  rcases hpass.cases h hc hr hout with ⟨hq, hprecedes⟩ | ⟨q, rfl, hoverlooks⟩
  · exact ⟨iff_of_true hprecedes hq, fun q hq' => absurd hq' (hq q)⟩
  · refine ⟨iff_of_false (hoverlooks.not_precedes h.reached) fun hq => hq q rfl, fun q' hq' => ?_⟩
    obtain rfl : q = q' := by injection hq'
    exact hoverlooks

/-! ## A reply that is lost -/

/-- A request filter raises a direct reply and gives this verdict. -/
def repliedWith (v : Verdict) : List (Deed Verdict Unit) :=
  [.add replying (.request v .beforeRoute), .receive {}]

/-- The pool takes the request in, and there is no route. -/
def runRequest : Deed Verdict Unit := .run ⟨.receive {}, false⟩ (.secluded replying) ()

theorem precedes_iff_repliedWith_proceed :
    ∃ b, (after ⟨1⟩ {} (repliedWith .proceed)).EndsPass runRequest .completed b ∧
      b.claimed = false ∧ b.reply = some (replyMessage 403 {}) ∧
      (∀ cause, Outcome.completed ≠ .aborted cause) ∧
      (((after ⟨1⟩ {} (repliedWith .proceed)).Precedes runRequest b (replyMessage 403 {}) ↔
          ∀ q, Outcome.completed ≠ .resumeAt q) ∧
        ∀ q, Outcome.completed = .resumeAt q →
          (after ⟨1⟩ {} (repliedWith .proceed)).Overlooks runRequest q b
            (replyMessage 403 {})) := by
  have hx : (after ⟨1⟩ {} (repliedWith .proceed)).EndsPass runRequest .completed _ :=
    .intro
      (.intro (by decide +kernel) (.receive rfl rfl) (.single (.next ⟨rfl, nofun⟩ rfl))
        ⟨rfl, nofun⟩)
      (rfl : _ = RequestPoint.beforeRoute.phase) rfl
  exact ⟨_, hx, rfl, rfl, nofun, precedes_iff ⟨1⟩ {} _ hx rfl rfl nofun⟩

/-- **A reply goes lost to a route that is missing**: its filter asks for another route, and the
stream ends without one and without writing anything. -/
theorem reply_lost :
    let l := (after ⟨1⟩ {} (repliedWith .rematch)).next runRequest
    (∃ b, (after ⟨1⟩ {} (repliedWith .rematch)).EndsPass runRequest (.resumeAt .matchRoute) b ∧
      b.claimed = false ∧ b.reply = some (replyMessage 403 {}) ∧
      ¬ (after ⟨1⟩ {} (repliedWith .rematch)).Precedes runRequest b (replyMessage 403 {})) ∧
      l.stream.board.status = .finished .noRoute ∧ l.stream.board.reply = none ∧
      l.log.countP Event.isWriting = 0 := by
  have hx : (after ⟨1⟩ {} (repliedWith .rematch)).EndsPass runRequest (.resumeAt .matchRoute) _ :=
    .intro
      (.intro (by decide +kernel) (.receive rfl rfl) (.single (.next ⟨rfl, nofun⟩ rfl))
        ⟨rfl, nofun⟩)
      (rfl : _ = RequestPoint.beforeRoute.phase) rfl
  have h := lived_after ⟨1⟩ {} (repliedWith .rematch)
  refine ⟨⟨_, hx, rfl, rfl, ?_⟩, by decide +kernel, by decide +kernel, by decide +kernel⟩
  rcases hx.cases h rfl rfl nofun with ⟨hq, -⟩ | ⟨q, -, hoverlooks⟩
  · exact absurd rfl (hq _)
  · exact hoverlooks.not_precedes h.reached

end FilterProxy

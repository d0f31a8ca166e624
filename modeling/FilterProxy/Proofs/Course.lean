import FilterProxy.Proofs.Edges
import FilterProxy.Proofs.Sparing

/-!
# Proofs/Course — every life keeps to the edges

A life about to execute its phase may enter it, and a life at rest that nobody claimed stands where
its last phase left it (`Stream.Standing`).  So **every log is lawful** (`Reached.lawful`).
-/

namespace FilterProxy

variable {σ ε : Type}

namespace Stream

open Event

variable {start : Nat} {s s' : Stream σ} {step : Step} {new : List (Event σ)} {is : List Nat}

theorem Executed.entries (h : Executed start s.entered step s' new is) :
    FilterProxy.entries s'.board.log = s.phase :: FilterProxy.entries s.board.log := by
  rw [h.worked.log, entries_append fun e he => enters?_of_within (h.worked.within e he)]
  rfl

theorem Executed.lately (h : Executed start s.entered step s' new is) :
    FilterProxy.lately s'.board.log = new := by
  rw [h.worked.log, lately_append fun e he => enters?_of_within (h.worked.within e he)]
  exact List.append_nil new

/-- Executing a phase that may be entered is lawful. -/
theorem Executed.lawful (h : Executed start s.entered step s' new is)
    (hlog : Throughout Lawful s.board.log) (hp : MayEnter s.board.log s.phase) :
    Throughout Lawful s'.board.log := by
  rw [h.worked.log]
  exact hlog.append_executed hp h.worked.within h.worked.once

/-- **Where a stream stands.**  About to execute its phase, it may enter it; at rest and unclaimed,
it is fresh, or it stands at the phase it executed last, in a pause recorded there if in any. -/
def Standing : Option Nat → Stream σ → Prop
  | some _, s => MayEnter s.board.log s.phase
  | none, s => s.board.claimed = false →
    s.phase = .init ∧ FilterProxy.entries s.board.log = [] ∨
    s.phase ≠ .init ∧ (FilterProxy.entries s.board.log).head? = some s.phase ∧
      ∀ i, s.pausedBy = some i → .published (.paused s.phase) ∈ FilterProxy.lately s.board.log

/-- A stream at rest that was started stands at the phase it executed last. -/
theorem Standing.started (h : s.Standing none) (hc : s.board.claimed = false)
    (hp : s.phase ≠ .init) :
    (FilterProxy.entries s.board.log).head? = some s.phase ∧
      ∀ i, s.pausedBy = some i → .published (.paused s.phase) ∈ FilterProxy.lately s.board.log := by
  rcases h hc with ⟨hinit, -⟩ | ⟨-, hstarted⟩
  · exact absurd hinit hp
  · exact hstarted

/-- A stream at rest stands as it did, whatever is logged but a phase. -/
theorem Standing.grow (h : s.Standing none)
    (hc : s'.board.claimed = false → s.board.claimed = false) (hp : s'.phase = s.phase)
    (hb : s'.pausedBy = s.pausedBy) (hlog : s'.board.log = new ++ s.board.log)
    (hnew : ∀ e ∈ new, e.enters? = none) : s'.Standing none := by
  intro hc'
  rw [hp, hb, hlog, entries_append hnew, lately_append hnew]
  rcases h (hc hc') with hfresh | ⟨hinit, hhead, hpaused⟩
  · exact .inl hfresh
  · exact .inr ⟨hinit, hhead, fun i hi => List.mem_append_right _ (hpaused i hi)⟩

/-- A stream that executed its last phase stands there. -/
theorem Executed.standing (h : Executed start s.entered step s' new is) (hlast : step.isLast)
    (hb : s.pausedBy = none) : s'.Standing none := by
  intro hc
  have hphase := h.phase
  rw [h.entries, h.lately, hphase]
  refine .inr ⟨?_, rfl, fun i hi => ?_⟩
  · cases h with
    | next => cases hlast
    | reply => cases hlast
    | @jump _ _ _ q point hw ha hp hq hr =>
      rw [show s.phase = point.phase from hp]
      cases point <;> decide
    | pause hw hp =>
      rintro hinit
      rw [entered_phase, hinit] at hp
      cases hp
    | rest hw ha hc' =>
      rcases hc' with hawait | hclaimed
      · rw [show s.phase = _ from hawait]
        decide
      · rw [hc] at hclaimed
        cases hclaimed
    | finish hw ha hp => exact hp
    | escape hw ha hp => exact hp
  · cases h with
    | pause hw hp hn hpaused hgeneration hr hc => exact hr
    | _ hw ha => rw [ha.pausedBy, entered_pausedBy, hb] at hi; cases hi

end Stream

/-- A life on its course. -/
structure Life.OnCourse (start : Option Nat) (l : Life σ) : Prop where
  lawful : Throughout Event.Lawful l.log
  standing : l.stream.Standing start

namespace Life.OnCourse

open Board Event FilterProxy.Stream

variable {l l' : Life σ} {start : Option Nat}

/-- What does not concern the phases keeps a life at rest on its course. -/
theorem keep (h : l.OnCourse none) (new : List (Event σ)) (hlog : l'.log = new ++ l.log)
    (hnew : ∀ e ∈ new, e.Tame) (hm : Moves l.stream.board l'.stream.board)
    (hp : l'.stream.phase = l.stream.phase) (hb : l'.stream.pausedBy = l.stream.pausedBy) :
    l'.OnCourse none where
  lawful := by
    rw [hlog]
    exact h.lawful.append_tame hnew
  standing := h.standing.grow hm.unclaimed hp hb hlog fun e he => (hnew e he).enters

/-- Whatever claims a life ends its course. -/
theorem claim (h : l.OnCourse start) (new : List (Event σ)) (hlog : l'.log = new ++ l.log)
    (hnew : ∀ e ∈ new, e.isEnding = true) (hc : l'.stream.board.claimed = true) :
    l'.OnCourse none where
  lawful := by
    rw [hlog]
    exact h.lawful.append_tame fun e he => tame_of_isEnding (hnew e he)
  standing hc' := by
    rw [hc'] at hc
    cases hc

/-- **A life enters a phase** that it may enter. -/
theorem enter {k : Nat} {log : List (Event σ)} (new : List (Event σ))
    (hlaw : Throughout Lawful log) (hlog : l.log = new ++ log) (hnew : ∀ e ∈ new, e.Tame)
    (hmay : MayEnter (new ++ log) l.stream.phase) : l.OnCourse (some k) where
  lawful := by
    rw [hlog]
    exact hlaw.append_tame hnew
  standing := by
    rw [Standing, ← Life.log, hlog]
    exact hmay

end Life.OnCourse

namespace Reached

open Board Event FilterSet FilterProxy.Stream Life

/-- **Every life is on its course.** -/
theorem onCourse {start : Option Nat} {l : Life σ} (h : Reached start l) : l.OnCourse start := by
  induction h with
  | fresh id settings =>
    exact ⟨Throughout.cons_iff.mpr ⟨Tame.lawful ⟨rfl, rfl⟩ _, .nil⟩, fun _ => .inl ⟨rfl, rfl⟩⟩
  | add h r ih => exact ih.keep [] rfl (by simp) .refl rfl rfl
  | outside new h hm hlog hnew ih =>
    exact ih.keep new hlog (fun e he => tame_of_isOutside (hnew e he)) hm rfl rfl
  | direct h hp m ih =>
    exact ih.keep _ hp.log (fun e he => tame_of_pass (hp.kinds e he)) hp.moves rfl rfl
  | @finish l h β ending ih =>
    have ho := h.orderly.books.owned
    obtain ⟨new, hlog, hnew⟩ := finish_log β ending l.stream ho
    exact ih.claim new hlog hnew (claimed_finish β ending ho)
  | take h hp hr ih => exact ih.keep [] rfl (by simp) .refl rfl rfl
  | @release l p ending h hp hj β ih =>
    have hcondemned := h.orderly.condemned_due hp hj
    obtain ⟨new, hlog, hnew⟩ := release_log β ending l.stream hcondemned.books.owned
    exact ih.claim new hlog hnew
      (claimed_release β ending hcondemned.books.owned hcondemned.claimed)
  | @receive l h hc hp m ih =>
    refine .enter [] ih.lawful rfl (by simp) ?_
    rcases ih.standing hc with ⟨-, hfresh⟩ | ⟨hinit, -⟩
    · change MayEnter l.log l.stream.phase
      rw [hp]
      exact .edge (.first hfresh)
    · exact absurd hp hinit
  | @resume l index h hc hp ih =>
    have hside := h.poised index hp
    have hinit : l.stream.phase ≠ .init := by
      intro hinit
      rw [hinit] at hside
      cases hside
    obtain ⟨hhead, hpaused⟩ := ih.standing.started hc hinit
    refine .enter [.published .running] ih.lawful rfl (by simpa using ⟨rfl, rfl⟩) ?_
    exact .again hhead hside (List.mem_cons_of_mem _ (hpaused index hp)) List.mem_cons_self
  | @reroute l index reply h hc hp hlt hr ih =>
    have hside := h.poised index hp
    obtain ⟨point, hpoint⟩ : ∃ point : RequestPoint, l.stream.phase = point.phase := by
      refine Phase.exists_point ?_
      revert hside hlt
      cases l.stream.phase <;> decide
    obtain ⟨hhead, -⟩ := ih.standing.started hc (by rw [hpoint]; cases point <;> decide)
    obtain ⟨code, headers, -, hmem⟩ := h.orderly.books.signed reply hr
    refine .enter [.published .running] ih.lawful rfl (by simpa using ⟨rfl, rfl⟩) ?_
    exact .edge (.reply (hhead.trans (congrArg some hpoint)) (List.mem_cons_of_mem _ hmem))
  | @response l h hc hp m ih =>
    obtain ⟨hhead, -⟩ := ih.standing.started hc (by rw [hp]; decide)
    rw [hp] at hhead
    refine .enter [.stat (.phaseCompleted .awaitResponse)] ih.lawful
      rfl (by simpa using ⟨rfl, rfl⟩) ?_
    exact .edge (.next (p := .awaitResponse) hhead List.mem_cons_self (by decide))
  | halt h hc ih => exact ih.claim [] rfl (by simp) hc
  | stay h hl hx hlast ih =>
    exact ⟨hx.lawful ih.lawful ih.standing, hx.standing hlast h.poised.2⟩
  | @next start l s new is h hl hx ih =>
    refine .enter [.stat (.phaseCompleted s.phase)] (hx.lawful ih.lawful ih.standing) rfl
      (by simpa using ⟨rfl, rfl⟩) (.edge (.next ?_ List.mem_cons_self ?_))
    · rw [entries_append (by simp [enters?]), hx.entries, hx.phase]
      rfl
    · cases hx with
      | next hw ha hp =>
        rw [hw.phase]
        exact Phase.next_ne_done hp
  | @goto start l q s new is h hl hx ih =>
    refine .enter [] (hx.lawful ih.lawful ih.standing) rfl (by simp) ?_
    have hhead := hx.entries
    cases hx with
    | reply hw ha hp hr =>
      obtain ⟨point, hpoint⟩ := Phase.exists_point hp
      have hbooks : l.stream.entered.board.Books :=
        h.orderly.books.move (.effect _ rfl hl.unclaimed)
      obtain ⟨code, headers, hmem⟩ := hr hbooks
      refine .edge (.reply (?_ : _ = some point.phase) hmem)
      rw [← hpoint]
      exact congrArg List.head? hhead
  | @jump start l q s new is rest h hl hx hj ih =>
    refine .enter [.jumped q] (hx.lawful ih.lawful ih.standing) rfl (by simpa using ⟨rfl, rfl⟩) ?_
    have hhead := hx.entries
    have hlately := hx.lately
    cases hx with
    | @jump _ _ _ _ point hw ha hp hq hr =>
      refine .edge (.jump (?_ : _ = some point.phase) hq ?_)
      · rw [← hp]
        exact congrArg List.head? hhead
      · rw [← hlately] at hr
        exact List.mem_cons_of_mem _ hr

end Reached

open Event Life in
/-- **Every stream goes from phase to phase along the edges**, executes a phase again only when its
pause is over, and ends only by its cleanup.  So it forwards its request at most once and writes a
response at most once, after it reached the response filters; no phase calls a filter of the first
point or a response filter twice; and once the request was forwarded or the response filters were
reached, no request filter is called and nothing is routed, chosen or forwarded. -/
theorem course (id : StreamId) (settings : Settings) (deeds : List (Deed σ ε)) :
    let l := after id settings deeds
    Throughout (fun e older => ∀ q, e = .entered q → MayEnter older q) l.log ∧
      .done ∉ entries l.log ∧ (l.stream.phase = .done → ∃ e, claims l.log = [e]) ∧
      l.log.countP isForwarding ≤ 1 ∧ l.log.countP isWriting ≤ 1 ∧
      Throughout (fun e older => e.isWriting = true → .filterResponse ∈ entries older) l.log ∧
      (∀ i f, l.stream.filters.requests[i]? = some ⟨f, .beforeRoute⟩ →
        (calls .request l.log).count i ≤ 1) ∧
      (∀ i, (calls .response l.log).count i ≤ l.direct i + 1) ∧
      Throughout (fun e older => e.isUpward = true → ¬ Beyond older) l.log := by
  intro l
  have h : Reached none l := reached_after id settings deeds
  have hlawful := h.onCourse.lawful
  have hsparing := h.sparing
  refine ⟨fun newer e older hsplit => (hlawful newer e older hsplit).edge, ?_, fun hd =>
    h.orderly.books.claimed (h.orderly.released hd).1, ?_, ?_, ?_, fun i f hi => ?_, fun i => ?_,
    Lawful.not_beyond hlawful⟩
  · intro hdone
    obtain ⟨e, he, hentry⟩ := List.mem_filterMap.mp hdone
    obtain ⟨newer, older, hsplit⟩ := List.append_of_mem he
    exact ((hlawful newer e older hsplit).edge .done (eq_entered hentry)).ne_done rfl
  · refine Throughout.countP_le_one fun newer e older hsplit hforward f hf => ?_
    obtain ⟨host, request, forwarding, rfl⟩ := exists_forwarded hforward
    have hbeyond := Lawful.not_beyond hlawful newer _ older hsplit rfl
    exact Bool.eq_false_iff.mpr fun hf' => hbeyond (.inl ⟨f, hf, hf'⟩)
  · exact Throughout.countP_le_one fun newer e older hsplit hw =>
      (Lawful.writing hlawful newer e older hsplit hw).2
  · exact fun newer e older hsplit hw => (Lawful.writing hlawful newer e older hsplit hw).1
  · refine hsparing.once .request i (.inl ⟨.beforeRoute, rfl, ?_⟩)
    rw [List.getElem?_map, hi]
    rfl
  · by_cases hlt : i < l.stream.filters.responses.length
    · exact hsparing.once .response i (.inr ⟨rfl, hlt⟩)
    · exact Nat.le_succ_of_le (Nat.le_of_eq (hsparing.beyond .response i (Nat.le_of_not_lt hlt)))

end FilterProxy

import FilterProxy.Proofs.Draft
import FilterProxy.Proofs.Resumption
import FilterProxy.Proofs.Routing
import FilterProxy.Proofs.Wish

/-!
# Proofs/Delivery — a response is written behind its filters

A pass over response filters counts as completed when each of them let the response through, **and
also when one of them wished to go back**, which ends the pass where it stands
(`passResponses_completed_iff`).  A response is written right behind the phase of its filters
(`Acts.behind_filters`).  So the round of that phase called every filter that was there as it began,
unless the filter it called last wished to go back.
-/

namespace FilterProxy

variable {σ ε φ ω : Type}

open Board FilterSet FilterProxy.Stream Life

/-! ## Passes that count as completed -/

namespace Chain

/-- The converted answer is a wish to go back. -/
def Visit.GoesBack (convert : Converter) (v : Visit φ ω) : Prop :=
  ∃ raw verdict, v.left.answer = .ok raw ∧ convert raw = .ok verdict ∧ verdict.target?.isSome

variable {convert : Converter} {positions : List Nat} {visits : List (Visit φ ω)}
  {result : Except Panic Outcome}

/-- **What a pass counts as completed for**, where wishes to go back are settled: all of its filters
let the message through, or the last one called wished to go back. -/
theorem Concludes.settled_iff (h : Concludes convert positions visits result) :
    result.map settle = .ok .completed ↔
      (visits.map (·.index) = positions ∧ ∀ u ∈ visits, u.Walked convert) ∨
        ∃ before v, visits = before ++ [v] ∧ (∀ u ∈ before, u.Walked convert) ∧
        v.GoesBack convert := by
  rcases h.walks_or_halts with ⟨hw, hall, rfl⟩ | ⟨before, v, rfl, hw, hhalts⟩
  · refine iff_of_true ?_ (.inl ⟨hall, hw⟩)
    cases lastWish visits <;> rfl
  constructor
  · intro hsettled
    refine .inr ⟨before, v, rfl, hw, ?_⟩
    rcases result with p | _ | n | q | cause
    case ok.resumeAt =>
      obtain ⟨raw, verdict, ha, hc, ht⟩ := back_of_halts hhalts
      exact ⟨raw, verdict, ha, hc, ht ▸ rfl⟩
    case ok.completed => exact absurd hhalts halts_ne_completed
    all_goals cases hsettled
  · rintro (⟨-, hall⟩ | ⟨before', v', heq, -, raw, verdict, ha, hc, ht⟩)
    · exact absurd (hall v (List.mem_append_right _ (List.mem_singleton_self v)))
        (Visit.not_walked_of_halts hhalts)
    · obtain rfl : v = v' := List.singleton_inj.mp (List.append_inj_right' heq rfl)
      rw [ha, halts, hc] at hhalts
      cases verdict with
      | rematch | rechoose =>
        obtain rfl := Option.some.inj hhalts
        rfl
      | _ => cases ht

end Chain

/-- **When a pass over response filters counts as completed.** -/
theorem FilterSet.passResponses_completed_iff (β : Behaviour σ) (point : ResponsePoint)
    (start : Nat) (convert : Converter) (s : FilterSet σ) (w : Workbench σ) :
    let visits := s.responses.visits point start convert (callResponse β) w
    (passResponses β point start convert s w).result = .ok .completed ↔
      (visits.map (·.index) = s.responses.positions point start ∧ ∀ u ∈ visits, u.Walked convert) ∨
        ∃ before v, visits = before ++ [v] ∧ (∀ u ∈ before, u.Walked convert) ∧
          v.GoesBack convert :=
  (Chain.meets_pass point start convert (callResponse β) s.responses w).concludes.settled_iff

/-! ## What a turn at the response filters called -/

namespace Turn

variable {c : Surroundings σ ε} {k : Nat} {t : Turn σ ε}

/-- The calls of a turn are found in the log it leaves. -/
theorem calls_execute (hl : t.stream.Live) (ho : t.stream.board.owned = true) (side : Side) :
    calls side (t.execute c k).2.stream.board.log = (t.called c side k).reverse
      ++ calls side t.stream.board.log := by
  obtain ⟨step, t', hexec⟩ : ∃ step t', t.execute c k = (step, t') := ⟨_, _, rfl⟩
  obtain ⟨new, is, hx⟩ := executed_execute hl ho hexec
  rw [called, hexec, hx.lately, hx.log, calls, List.filterMap_append, List.filterMap_append,
    List.filterMap_cons_none rfl, List.filterMap_nil, List.append_nil, List.reverse_reverse]
  rfl

/-- A turn at the response filters calls those its pass calls. -/
theorem called_response (hl : t.stream.Live) (ho : t.stream.board.owned = true)
    (hp : t.stream.phase = .filterResponse) :
    t.called c .response k = (t.stream.sendVisits c.behaviour k).map (·.index) := by
  have hmeets := Chain.meets_pass .beforeSend k .keep (callResponse c.behaviour)
    t.stream.filters.responses
    ⟨t.stream.entered.board.closeReply.2, t.stream.response.parts⟩
  have hpass := hmeets.threaded.observe (P := fun w => w.board.owned = true)
    (fun w => calls .response w.board.log)
    (fun i f w hw =>
      ((walked_callResponse c.behaviour i f w).moves (fun _ => Event.isQuiet_of_inPass)
        hw).owned.trans hw)
    (calls_callResponse c.behaviour) ho
  have hcalls : calls .response (t.execute c k).2.stream.board.log
      = ((t.stream.sendVisits c.behaviour k).map (·.index)).reverse
        ++ calls .response t.stream.board.log := by
    rw [execute_filterResponse c hp]
    exact (filterResponse_entered c.behaviour k t.stream).1.trans hpass
  rw [calls_execute hl ho] at hcalls
  exact List.reverse_injective (List.append_cancel_right hcalls)

variable (c k t) in
/-- The response filter called last wished to go back. -/
def EndsInWish : Prop :=
  ∃ before v, t.stream.sendVisits c.behaviour k = before ++ [v] ∧ (t.called c .response k).getLast?
    = some v.index ∧
    v.wish?.isSome

/-- A pass that keeps every verdict goes back on a wish of the last call only. -/
theorem endsInWish_of_wishes (hl : t.stream.Live) (ho : t.stream.board.owned = true)
    (hp : t.stream.phase = .filterResponse) (h : t.Wishes c .response k) : t.EndsInWish c k := by
  obtain ⟨-, q, hq⟩ := h
  have hconcludes := (Chain.meets_pass .beforeSend k .keep (callResponse c.behaviour)
    t.stream.filters.responses
    ⟨t.stream.entered.board.closeReply.2, t.stream.response.parts⟩).concludes
  rw [show (t.stream.filters.responses.pass .beforeSend k .keep (callResponse c.behaviour) _).result
    = .ok (.resumeAt q) from hq] at hconcludes
  rcases hconcludes.target with ⟨hwalked, hwish⟩ | ⟨before, v, raw, _, hvisits, ha, ⟨⟩, htarget⟩
  · -- a call that lets the pass walk on does not wish
    obtain ⟨v, hv, hvwish⟩ := List.mem_filterMap.mp (List.mem_of_getLast? hwish)
    obtain ⟨raw, ha, ⟨⟩⟩ := hwalked v hv
    rw [Chain.Visit.wish?_of_answer ha] at hvwish
    cases hvwish
  · have hvisits : t.stream.sendVisits c.behaviour k = before ++ [v] := hvisits
    refine ⟨before, v, hvisits, ?_, by rw [Chain.Visit.wish?_of_answer ha, htarget]; rfl⟩
    rw [called_response hl ho hp, hvisits, List.map_append]
    exact List.getLast?_concat

end Turn

/-! ## From the log to its turns -/

section

variable {id : StreamId} {settings : Settings} {deeds : List (Deed σ ε)} {c c' : Surroundings σ ε}
  {k k' : Nat} {t t' : Turn σ ε} {p : Phase} {older : List (Event σ)}

/-- **Every phase found in the log was executed in a turn.** -/
theorem Life.exists_acts (h : .entered p :: older <:+ (after id settings deeds).log) :
    ∃ c k t, Acts id settings deeds c k t ∧ t.stream.phase = p ∧ t.stream.board.log = older := by
  induction deeds using List.reverseRecOn with
  | nil =>
    have hmem : .entered p ∈ [Event.stat (σ := σ) .created] := h.subset List.mem_cons_self
    cases List.mem_singleton.mp hmem
  | append_singleton before d ih =>
    have hreached := reached_after id settings before
    rw [after_append] at h
    rcases suffix_or_of_cons_suffix h (hreached.suffix_next d) with hin | hsince
    · obtain ⟨c, k, t, ⟨hd, ht⟩, hp, hlog⟩ := ih hin
      exact ⟨c, k, t, .intro (by rw [hd, List.append_assoc]; rfl) ht, hp, hlog⟩
    · obtain ⟨k, _, hx, hp, hlog⟩ := (hreached.entered_iff d p older).mp ⟨h, hsince⟩
      obtain ⟨hdue, hopens, hstrides, hl⟩ := hx
      exact ⟨_, _, _, .intro rfl (.intro hdue hopens hstrides hl), hp, hlog⟩

/-- What was executed last is found in the log. -/
theorem exists_entered {log : List (Event σ)} (h : (entries log).head? = some p) :
    ∃ older, .entered p :: older <:+ log := by
  induction log with
  | nil => cases h
  | cons e log ih =>
    cases he : e.enters? with
    | none =>
      rw [entries_cons_of_none he] at h
      obtain ⟨older, hin⟩ := ih h
      exact ⟨older, hin.trans (List.suffix_cons e log)⟩
    | some q =>
      rw [entries_cons, he] at h
      obtain rfl := Option.some.inj h
      exact ⟨log, Event.eq_entered he ▸ List.suffix_refl _⟩

/-- The turn is found in the log of its life. -/
theorem Life.Acts.entered (ha : Acts id settings deeds c k t) :
    .entered t.stream.phase :: t.stream.board.log <:+ (after id settings deeds).log := by
  obtain ⟨new, is, hx⟩ :=
    Turn.executed_execute ha.live ha.books.owned (rfl : t.execute c k = (_, _))
  have hlog : (t.execute c k).2.stream.board.log = new ++ .entered t.stream.phase
    :: t.stream.board.log :=
    hx.worked.log
  exact (hlog ▸ List.suffix_append new _).trans ha.suffix_execute

/-- **A later turn finds all that an earlier one left.** -/
theorem Life.Acts.suffix_of_entered (ha : Acts id settings deeds c k t)
    (ha' : Acts id settings deeds c' k' t')
    (h : .entered t.stream.phase :: t.stream.board.log <:+ t'.stream.board.log) :
    (t.execute c k).2.stream.board.log <:+ t'.stream.board.log := by
  obtain ⟨new, is, hx⟩ :=
    Turn.executed_execute ha.live ha.books.owned (rfl : t.execute c k = (_, _))
  have hlog : (t.execute c k).2.stream.board.log = new ++ .entered t.stream.phase
    :: t.stream.board.log :=
    hx.worked.log
  have hquiet : ∀ e ∈ new, e.enters? = none :=
    fun e he => Event.enters?_of_within (hx.worked.within e he)
  rcases suffix_or_of_cons_suffix ha'.entered ha.suffix_execute with hin | hsince
  · rw [hlog] at hin
    have heq := (eq_of_entered hquiet hin ((List.suffix_cons _ _).trans h)).2
    exact absurd (heq ▸ List.suffix_refl _) (not_suffix_of_cons_suffix h)
  · exact hsince

/-- **Whoever writes a response comes from its filters**, whose phase led on. -/
theorem Life.Acts.behind_filters (ha : Acts id settings deeds c k t)
    (hp : t.stream.phase = .respond) :
    ∃ k' t', Acts id settings deeds c k' t' ∧ t'.stream.phase = .filterResponse ∧
      (t'.execute c k').1 = .next ∧
      t.stream.board.log
        = .stat (.phaseCompleted .filterResponse) :: (t'.execute c k').2.stream.board.log := by
  obtain @⟨before, _, more, _, _, _, hd,
    @⟨p, _, env, start, s, _, _, hdue, hopens, hstrides, hl⟩⟩ := ha
  have h := reached_after id settings before
  have ho := h.orderly.books.owned
  have ho' := hopens.owned ho
  rcases Relation.ReflTransGen.cases_tail hstrides with heq | ⟨⟨k', t'⟩, hz, hstride⟩
  case inl =>
    -- no job opens a stream there
    obtain ⟨rfl, rfl⟩ := Prod.mk.inj heq
    obtain ⟨job, byReply⟩ := p
    dsimp only at hopens hp
    cases hopens with
    | receive hc hp' => cases hp'.symm.trans hp
    | resume hc hpaused hcaller hr =>
      have hside := h.poised _ hpaused
      rw [show (after id settings before).stream.phase = .respond from hp] at hside
      cases hside
    | reroute => cases hp
    | response => cases hp
  have hto : ∀ {step : Step} {u : Turn σ ε}, t'.execute c k' = (step, u) → t'.stream.Live →
      ∃ new is, Executed k' t'.stream.entered step u.stream new is :=
    fun hx hl' => Turn.executed_execute hl' (Turn.Stride.owned_strides hz ho') hx
  have hlive := hstride.live
  cases hstride with
  | @next _ _ u hl' hx =>
    have hphase : t'.stream.phase = .filterResponse := by
      revert hp
      cases t'.stream.phase <;> first | exact fun _ => rfl | nofun
    refine ⟨k', t', .intro hd (.intro hdue hopens hz hl'), hphase, by rw [hx], ?_⟩
    rw [hx, ← hphase]
    rfl
  | goto hl' hx =>
    obtain ⟨new, is, hexec⟩ := hto hx hl'
    obtain ⟨point, -, rfl⟩ := hexec.of_goto
    cases hp
  | jump hl' hx hj =>
    obtain ⟨new, is, hexec⟩ := hto hx hl'
    obtain ⟨point, -, rfl | rfl⟩ := hexec.of_jump <;> cases hp

/-- **A response is written in a turn of its own.** -/
theorem Life.acts_of_written {m : Message} {answer : Except Panic (Except Failure Unit)}
    (h : .written m answer :: older <:+ (after id settings deeds).log) :
    ∃ c k t, Acts id settings deeds c k t ∧ t.stream.phase = .respond ∧
      .entered .respond :: t.stream.board.log <:+ older := by
  have hlawful : Throughout Event.Lawful (after id settings deeds).log :=
    (reached_after id settings deeds).onCourse.lawful
  obtain ⟨newer, hnewer⟩ := h
  obtain ⟨p, hp, hwithin⟩ := (hlawful newer _ older hnewer.symm).place rfl
  obtain rfl : p = .respond := hwithin
  obtain ⟨earlier, hin⟩ := exists_entered hp
  have hall : .entered .respond :: earlier <:+ (after id settings deeds).log :=
    hin.trans ((List.suffix_cons _ older).trans ⟨newer, hnewer⟩)
  obtain ⟨c, k, t, ha, hphase, rfl⟩ := exists_acts hall
  exact ⟨c, k, t, ha, hphase, hin⟩

/-! ## Rounds that lead on -/

variable {side : Side} {began : FilterSet σ} {called : List Nat}

/-- What a round called before its turn is found in the log. -/
theorem Life.Round.mem_calls (h : Round id settings deeds side c k t began called) :
    ∀ i ∈ called, i ∈ calls side t.stream.board.log := by
  induction h with
  | begin => exact List.forall_mem_nil _
  | @goOn c k t began called c' k' t' hr ha hf ih =>
    obtain ⟨new, hlog, -⟩ := hf.log
    have hbetween := hr.acts.suffix_of_entered ha ⟨new, hlog.symm⟩
    have hgrown : calls side (t.execute c k).2.stream.board.log
      <:+ calls side t'.stream.board.log :=
      hbetween.filterMap (Event.call? side)
    rw [Turn.calls_execute hr.acts.live hr.acts.books.owned] at hgrown
    intro i hi
    refine hgrown.subset ?_
    rcases List.mem_append.mp hi with hi | hi
    · exact List.mem_append_right _ (ih i hi)
    · exact List.mem_append_left _ (List.mem_reverse.mpr hi)

/-- **A round of response filters that leads on** called all of them, or ended in a wish. -/
theorem Life.Round.all_or_wish (h : Round id settings deeds .response c k t began called)
    (hp : t.stream.phase = .filterResponse) (hnext : (t.execute c k).1 = .next) :
    let all := called ++ t.called c .response k
    let bound := t.stream.filters.positions 0 .filterResponse
    all <+: bound ∧ all.Pairwise (· < ·) ∧
      (all = bound ∧ (∀ i < began.responses.length, all.count i = 1) ∨ t.EndsInWish c k) := by
  intro all bound
  have hs : t.stream.phase.side? = some .response := by rw [hp]; rfl
  obtain ⟨hcalled, hadded⟩ := h.called_eq hs
  have hsweeps := h.acts.sweeps hs
  rw [hp] at hcalled
  have hsplit : called ++ t.stream.filters.positions k .filterResponse = bound :=
    hcalled ▸ t.stream.filters.positions_split k .filterResponse
  have hbegins : all <+: bound :=
    hsplit ▸ (List.prefix_append_right_inj called).mpr (hp ▸ hsweeps.called)
  have hrising : all.Pairwise (· < ·) :=
    (pairwise_positions _ 0 .filterResponse).sublist hbegins.sublist
  refine ⟨hbegins, hrising, ?_⟩
  by_cases hwish : t.Wishes c .response k
  · exact .inr (Turn.endsInWish_of_wishes h.acts.live h.acts.books.owned hp hwish)
  · have heq : all = bound := by rw [← hsplit, ← hp, ← hsweeps.all hnext hwish]
    refine .inl ⟨heq, fun i hi => List.count_eq_one_of_mem hrising.nodup ?_⟩
    have hbound : began.Bound .filterResponse i := .inr ⟨rfl, hi⟩
    exact heq ▸ mem_positions.mpr ⟨Nat.zero_le i, hadded.bound hbound⟩

end

/-- **Who was called when response filters count as completed.**  A pass over response filters
counts as completed just when all filters it is about were called and let the response through, each
once and in order, or the filter it called last wished to go back.  And wherever a response is
written, the phase of its filters led on right before, in a round that called the first of them, in
order and each once: every filter that was there as the round began, and every one added since,
unless the one called last wished to go back. -/
theorem written_behind_filters :
    (∀ (β : Behaviour σ) (point : ResponsePoint) (start : Nat) (convert : Converter)
      (s : FilterSet σ) (w : Workbench σ),
        let visits := s.responses.visits point start convert (callResponse β) w
        visits.map (·.index) <+: s.responses.positions point start ∧
          ((passResponses β point start convert s w).result = .ok .completed ↔
            (visits.map (·.index) = s.responses.positions point start ∧
              ∀ u ∈ visits, u.Walked convert) ∨
              ∃ before v, visits = before ++ [v] ∧ (∀ u ∈ before, u.Walked convert) ∧
                v.GoesBack convert)) ∧
      ∀ (id : StreamId) (settings : Settings) (deeds : List (Deed σ ε)) (m : Message)
        (answer : Except Panic (Except Failure Unit)) (older : List (Event σ)),
          .written m answer :: older <:+ (after id settings deeds).log →
            ∃ c k t began called, Round id settings deeds .response c k t began called ∧
              t.stream.phase = .filterResponse ∧
              .entered .respond :: .stat (.phaseCompleted .filterResponse) ::
                (t.execute c k).2.stream.board.log <:+ older ∧
              let all := called ++ t.called c .response k
              let bound := t.stream.filters.positions 0 .filterResponse
              (∀ i ∈ all, i ∈ calls .response older) ∧ all <+: bound ∧ all.Pairwise (· < ·) ∧
                (all = bound ∧ (∀ i < began.responses.length, all.count i = 1) ∨
                  t.EndsInWish c k) := by
  refine ⟨fun β point start convert s w => ?_, fun id settings deeds m answer older h => ?_⟩
  · exact ⟨(Chain.meets_pass point start convert (callResponse β) s.responses w).called,
      passResponses_completed_iff β point start convert s w⟩
  obtain ⟨c, k', t', ha', hp', hin⟩ := acts_of_written h
  obtain ⟨k, t, ha, hp, hnext, hlog⟩ := ha'.behind_filters hp'
  have hs : t.stream.phase.side? = some .response := by rw [hp]; rfl
  obtain ⟨began, called, hround⟩ := ha.round hs
  rw [hlog] at hin
  refine ⟨c, k, t, began, called, hround, hp, hin, ?_, hround.all_or_wish hp hnext⟩
  have hleft : calls .response (t.execute c k).2.stream.board.log <:+ calls .response older :=
    (((List.suffix_cons _ _).trans (List.suffix_cons _ _)).trans hin).filterMap _
  rw [Turn.calls_execute ha.live ha.books.owned] at hleft
  intro i hi
  refine hleft.subset ?_
  rcases List.mem_append.mp hi with hi | hi
  · exact List.mem_append_right _ (hround.mem_calls i hi)
  · exact List.mem_append_left _ (List.mem_reverse.mpr hi)

/-- The first of two response filters wishes to match a route again, and the response is written. -/
def regretted : List (Deed Verdict Unit) :=
  [.add answering (.response .rematch .beforeSend), .add answering (.response .proceed .beforeSend),
    .receive {},
    .run ⟨.receive {}, false⟩ (.serving answering) (),
      .run ⟨.response {}, false⟩ (.serving answering) ()]

/-- The log of that life before the response was written. -/
def beforeRegretted : List (Event Verdict) := (after ⟨1⟩ {} regretted).log.drop 7

theorem written_behind_filters_regretted :
    .written ({} : Parts).message (.ok (.ok ())) :: beforeRegretted
      <:+ (after ⟨1⟩ {} regretted).log ∧
      ∃ c k t began called, Round ⟨1⟩ {} regretted .response c k t began called ∧
        ∀ i ∈ called ++ t.called c .response k, i = 0 := by
  have hwritten : .written ({} : Parts).message (.ok (.ok ())) :: beforeRegretted
    <:+ (after ⟨1⟩ {} regretted).log :=
    List.drop_suffix 6 (after ⟨1⟩ {} regretted).log
  obtain ⟨c, k, t, began, called, hround, -, -, hcalls, -⟩ :=
    written_behind_filters.2 ⟨1⟩ {} regretted _ _ _ hwritten
  have hfirst : calls .response beforeRegretted = [0] := by decide +kernel
  exact ⟨hwritten, c, k, t, began, called, hround, fun i hi =>
    List.mem_singleton.mp (hfirst ▸ hcalls i hi)⟩

/-- The pass over these two counts as completed and calls the first of them only, and so does the
life. -/
theorem wish_skips_rest :
    let s : FilterSet Verdict :=
      { responses := [⟨⟨.rematch, 0⟩, .beforeSend⟩, ⟨⟨.proceed, 1⟩, .beforeSend⟩] }
    let w : Workbench Verdict := ⟨.detached ⟨1⟩, {}⟩
    ((passResponses answering .beforeSend 0 .keep s w).result = .ok .completed ∧
        s.responses.positions .beforeSend 0 = [0, 1] ∧
        (s.responses.visits .beforeSend 0 .keep (callResponse answering) w).map (·.index) = [0]) ∧
      (after ⟨1⟩ {} regretted).stream.filters.responses.length = 2 ∧
        (after ⟨1⟩ {} regretted).stream.board.status = .finished .completed ∧
        calls .response (after ⟨1⟩ {} regretted).log = [0] := by
  decide +kernel

end FilterProxy

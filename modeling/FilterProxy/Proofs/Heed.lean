import FilterProxy.Proofs.Delivery
import FilterProxy.Proofs.Prompt

/-!
# Proofs/Heed — whether a filter that ends its stream is heeded

A filter may end its stream from within a call, through its handle.  The pass does not look at the
claim: it goes by the answer.  So the filter is **heeded** as if it had answered `terminate`, in
that nobody is called behind it and no completion is recorded of the stream that is gone, just when
its answer halts the pass, or leads nowhere for other reasons (`Turn.Heeds`).
-/

namespace FilterProxy

variable {σ ε φ π ω : Type}

open Board FilterSet FilterProxy.Stream Life

/-! ## What follows a call -/

namespace Chain.Meets

variable [DecidableEq π] {point : π} {start : Nat} {convert : Converter}
  {call : Nat → φ → ω → Called φ ω}
  {chain : Chain φ π} {w : ω} {visits before later : List (Visit φ ω)} {v : Visit φ ω}
  {r : Passed φ π ω}

/-- Another call follows only where the pass walked on. -/
theorem walked_of_later (h : Meets point start convert call chain w (before ++ v :: later) r)
    (hl : later ≠ []) :
    v.Walked convert := by
  rcases h.concludes.walks_or_halts with ⟨hw, -⟩ | ⟨before', v', heq, hw, -⟩
  · exact hw v (List.mem_append_right _ List.mem_cons_self)
  · obtain ⟨later', u, rfl⟩ := (List.eq_nil_or_concat later).resolve_left hl
    rw [List.concat_eq_append, ← List.cons_append, ← List.append_assoc] at heq
    have hbefore := List.append_inj_left' heq rfl
    exact hw v (hbefore ▸ List.mem_append_right _ List.mem_cons_self)

/-- **A call is the last one** iff it halts the pass, or no position is left behind it. -/
theorem last_iff (h : Meets point start convert call chain w (before ++ v :: later) r) :
    later = [] ↔ ¬ v.Walked convert ∨ ∀ i ∈ chain.positions point start, i ≤ v.index := by
  have hrising : ((before ++ v :: later).map (·.index)).Pairwise (· < ·) :=
    (pairwise_positions chain).sublist h.called.sublist
  rw [List.map_append, List.map_cons] at hrising
  constructor
  · rintro rfl
    refine or_iff_not_imp_left.mpr fun hwalked i hi => ?_
    rcases h.concludes.last_walks_or_halts with ⟨-, hall⟩ | ⟨-, hhalts⟩
    · rw [← hall, List.map_append] at hi
      rcases List.mem_append.mp hi with hi | hi
      · exact Nat.le_of_lt
          ((List.pairwise_append.mp hrising).2.2 i hi v.index (List.mem_singleton_self _))
      · exact Nat.le_of_eq (List.mem_singleton.mp hi)
    · exact absurd (Visit.not_walked_of_halts hhalts) hwalked
  · intro hlast
    by_contra hl
    have hall := hlast.resolve_left fun hn => hn (h.walked_of_later hl)
    obtain ⟨u, hu⟩ := List.exists_mem_of_ne_nil _ hl
    have hbound : u.index ∈ chain.positions point start := h.called.subset
      (List.mem_map_of_mem (List.mem_append_right _ (List.mem_cons_of_mem v hu)))
    have hlt : v.index < u.index :=
      (List.pairwise_cons.mp (List.pairwise_append.mp hrising).2.1).1 _ (List.mem_map_of_mem hu)
    exact absurd (hall _ hbound) (Nat.not_le_of_lt hlt)

/-- A pass is completed iff every call let it walk on and none wished to go back. -/
theorem completed_iff (h : Meets point start convert call chain w visits r) :
    r.result = .ok .completed ↔ (∀ u ∈ visits, u.Walked convert) ∧ lastWish visits = none := by
  rcases h.concludes.walks_or_halts with ⟨hw, -, hend⟩ | ⟨before', v', rfl, -, hhalts⟩
  · rw [hend, and_iff_right hw]
    cases lastWish visits <;> simp [atEnd]
  · refine iff_of_false (fun hr => halts_ne_completed (hr ▸ hhalts)) fun hn => ?_
    exact Visit.not_walked_of_halts hhalts
      (hn.1 v' (List.mem_append_right _ (List.mem_singleton_self v')))

/-- A call whose converted answer is `terminate` is the last, and the pass is given up. -/
theorem of_terminate (h : Meets point start convert call chain w (before ++ v :: later) r)
    {raw : Verdict} (ha : v.left.answer = .ok raw) (hc : convert raw = .ok .terminate) :
    later = [] ∧ r.result = .ok (.aborted (.verdict v.index)) := by
  have hhalts : halts convert v.index v.left.answer = some (.ok (.aborted (.verdict v.index))) := by
    rw [ha, halts, hc]
    rfl
  have hwalked := Visit.not_walked_of_halts hhalts
  obtain rfl := h.last_iff.mpr (.inl hwalked)
  refine ⟨rfl, ?_⟩
  rcases h.concludes.last_walks_or_halts with ⟨hw, -⟩ | ⟨-, hhalts'⟩
  · exact absurd (hw v (List.mem_append_right _ (List.mem_singleton_self v))) hwalked
  · exact Option.some.inj (hhalts'.symm.trans hhalts)

/-- **A call is the last one, and its pass is not completed in a quiet state**, iff it halts the
pass, or no position is left behind it and somebody wished to go back or the state it leaves is not
quiet. -/
theorem last_and_not_completed_iff
    (h : Meets point start convert call chain w (before ++ v :: later) r) (Quiet : ω → Prop) :
    later = [] ∧ ¬ (r.result = .ok .completed ∧ Quiet r.state) ↔
      ¬ v.Walked convert ∨ (∀ i ∈ chain.positions point start, i ≤ v.index) ∧
        (lastWish (before ++ v :: later) ≠ none ∨ ¬ Quiet v.left.state) := by
  rw [h.completed_iff]
  constructor
  · rintro ⟨rfl, hstep⟩
    have hstate : r.state = v.left.state := h.threaded.behind
    refine or_iff_not_imp_left.mpr fun hwalked => ⟨(h.last_iff.mp rfl).resolve_left hwalked, ?_⟩
    refine or_iff_not_imp_left.mpr fun hwish hquiet =>
      hstep ⟨⟨?_, not_not.mp hwish⟩, hstate ▸ hquiet⟩
    rcases h.concludes.last_walks_or_halts with ⟨hw, -⟩ | ⟨-, hhalts⟩
    · exact hw
    · exact absurd (Visit.not_walked_of_halts hhalts) hwalked
  · rintro (hwalked | ⟨hall, helse⟩)
    · refine ⟨h.last_iff.mpr (.inl hwalked), fun hn => hwalked (hn.1.1 v ?_)⟩
      exact List.mem_append_right _ List.mem_cons_self
    · obtain rfl := h.last_iff.mpr (.inr hall)
      have hstate : r.state = v.left.state := h.threaded.behind
      exact ⟨rfl, fun hn => helse.elim (· hn.1.2) (· (hstate ▸ hn.2))⟩

/-- **A call is the last one, and its pass does not count as completed**, iff it halts the pass and
was no wish to go back. -/
theorem last_and_not_settled_iff
    (h : Meets point start convert call chain w (before ++ v :: later) r) :
    later = [] ∧ r.result.map settle ≠ .ok .completed ↔ ¬ v.Walked convert ∧
      ¬ v.GoesBack convert := by
  rw [ne_eq, h.concludes.settled_iff]
  constructor
  · rintro ⟨rfl, hstep⟩
    obtain ⟨hwalks, hback⟩ := not_or.mp hstep
    rcases h.concludes.last_walks_or_halts with ⟨hw, hall⟩ | ⟨hw, hhalts⟩
    · exact absurd ⟨hall, hw⟩ hwalks
    · exact ⟨Visit.not_walked_of_halts hhalts, fun hgoes => hback ⟨before, v, rfl, hw, hgoes⟩⟩
  · rintro ⟨hwalked, hgoes⟩
    obtain rfl := h.last_iff.mpr (.inl hwalked)
    refine ⟨rfl, ?_⟩
    rintro (⟨-, hw⟩ | ⟨before', v', heq, -, hgoes'⟩)
    · exact hwalked (hw v (List.mem_append_right _ (List.mem_singleton_self v)))
    · obtain rfl : v = v' := List.singleton_inj.mp (List.append_inj_right' heq rfl)
      exact hgoes hgoes'

end Chain.Meets

/-- **Claims stand**: what a call leaves claimed is claimed as the pass is over. -/
theorem FilterSet.claimed_threaded {side : Side} {φ : Type}
    {call : Nat → φ → Workbench σ → Chain.Called φ (Workbench σ)}
    (hcall : ∀ i f w, Walked side w.board (call i f w).state.board) {w w' : Workbench σ}
    {before later : List (Chain.Visit φ (Workbench σ))} {v : Chain.Visit φ (Workbench σ)}
    (h : Chain.Threaded call w (before ++ v :: later) w') (ho : w.board.owned = true)
    (hc : v.left.state.board.claimed = true) : w'.board.claimed = true := by
  let Claimed (w : Workbench σ) : Prop := w.board.owned = true ∧ w.board.claimed = true
  have owned (i : Nat) (f : φ) (w : Workbench σ) (hw : w.board.owned = true) :
      (call i f w).state.board.owned = true :=
    ((hcall i f w).moves (fun _ => Event.isQuiet_of_inPass) hw).owned.trans hw
  have claimed (i : Nat) (f : φ) (w : Workbench σ) (hw : Claimed w) : Claimed (call i f w).state :=
    ⟨owned i f w hw.1, ((hcall i f w).moves (fun _ => Event.isQuiet_of_inPass) hw.1).claimed hw.2⟩
  exact (h.behind.keeps claimed ⟨(h.reaches owned ho).2, hc⟩).2

/-! ## The calls of a turn -/

namespace Stream

variable (β : Behaviour σ) (point : RequestPoint) (k : Nat) (s : Stream σ)

/-- The pass over the filters of a chain that the stream makes to execute a phase of request
filters… -/
def filterPass : Chain.Passed (Seated σ) RequestPoint (Workbench σ) :=
  s.filters.requests.pass point k s.settings.convert (callRequest β)
    ⟨{ s.entered.board with point := some point }, s.request.parts⟩

/-- …and its calls. -/
def filterVisits : List (Chain.Visit (Seated σ) (Workbench σ)) :=
  s.filters.requests.visits point k s.settings.convert (callRequest β)
    ⟨{ s.entered.board with point := some point }, s.request.parts⟩

/-- The phase concludes from that pass. -/
theorem pass_eq : (s.pass β point k).result = (s.filterPass β point k).result ∧
    (s.passed β point k).board.reply = (s.filterPass β point k).state.board.reply ∧
      (s.passed β point k).board.claimed = (s.filterPass β point k).state.board.claimed := by
  have hpass : s.entered.filters.requests.pass point k s.settings.convert (callRequest β)
      ⟨{ s.entered.board with point := some point }, s.request.parts⟩ = s.filterPass β point k :=
        rfl
  unfold passed pass passRequests
  dsimp only
  rw [hpass]
  cases (s.filterPass β point k).result <;> exact ⟨rfl, rfl, rfl⟩

variable {β point k s}

theorem claimed_pause (n : Nat) (s : Stream σ) : (s.pause n).2.board.claimed = s.board.claimed := by
  cases hc : s.board.claimed with
  | true => rw [pause_of_claimed n hc, hc]
  | false =>
    rw [pause_of_unclaimed n hc]
    cases s.settings.stopTimeout <;> exact hc

theorem claimed_noteAbort (cause : Abort) (s : Stream σ) :
    (s.noteAbort cause).board.claimed = s.board.claimed := by
  cases cause <;> rfl

/-- Nobody claims the stream as a pass is concluded. -/
theorem Concludes.claimed_eq {s' : Stream σ} {result : Except Panic Outcome} {step : Step}
    (h : s.Concludes result step s') : s'.board.claimed = s.board.claimed := by
  cases h with
  | pause => exact claimed_pause _ s
  | abort cause => exact claimed_noteAbort cause s
  | _ => rfl

/-- A phase of request filters leads on iff its pass is completed and no reply waits. -/
theorem Concludes.next_iff {s' : Stream σ} {result : Except Panic Outcome} {step : Step}
    (h : s.Concludes result step s') : step = .next ↔ result = .ok .completed ∧
      s.board.reply = none := by
  cases h with
  | next hr => exact iff_of_true rfl ⟨rfl, hr⟩
  | reply ho hr => exact iff_of_false nofun fun hn => nomatch hr.symm.trans hn.2
  | _ => exact iff_of_false nofun nofun

/-- What the phase of response filters comes to, by its pass. -/
theorem filterResponse_eq (β : Behaviour σ) (k : Nat) (s : Stream σ) :
    (s.entered.filterResponse β k).2.board.claimed = (s.sendPass β k).state.board.claimed ∧
      ((s.entered.filterResponse β k).1 = .next ↔ (s.sendPass β k).result.map settle
        = .ok .completed) ∧
      ∀ cause, (s.sendPass β k).result = .ok (.aborted cause) →
        (s.entered.filterResponse β k).1 = .finish cause.ending := by
  have hpass : s.entered.filters.responses.pass .beforeSend k .keep (callResponse β)
      ⟨s.entered.board.closeReply.2, s.entered.response.parts⟩ = s.sendPass β k := rfl
  unfold filterResponse passResponse passResponses
  dsimp only
  rw [hpass]
  rcases s.sendPass β k with ⟨_ | _ | n | q | cause, chain, state⟩
  case ok.stopped =>
    refine ⟨claimed_pause n _, iff_of_false (fun h => absurd ((pause_fst n _).symm.trans h) nofun)
      nofun, nofun⟩
  case ok.aborted =>
    refine ⟨claimed_noteAbort cause _, iff_of_false nofun nofun, fun cause' h => ?_⟩
    obtain rfl : cause = cause' := by injection h with h; injection h
    rfl
  case error => exact ⟨rfl, iff_of_false nofun nofun, nofun⟩
  all_goals exact ⟨rfl, iff_of_true rfl rfl, nofun⟩

end Stream

namespace Turn

variable (c : Surroundings σ ε) (k : Nat) (t : Turn σ ε)

/-- **The calls that executing a phase of filters makes**, in order. -/
def visits : List (Chain.Visit (Seated σ) (Workbench σ)) :=
  match t.stream.phase with
  | .filterRequest => t.stream.filterVisits c.behaviour .beforeRoute k
  | .filterRouted => t.stream.filterVisits c.behaviour .afterRoute k
  | .filterHosted => t.stream.filterVisits c.behaviour .afterHost k
  | .filterResponse => t.stream.sendVisits c.behaviour k
  | _ => []

/-- The policy their answers are converted by. -/
def convert : Converter :=
  match t.stream.phase with
  | .filterResponse => .keep
  | _ => t.stream.settings.convert

/-- **Nobody is called behind the call, and the phase does not lead on.**  On the request's way its
answer halts the pass; or it is the last one, and then a wish to go back or a direct reply leads
elsewhere.  On the response's way its answer is `stop` or `terminate`, or there is none, for a wish
to go back leads on to the response. -/
def Heeds (v : Chain.Visit (Seated σ) (Workbench σ)) : Prop :=
  match t.stream.phase with
  | .filterResponse => ¬ v.Walked .keep ∧ ¬ v.GoesBack .keep
  | p => ¬ v.Walked t.stream.settings.convert ∨ (∀ i ∈ t.stream.filters.positions k p,
      i ≤ v.index) ∧
      (Chain.lastWish (t.visits c k) ≠ none ∨ v.left.state.board.reply ≠ none)

variable {c k t} {before later : List (Chain.Visit (Seated σ) (Workbench σ))}
  {v : Chain.Visit (Seated σ) (Workbench σ)}

section

variable {point : RequestPoint} (hp : t.stream.phase = point.phase)

include hp

theorem visits_filters : t.visits c k = t.stream.filterVisits c.behaviour point k := by
  unfold visits
  rw [hp]
  cases point <;> rfl

theorem convert_filters : t.convert = t.stream.settings.convert := by
  unfold convert
  rw [hp]
  cases point <;> rfl

theorem heeds_filters : t.Heeds c k v ↔
    ¬ v.Walked t.stream.settings.convert ∨
      (∀ i ∈ t.stream.filters.requests.positions point k, i ≤ v.index) ∧
      (Chain.lastWish (t.stream.filterVisits c.behaviour point k) ≠ none ∨ v.left.state.board.reply
        ≠ none) := by
  rw [← visits_filters hp, ← positions_phase, Heeds, hp]
  cases point <;> rfl

/-- A call of a turn at request filters, in its pass. -/
theorem meets_filters (hv : t.visits c k = before ++ v :: later) :
    Chain.Meets point k t.stream.settings.convert
      (callRequest c.behaviour) t.stream.filters.requests
      ⟨{ t.stream.entered.board with point := some point }, t.stream.request.parts⟩
        (before ++ v :: later)
      (t.stream.filterPass c.behaviour point k) := by
  rw [visits_filters hp] at hv
  exact hv ▸ Chain.meets_pass ..

end

section

variable (hp : t.stream.phase = .filterResponse)

include hp

theorem visits_response : t.visits c k = t.stream.sendVisits c.behaviour k := by
  unfold visits
  rw [hp]

theorem convert_response : t.convert = .keep := by
  unfold convert
  rw [hp]

theorem heeds_response : t.Heeds c k v ↔ ¬ v.Walked .keep ∧ ¬ v.GoesBack .keep := by
  unfold Heeds
  rw [hp]

/-- A call of a turn at the response filters, in its pass. -/
theorem meets_response (hv : t.visits c k = before ++ v :: later) :
    Chain.Meets .beforeSend k .keep (callResponse c.behaviour) t.stream.filters.responses
      ⟨t.stream.entered.board.closeReply.2, t.stream.response.parts⟩ (before ++ v :: later)
      (t.stream.sendPass c.behaviour k) := by
  rw [visits_response hp] at hv
  exact hv ▸ Chain.meets_pass ..

end

/-- A phase of filters is one of request filters, or that of the response filters. -/
theorem filters_or_response (hs : t.stream.phase.side?.isSome) :
    (∃ point : RequestPoint, t.stream.phase = point.phase) ∨ t.stream.phase = .filterResponse := by
  revert hs
  cases t.stream.phase with
  | filterRequest => exact fun _ => .inl ⟨.beforeRoute, rfl⟩
  | filterRouted => exact fun _ => .inl ⟨.afterRoute, rfl⟩
  | filterHosted => exact fun _ => .inl ⟨.afterHost, rfl⟩
  | filterResponse => exact fun _ => .inr rfl
  | _ => nofun

variable (ho : t.stream.board.owned = true) (hs : t.stream.phase.side?.isSome)
  (hv : t.visits c k = before ++ v :: later)

include ho hs hv

/-- **A call is heeded** iff nobody is called behind it and the phase does not lead on. -/
theorem heeds_iff : later = [] ∧ (t.execute c k).1 ≠ .next ↔ t.Heeds c k v := by
  rcases filters_or_response hs with ⟨point, hp⟩ | hp
  · obtain ⟨hconcludes, -⟩ := concludes_execute (c := c) (k := k) hp ho
      (Prod.mk.eta (p := t.execute c k)).symm
    obtain ⟨hresult, hreply, -⟩ := pass_eq c.behaviour point k t.stream
    have hnext := hconcludes.next_iff
    rw [hresult, hreply] at hnext
    rw [heeds_filters hp, ← visits_filters hp, hv, ne_eq, hnext]
    exact (meets_filters hp hv).last_and_not_completed_iff (·.board.reply = none)
  · obtain ⟨-, hnext, -⟩ := filterResponse_eq c.behaviour k t.stream
    rw [heeds_response hp, execute_filterResponse c hp, ne_eq, hnext]
    exact (meets_response hp hv).last_and_not_settled_iff

/-- A claim made in the course of a call stands. -/
theorem claimed_execute (hc : v.left.state.board.claimed = true) :
    (t.execute c k).2.stream.board.claimed = true := by
  rcases filters_or_response hs with ⟨point, hp⟩ | hp
  · have hpass := claimed_threaded (walked_callRequest c.behaviour)
      (meets_filters hp hv).threaded ho hc
    obtain ⟨hconcludes, -⟩ :=
      concludes_execute (c := c) (k := k) hp ho (Prod.mk.eta (p := t.execute c k)).symm
    rw [hconcludes.claimed_eq, (pass_eq ..).2.2]
    exact hpass
  · have hpass := claimed_threaded (walked_callResponse c.behaviour)
      (meets_response hp hv).threaded ho hc
    rw [execute_filterResponse c hp]
    exact (filterResponse_eq c.behaviour k t.stream).1.trans hpass

/-- **A call that is answered by `terminate`** is the last, and gives the stream up. -/
theorem finish_of_terminate {raw : Verdict} (ha : v.left.answer = .ok raw)
    (hc : t.convert raw = .ok .terminate) :
    later = [] ∧ (t.execute c k).1 = .finish .filterTerminated := by
  rcases filters_or_response hs with ⟨point, hp⟩ | hp
  · rw [convert_filters hp] at hc
    obtain ⟨hlast, hresult⟩ := (meets_filters hp hv).of_terminate ha hc
    obtain ⟨hconcludes, -⟩ :=
      concludes_execute (c := c) (k := k) hp ho (Prod.mk.eta (p := t.execute c k)).symm
    rw [(pass_eq ..).1, hresult] at hconcludes
    refine ⟨hlast, ?_⟩
    generalize (t.execute c k).1 = step, (t.execute c k).2.stream = s at hconcludes ⊢
    cases hconcludes with
    | reply ho => exact nomatch ho
    | abort => rfl
  · rw [convert_response hp] at hc
    obtain ⟨hlast, hresult⟩ := (meets_response hp hv).of_terminate ha hc
    rw [execute_filterResponse c hp]
    exact ⟨hlast, (filterResponse_eq c.behaviour k t.stream).2.2 _ hresult⟩

end Turn

/-! ## The calls of a direct run -/

/-- **The calls that a direct run makes**, in order. -/
def Stream.directVisits (β : Behaviour σ) (message : Message) (convert : Converter) (s : Stream σ) :
    List (Chain.Visit (Seated σ) (Workbench σ)) :=
  s.filters.responses.visits .beforeSend 0 convert (callResponse β) ⟨s.board, message.parts⟩

/-- A direct run whose pass claims the stream, or is given up, leaves it claimed. -/
theorem Stream.claimed_runResponseFilters {β : Behaviour σ} {message : Message}
    {convert : Converter} {s : Stream σ} (ho : s.board.owned = true)
    (hend : let r :=
      s.filters.responses.pass .beforeSend 0 convert (callResponse β) ⟨s.board, message.parts⟩
      r.state.board.claimed = true ∨ ∃ cause, r.result = .ok (.aborted cause)) :
    (s.runResponseFilters β .beforeSend message convert).2.board.claimed = true := by
  obtain ⟨new, is, hwalk⟩ := passResponses_spec β 0 convert s.filters ⟨s.board, message.parts⟩
    .beforeSend ho
  have howned := hwalk.moves.owned.trans ho
  rw [runResponseFilters_eq β message convert rfl]
  unfold passResponses at howned ⊢
  dsimp only at howned hend ⊢
  generalize s.filters.responses.pass .beforeSend 0 convert (callResponse β)
    ⟨s.board, message.parts⟩ = r
    at howned hend ⊢
  rcases r with ⟨_ | _ | _ | _ | cause, chain, state⟩
  case ok.aborted =>
    refine claimed_finish β cause.ending ?_
    cases cause <;> exact howned
  all_goals exact hend.resolve_right nofun

section

variable {l : Life σ} {c : Surroundings σ ε} {message : Message} {convert : Converter}

/-- **A stream claimed in the course of a direct run** has a prompt log ever after: outside of the
phases no completion is recorded. -/
theorem Reached.prompt_direct (h : Reached none l) (hc : l.stream.board.claimed = false)
    (hc' : (l.stream.runResponseFilters c.behaviour .beforeSend message convert).2.board.claimed
      = true)
    (more : List (Deed σ ε)) :
    Throughout Event.Prompt (more.foldl Life.next (l.next (.direct c message convert))).log := by
  obtain ⟨new, hlog, hnew⟩ := h.uncompleted_beside (d := .direct c message convert) nofun
  rw [(h.next_deed (.direct c message convert)).prompt_foldl more hc', hlog,
    Throughout.prompt_append hnew]
  exact h.orderly.books.prompt hc

variable {before later : List (Chain.Visit (Seated σ) (Workbench σ))}
  {v : Chain.Visit (Seated σ) (Workbench σ)}

/-- **A claim made in the course of a direct run is heeded** iff its call is the last one. -/
theorem Reached.heeds_direct (h : Reached none l) (more : List (Deed σ ε))
    (hv : l.stream.directVisits c.behaviour message convert = before ++ v :: later)
    (hc : l.stream.board.claimed = false) :
    (v.left.state.board.claimed = true →
      ((later = [] ∧
        Throughout Event.Prompt (more.foldl Life.next (l.next (.direct c message convert))).log) ↔
        ¬ v.Walked convert ∨ ∀ i ∈ l.stream.filters.responses.positions .beforeSend 0,
          i ≤ v.index)) ∧
      ∀ raw, v.left.answer = .ok raw → convert raw = .ok .terminate →
        later = [] ∧ Throughout Event.Prompt
          (more.foldl Life.next (l.next (.direct c message convert))).log := by
  have ho := h.orderly.books.owned
  have hmeets : Chain.Meets .beforeSend 0 convert (callResponse c.behaviour)
    l.stream.filters.responses
      ⟨l.stream.board, message.parts⟩ (before ++ v :: later)
      (l.stream.filters.responses.pass .beforeSend 0 convert (callResponse c.behaviour)
        ⟨l.stream.board, message.parts⟩) := hv ▸ Chain.meets_pass ..
  have hbehind := claimed_threaded (walked_callResponse c.behaviour) hmeets.threaded ho
  refine ⟨fun hleft => ?_, fun raw ha hterminate => ?_⟩
  · rw [and_iff_left
      (h.prompt_direct hc (claimed_runResponseFilters ho (.inl (hbehind hleft))) more)]
    exact hmeets.last_iff
  · obtain ⟨hlast, hresult⟩ := hmeets.of_terminate ha hterminate
    exact ⟨hlast, h.prompt_direct hc (claimed_runResponseFilters ho (.inr ⟨_, hresult⟩)) more⟩

end

/-! ## Whole lives -/

/-- **Whether a filter that ends its stream is heeded.**  Where a filter claims cleanup in the
course of its call, nobody is called behind it and no completion is ever recorded behind the cleanup
iff its answer halts the pass or the pass, ended by it, leads nowhere; and where it answers
`terminate` instead, that is always so.  The same goes for the response filters that are run outside
of the phases, which complete nothing. -/
theorem terminate_acts_as_answer_iff (id : StreamId) (settings : Settings)
    (deeds : List (Deed σ ε)) :
    (∀ (c : Surroundings σ ε) (k : Nat) (t : Turn σ ε), Acts id settings deeds c k t →
      t.stream.phase.side?.isSome →
      ∀ before v later, t.visits c k = before ++ v :: later →
        (v.left.state.board.claimed = true →
          ((later = [] ∧ Throughout Event.Prompt (after id settings deeds).log) ↔ t.Heeds c k v)) ∧
        ∀ raw, v.left.answer = .ok raw → t.convert raw = .ok .terminate →
          later = [] ∧ Throughout Event.Prompt (after id settings deeds).log) ∧
      ∀ (earlier : List (Deed σ ε)) (c : Surroundings σ ε) (message : Message) (convert : Converter)
        (more : List (Deed σ ε)), deeds = earlier ++ .direct c message convert :: more →
        let s := (after id settings earlier).stream
        s.board.claimed = false →
        ∀ before v later, s.directVisits c.behaviour message convert = before ++ v :: later →
          (v.left.state.board.claimed = true →
            ((later = [] ∧ Throughout Event.Prompt (after id settings deeds).log) ↔
              ¬ v.Walked convert ∨ ∀ i ∈ s.filters.responses.positions .beforeSend 0,
                i ≤ v.index)) ∧
          ∀ raw, v.left.answer = .ok raw → convert raw = .ok .terminate →
            later = [] ∧ Throughout Event.Prompt (after id settings deeds).log := by
  constructor
  · intro c k t ha hs before v later hv
    obtain ⟨step, t', hx⟩ : ∃ step t', t.execute c k = (step, t') := ⟨_, _, rfl⟩
    have ho := ha.books.owned
    refine ⟨fun hclaimed => ?_, fun raw hanswer hterminate => ?_⟩
    · have hc := Turn.claimed_execute ho hs hv hclaimed
      rw [← Turn.heeds_iff ho hs hv]
      rw [hx] at hc ⊢
      rw [ha.prompt_iff hs hx hc]
    · obtain ⟨hlast, hfinish⟩ := Turn.finish_of_terminate ho hs hv hanswer hterminate
      rw [hx] at hfinish
      obtain rfl : step = .finish .filterTerminated := hfinish
      exact ⟨hlast, ha.prompt_of_finish hs hx⟩
  · rintro earlier c message convert more rfl s hc before v later hv
    rw [after_append, List.foldl_cons]
    exact (reached_after id settings earlier).heeds_direct more hv hc

/-- A filter that quits ends its stream and lets the message pass. -/
def quitting : Behaviour Bool where
  onRequest quits _ parts :=
    let pass := .done ⟨quits, parts, .ok .proceed⟩
    if quits then .act .terminate pass else pass
  onResponse quits _ parts := .done ⟨quits, parts, .ok .proceed⟩
  onDestroy quits _ := .done { filter := quits }

/-- A stream with two request filters, the first of which will quit. -/
def ripe : List (Deed Bool Unit) :=
  [.add quitting (.request true .beforeRoute), .add quitting (.request false .beforeRoute),
    .receive {}]

/-- The pool takes its request up. -/
def quit : List (Deed Bool Unit) := ripe ++ [.run ⟨.receive {}, false⟩ (.serving quitting) ()]

/-- The turn at its request filters… -/
def beingQuit : Turn Bool Unit :=
  (Turn.execute (.serving quitting) 0 ⟨(after ⟨1⟩ {} ripe).stream, ()⟩).2.advance .init

theorem acts_beingQuit : Acts ⟨1⟩ {} quit (.serving quitting) 0 beingQuit := by
  refine .intro rfl (.intro (by decide +kernel) (.receive ?_ ?_)
    (.single (.next ⟨?_, ?_⟩ (Prod.ext ?_ rfl))) ⟨?_, ?_⟩)
  all_goals decide +kernel

/-- …and the calls it makes. -/
def quitVisits : List (Chain.Visit (Seated Bool) (Workbench Bool)) :=
  beingQuit.visits (.serving quitting) 0

/-- There the first filter is not heeded, for the second is called. -/
theorem terminate_acts_as_answer_iff_beingQuit :
    ∃ v later, quitVisits = v :: later ∧ v.left.state.board.claimed = true ∧ later ≠ [] ∧
      ¬ beingQuit.Heeds (.serving quitting) 0 v := by
  have hclaimed (h : quitVisits ≠ []) : (quitVisits.head h).left.state.board.claimed = true := by
    decide +kernel +revert
  have hlater : quitVisits.tail ≠ [] := by decide +kernel
  have hcalled : quitVisits ≠ [] := by decide +kernel
  have hvisits : quitVisits = quitVisits.head hcalled :: quitVisits.tail :=
    (List.cons_head_tail hcalled).symm
  obtain ⟨hheeds, -⟩ := (terminate_acts_as_answer_iff ⟨1⟩ {} quit).1 (.serving quitting) 0 beingQuit
    acts_beingQuit
    (by decide +kernel) [] _ _ hvisits
  exact ⟨_, _, hvisits, hclaimed hcalled, hlater, fun h =>
    hlater ((hheeds (hclaimed hcalled)).mpr h).1⟩

/-- The log of that life before its second filter was called… -/
def beforeNeighbour : List (Event Bool) := (after ⟨1⟩ {} quit).log.drop 3

/-- …and before its phase was complete. -/
def beforeCompleted : List (Event Bool) := (after ⟨1⟩ {} quit).log.drop 1

/-- **The stream is gone, the next filter is called all the same, and the phase completed.** -/
theorem claim_does_not_halt_pass :
    .called .request 1 false none {} :: beforeNeighbour <:+ (after ⟨1⟩ {} quit).log ∧
      calls .request beforeNeighbour = [0] ∧ claims beforeNeighbour = [.filterTerminated] ∧
      .stat (.phaseCompleted .filterRequest) :: beforeCompleted <:+ (after ⟨1⟩ {} quit).log ∧
      cleanings beforeCompleted = 1 ∧ ¬ Throughout Event.Prompt (after ⟨1⟩ {} quit).log := by
  have hcompleted : .stat (.phaseCompleted .filterRequest) :: beforeCompleted
    <:+ (after ⟨1⟩ {} quit).log :=
    List.drop_suffix 0 (after ⟨1⟩ {} quit).log
  have hcleaned : cleanings beforeCompleted = 1 := by decide +kernel
  refine ⟨List.drop_suffix 2 (after ⟨1⟩ {} quit).log, by decide +kernel, by decide +kernel,
    hcompleted, hcleaned, ?_⟩
  intro hprompt
  obtain ⟨newer, hnewer⟩ := hcompleted
  exact absurd (hcleaned.symm.trans (hprompt newer _ _ hnewer.symm rfl)) (by decide)

end FilterProxy

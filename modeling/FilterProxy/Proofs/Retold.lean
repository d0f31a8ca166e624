import FilterProxy.Proofs.Recast

/-!
# Proofs/Retold — the end of a stream, told otherwise

Once a stream is claimed, nobody asks any more why it ends, what was logged before, which replaced
parts were left, or what the response is.  So it may be told with other ones (`Telling`), and
**whatever happens to a claimed stream happens to it however it is told** (`Life.Twice.foldl`), but
for direct runs of its response filters.
-/

namespace FilterProxy

variable {σ ε : Type}

/-- The status under another ending. -/
def Status.retold (f : Ending → Ending) : Status → Status
  | .finished ending => .finished (f ending)
  | s => s

/-- The event under another ending. -/
def Event.retold (f : Ending → Ending) : Event σ → Event σ
  | .stat (.terminated ending) => .stat (.terminated (f ending))
  | .published s => .published (s.retold f)
  | .claimed ending => .claimed (f ending)
  | e => e

@[simp] theorem Status.retold_id : Status.retold id = id := by
  funext s
  cases s <;> rfl

@[simp] theorem Event.retold_id : Event.retold id = (id : Event σ → Event σ) := by
  funext e
  cases e with
  | stat s => cases s <;> rfl
  | published s => exact congrArg Event.published (congrFun Status.retold_id s)
  | _ => rfl

/-- Replacements on top of earlier ones. -/
def Replaced.onto (r earlier : Replaced) : Replaced :=
  ⟨r.headers <|> earlier.headers, r.data <|> earlier.data, r.trailers <|> earlier.trailers⟩

@[simp] theorem Replaced.onto_empty (r : Replaced) : r.onto {} = r := by
  rcases r with ⟨_ | _, _ | _, _ | _⟩ <;> rfl

/-- **How a claimed stream is told**: what may be different about it. -/
structure Telling (σ : Type) where
  /-- The ending in place of the stream's own. -/
  ending : Ending → Ending
  /-- The log further back. -/
  older : List (Event σ)
  /-- Replacements from before that are still waiting. -/
  replaced : Replaced
  /-- The response until it is dropped. -/
  response : Message

/-- The same jobs were put out further back. -/
structure Telling.Agrees (x x' : Telling σ) : Prop where
  latest : x'.older.head?.any Event.isReply = x.older.head?.any Event.isReply
  posted : posted x'.older = posted x.older

/-- The replacements from before are gone. -/
def Telling.cleared (x : Telling σ) : Telling σ := { x with replaced := {} }

theorem Telling.Agrees.cleared {x x' : Telling σ} (h : x.Agrees x') : x.cleared.Agrees x'.cleared :=
  ⟨h.latest, h.posted⟩

/-! ## Boards -/

namespace Board

/-- The board as it is told. -/
def retold (x : Telling σ) (b : Board σ) : Board σ :=
  { b with
    replaced := b.replaced.onto x.replaced
    status := b.status.retold x.ending
    log := b.log.map (Event.retold x.ending) ++ x.older }

variable (x : Telling σ) (b : Board σ)

@[simp] theorem retold_owned : (b.retold x).owned = b.owned := rfl
@[simp] theorem retold_log : (b.retold x).log = b.log.map (Event.retold x.ending) ++ x.older := rfl

theorem retold_looked (side : Side) (index : Nat) (filter : σ) :
    (b.retold x).note (.looked side index filter (b.retold x).view)
      = (b.note (.looked side index filter b.view)).retold x := rfl

theorem retold_destroyed (side : Side) (index : Nat) (filter : σ) :
    (b.retold x).note
    (.destroyed side index filter) = (b.note (.destroyed side index filter)).retold x := rfl

theorem retold_schedule (job : Job) : (b.retold x).schedule job = (b.schedule job).retold x := by
  unfold schedule
  rw [retold_owned]
  split <;> rfl

theorem retold_raise (code : UInt16) (headers : Headers) : (b.retold x).raise code headers
    = ((b.raise code headers).1, (b.raise code headers).2.retold x) := by
  unfold raise
  rw [show (b.retold x).closed = b.closed from rfl]
  split <;> rfl

variable {b}

/-- The first claim drops the replacements, and tells the ending it is given. -/
theorem retold_claim (hc : b.claimed = false) {ending : Ending}
    (hf : (x.ending ending).isAbort = ending.isAbort) :
    ((b.retold x).claim (x.ending ending)).2 = (b.claim ending).2.retold x.cleared := by
  rw [claim_of_unclaimed (b := b.retold x) hc, claim_of_unclaimed hc, claimEvents, claimEvents, hf]
  split <;> rfl

/-- A handle does not end what was claimed. -/
theorem perform_terminate_of_claimed {side : Side} (hc : b.claimed = true) (index : Nat) :
    b.perform index (.terminate : Action side) = b := by
  simp [perform, abandon, hc]

/-- An action through a handle, once the stream is claimed. -/
theorem retold_perform {side : Side} (hc : b.claimed = true) (index : Nat) (a : Action side) :
    (b.retold x).perform index a = (b.perform index a).retold x := by
  cases a with
  | reply code headers =>
    simp only [perform, retold_raise]
    split
    · exact retold_schedule x _ _
    · rfl
  | replaceHeaders | replaceData | replaceTrailers => rfl
  | resume => exact retold_schedule x b _
  | terminate =>
    rw [perform_terminate_of_claimed hc, perform_terminate_of_claimed (b := b.retold x) hc]

end Board

open Board

/-- **A program** does the same on a claimed board however it is told. -/
theorem Program.run_retold {α : Type} {side : Side} (x : Telling σ) (filter : σ) (index : Nat)
    (program : Program side α) {b : Board σ} (hc : b.claimed = true) (ho : b.owned = true) :
    program.run filter index (b.retold x)
      = ((program.run filter index b).1, (program.run filter index b).2.retold x) := by
  induction program generalizing b with
  | done a => rfl
  | act a rest ih =>
    have hstirred := stirred_perform index a ho
    rw [Program.run, retold_perform x hc, ih (hstirred.claimed hc) (hstirred.owned ho)]
    rfl
  | look rest ih =>
    rw [Program.run, retold_looked]
    exact ih b.view (b := b.note (.looked side index filter b.view)) hc ho

/-! ## Introductions and farewells -/

namespace FilterSet

variable (β : Behaviour σ) (x : Telling σ) {b : Board σ}

theorem introduce_retold (s : FilterSet σ) (r : Registration σ) (hc : b.claimed = true)
    (ho : b.owned = true) :
    s.introduce β (b.retold x) r = ((s.introduce β b r).1, (s.introduce β b r).2.retold x) := by
  have hadded : (b.retold x).note (.added r.side (s.size r.side) r.filter)
      = (b.note (.added r.side (s.size r.side) r.filter)).retold x := rfl
  simp only [introduce, hadded]
  exact Program.run_retold x r.filter (s.size r.side) _
    (b := b.note (.added r.side (s.size r.side) r.filter)) hc ho

theorem destroyFrom_retold {π : Type} (side : Side) (index : Nat) (chain : Chain (Seated σ) π)
    (hc : b.claimed = true) (ho : b.owned = true) : destroyFrom β side index chain (b.retold x)
      = let r := destroyFrom β side index chain b
        (r.1, r.2.1, r.2.2.retold x) := by
  induction chain generalizing index b with
  | nil => rfl
  | cons e rest ih =>
    have hstirred := stirred_run e.filter.filter e.filter.seat (β.onDestroy e.filter.filter side)
      (b := b.note (.destroyed side index e.filter.filter)) ho
    simp only [destroyFrom, Program.through, retold_destroyed]
    rw [Program.run_retold x e.filter.filter e.filter.seat _
      (b := b.note (.destroyed side index e.filter.filter)) hc ho]
    dsimp only
    split
    · rfl
    · rw [ih (index + 1) (hstirred.claimed hc) (hstirred.owned ho)]

theorem destroy_retold (s : FilterSet σ) (hc : b.claimed = true) (ho : b.owned = true) :
    destroy β s (b.retold x) = let r := destroy β s b; (r.1, r.2.1, r.2.2.retold x) := by
  have hstirred := stirred_destroyFrom β .request 0 s.requests b ho
  simp only [destroy, destroyFrom_retold β x .request 0 s.requests hc ho]
  split
  · rfl
  · rw [destroyFrom_retold β x .response 0 s.responses (hstirred.claimed hc) (hstirred.owned ho)]

variable {β} {β' : Behaviour σ}

/-- Only how filters take their farewell counts. -/
theorem destroyFrom_congr {π : Type} (h : β'.onDestroy = β.onDestroy) (side : Side) (index : Nat)
    (chain : Chain (Seated σ) π) (b : Board σ) :
      destroyFrom β' side index chain b = destroyFrom β side index chain b := by
  induction chain generalizing index b with
  | nil => rfl
  | cons e rest ih => simp only [destroyFrom, h, ih]

end FilterSet

/-! ## Streams -/

namespace Stream

/-- **The stream as it is told.**  One that was released has no response any more. -/
def retold (x : Telling σ) (s : Stream σ) : Stream σ :=
  { s with
    board := s.board.retold x
    response := if s.phase = .done then s.response else x.response }

variable (x : Telling σ) {s : Stream σ}

@[simp] theorem retold_board : (s.retold x).board = s.board.retold x := rfl

variable (β : Behaviour σ)

/-- A filter that is added finds the stream claimed. -/
theorem addFilter_retold (hc : s.board.claimed = true) (ho : s.board.owned = true)
    (r : Registration σ) :
    (s.retold x).addFilter β r = (s.addFilter β r).retold x := by
  have hintroduced := FilterSet.introduce_retold β x s.filters r hc ho
  simp only [addFilter, FilterSet.add]
  rw [retold_board, show (s.retold x).filters = s.filters from rfl, hintroduced]
  rfl

/-- **A release** lets go of the response. -/
theorem release_retold (hc : s.board.claimed = true) (ho : s.board.owned = true) (ending : Ending) :
    (s.retold x).release β (x.ending ending)
      = ((s.release β ending).1, (s.release β ending).2.retold x) := by
  rw [release_eq, release_eq]
  rw [show FilterSet.destroy β (s.retold x).filters (s.retold x).board = _
    from FilterSet.destroy_retold β x s.filters hc ho]
  dsimp only
  cases (s.filters.destroy β s.board).1 <;> rfl

/-- What a release leaves: a stream that is done. -/
theorem done_release (hc : s.board.claimed = true) (ho : s.board.owned = true) (ending : Ending) :
    let s' := (s.release β ending).2
    s'.pausedBy = none ∧ s'.board.claimed = true ∧ s'.board.owned = true ∧ s'.phase = .done := by
  intro s'
  obtain ⟨b, hstirred, hboard⟩ := stirred_release β ending ho
  have hkept : s'.board.claimed = true ∧ s'.board.owned = true := by
    rcases hboard
      with hboard | hboard <;> rw [hboard] <;> exact ⟨hstirred.claimed hc, hstirred.owned ho⟩
  have hs' : s' = (s.release β ending).2 := rfl
  rw [release_eq] at hs'
  exact ⟨by rw [hs']; rfl, hkept.1, hkept.2, by rw [hs']; rfl⟩

/-- **An ending at once**, if nobody claimed the stream before. -/
theorem finish_retold (hc : s.board.claimed = false) (ho : s.board.owned = true) (ending : Ending)
    (hf : (x.ending ending).isAbort = ending.isAbort) :
    (s.retold x).finish β (x.ending ending)
      = ((s.finish β ending).1, (s.finish β ending).2.retold x.cleared) := by
  have hclaimed : (s.board.claim ending).2.claimed = true := by rw [claim_of_unclaimed hc]
  have howned : (s.board.claim ending).2.owned = true := by
    rw [claim_of_unclaimed hc]
    exact ho
  have htold :
    ({ s.retold x with board := ((s.board.retold x).claim (x.ending ending)).2 } : Stream σ)
      = retold x.cleared { s with board := (s.board.claim ending).2 } := by
    rw [retold_claim x hc hf]
    rfl
  rw [finish_of_unclaimed β (s := s.retold x) hc, finish_of_unclaimed β hc, retold_board, htold]
  exact release_retold x.cleared β hclaimed howned ending

/-- Only how filters take their farewell counts for an ending. -/
theorem finish_congr {β β' : Behaviour σ} (h : β'.onDestroy = β.onDestroy) (ending : Ending)
    (s : Stream σ) :
    s.finish β' ending = s.finish β ending := by
  have hfrom {π : Type} := FilterSet.destroyFrom_congr (π := π) h
  simp only [finish, release, FilterSet.destroy, hfrom]

end Stream

/-! ## Lives -/

open FilterProxy.Stream Life

theorem Event.isReply_retold (f : Ending → Ending) (e : Event σ) :
    (e.retold f).isReply = e.isReply := by
  cases e with
  | stat s => cases s <;> rfl
  | _ => rfl

theorem Event.posting_retold (f : Ending → Ending) {older older' : List (Event σ)}
    (hhead : older'.head?.any Event.isReply = older.head?.any Event.isReply) (e : Event σ) :
    (e.retold f).posting? older' = e.posting? older := by
  cases e with
  | stat s => cases s <;> rfl
  | scheduled job => simp only [Event.retold, Event.posting?, hhead]
  | _ => rfl

/-- **The jobs put out** are the same, if those before are. -/
theorem posted_retold (f : Ending → Ending) {older older' : List (Event σ)}
    (hhead : older'.head?.any Event.isReply = older.head?.any Event.isReply)
    (hposted : posted older' = posted older)
    (later : List (Event σ)) : posted (later.map (Event.retold f) ++ older') = posted
    (later ++ older) := by
  induction later with
  | nil => exact hposted
  | cons e later ih =>
    have hlatest : (later.map (Event.retold f) ++ older').head?.any Event.isReply
        = (later ++ older).head?.any Event.isReply := by
      cases later with
      | nil => exact hhead
      | cons e' later => exact Event.isReply_retold f e'
    rw [List.map_cons, List.cons_append, List.cons_append, posted, posted, ih,
      Event.posting_retold f hlatest]

namespace Life

theorem survive_retold (x : Telling σ) (panic : Option Panic) (y : Stream σ) :
    survive panic (y.retold x) = (survive panic y).retold x := by cases panic <;> rfl

/-- **Two lives of one claimed stream**, told in two ways.  Unless the stream was released, both
tell its own ending. -/
structure Twice (x x' : Telling σ) (l l' : Life σ) : Prop where
  stream : ∃ y : Stream σ, l.stream = y.retold x ∧ l'.stream = y.retold x' ∧ y.pausedBy = none ∧
    y.board.claimed = true ∧ y.board.owned = true ∧
      (y.phase ≠ .done → x.ending = id ∧ x'.ending = id)
  ran : l'.ran = l.ran

/-- What a job that was run leaves. -/
def worked (p : Posting) (r : Option Panic × Turn σ ε) (l : Life σ) : Life σ :=
  { l with stream := survive r.1 r.2.stream, ran := p :: l.ran }

namespace Twice

variable {x x' : Telling σ} {l l' : Life σ}

/-- What is done to a board that is claimed, however it is told, is done in both. -/
theorem board (h : Twice x x' l l') {f : Board σ → Board σ}
    (hf : ∀ (x : Telling σ) (b : Board σ), b.claimed = true → b.owned = true →
      f (b.retold x) = (f b).retold x)
    (hkeeps : ∀ b : Board σ, b.claimed = true → b.owned = true → (f b).claimed = true ∧
      (f b).owned = true) :
    Twice x x' (l.become { l.stream with board := f l.stream.board })
      (l'.become { l'.stream with board := f l'.stream.board }) := by
  obtain ⟨y, hl, hl', hawake, hc, ho, hown⟩ := h.stream
  obtain ⟨hc', ho'⟩ := hkeeps y.board hc ho
  refine ⟨⟨{ y with board := f y.board }, ?_, ?_, hawake, hc', ho', hown⟩, h.ran⟩
  · rw [become_stream, hl]
    exact congrArg (fun b => { y.retold x with board := b }) (hf x y.board hc ho)
  · rw [become_stream, hl']
    exact congrArg (fun b => { y.retold x' with board := b }) (hf x' y.board hc ho)

theorem post (h : Twice x x' l l') (job : Job) : Twice x x' (l.post job) (l'.post job) :=
  h.board (f := (·.schedule job)) (fun x b _ _ => retold_schedule x b job) fun b hc ho => by
    rw [schedule_of_owned ho]
    exact ⟨hc, ho⟩

/-- A stream that is claimed is not ended again. -/
theorem terminate (h : Twice x x' l l') (ending : Ending) :
    Twice x x' (l.become (l.stream.terminate ending).2)
      (l'.become (l'.stream.terminate ending).2) := by
  refine h.board (f := fun b => (b.terminate ending).2) (fun x b hc _ => ?_) fun b hc ho => ?_
  · rw [terminate_of_claimed hc, terminate_of_claimed (b := b.retold x) hc]
  · rw [terminate_of_claimed hc]
    exact ⟨hc, ho⟩

/-- **The same jobs are due** in both. -/
theorem due_iff (h : Twice x x' l l') (ha : x.Agrees x') (p : Posting) : l'.Due p ↔ l.Due p := by
  obtain ⟨y, hl, hl', -⟩ := h.stream
  have hposted : posted l'.log = posted l.log := by
    rw [Life.log, Life.log, hl, hl', retold_board, retold_board, retold_log, retold_log]
    rw [posted_retold x'.ending ha.latest ha.posted, posted_retold x.ending rfl rfl]
  rw [Due, Due, h.ran, hposted]

/-- A job that is no release does nothing. -/
theorem idle (h : Twice x x' l l') {job : Job} (hj : ∀ ending, job ≠ .release ending) (p : Posting)
    (c : Surroundings σ ε) (env : ε) :
    Twice x x' (l.worked p (Turn.exec c job ⟨l.stream, env⟩))
      (l'.worked p (Turn.exec c job ⟨l'.stream, env⟩)) := by
  obtain ⟨y, hl, hl', hawake, hc, hlasts⟩ := h.stream
  have hleft (x : Telling σ) : (y.retold x).Left := ⟨hawake, .inl hc⟩
  rw [hl, hl', (hleft x).exec c env hj, (hleft x').exec c env hj]
  exact ⟨⟨y, rfl, rfl, hawake, hc, hlasts⟩, congrArg (p :: ·) h.ran⟩

/-- A release that is due comes before the stream was released, so that both tell its own ending. -/
theorem released (h : Twice x x' l l') (hd : l.stream.phase ≠ .done) (ending : Ending) (p : Posting)
    (c : Surroundings σ ε) (env : ε) :
      Twice x x' (l.worked p (Turn.exec c (.release ending) ⟨l.stream, env⟩))
      (l'.worked p (Turn.exec c (.release ending) ⟨l'.stream, env⟩)) := by
  obtain ⟨y, hl, hl', hawake, hc, ho, hown⟩ := h.stream
  obtain ⟨hid, hid'⟩ := hown (by rwa [hl] at hd)
  obtain ⟨hawake', hc', ho', hdone'⟩ := done_release c.behaviour hc ho ending
  have htold {x : Telling σ} (hid : x.ending = id) :
      survive ((y.retold x).release c.behaviour ending).1
        ((y.retold x).release c.behaviour ending).2
        = (survive (y.release c.behaviour ending).1 (y.release c.behaviour ending).2).retold x := by
    have hreleased := release_retold x c.behaviour hc ho ending
    rw [hid, id] at hreleased
    rw [hreleased, survive_retold]
  refine ⟨⟨survive (y.release c.behaviour ending).1 (y.release c.behaviour ending).2, ?_, ?_, ?_⟩,
    congrArg (p :: ·) h.ran⟩
  · rw [hl]
    exact htold hid
  · rw [hl']
    exact htold hid'
  · cases (y.release c.behaviour ending).1 <;> exact ⟨hawake', hc', ho', fun hd => absurd hdone' hd⟩

/-- **A job runs alike in both.** -/
theorem next_run (h : Twice x x' l l') (ha : x.Agrees x') (hreached : Reached none l) (p : Posting)
    (c : Surroundings σ ε) (env : ε) : Twice x x' (l.next (.run p c env))
    (l'.next (.run p c env)) := by
  by_cases hdue : l.Due p
  case neg =>
    rw [Life.next, Life.next, if_neg hdue, if_neg (mt (h.due_iff ha p).mp hdue)]
    exact h
  rw [Life.next, Life.next, if_pos hdue, if_pos ((h.due_iff ha p).mpr hdue)]
  by_cases hrelease : ∃ ending, p.job = .release ending
  case neg => exact h.idle (fun ending hj => hrelease ⟨ending, hj⟩) p c env
  obtain ⟨ending, hj⟩ := hrelease
  have hd : l.stream.phase ≠ .done := fun hd => (hreached.orderly.released hd).2 p ending hj hdue
  rw [hj]
  exact h.released hd ending p c env

/-- **Every deed is done to both**, but for direct runs. -/
theorem next_deed (h : Twice x x' l l') (ha : x.Agrees x') (hreached : Reached none l)
    (d : Deed σ ε) (hd : d.isDirect = false) : Twice x x' (l.next d) (l'.next d) := by
  cases d with
  | add β r =>
    obtain ⟨y, hl, hl', hawake, hc, ho, hown⟩ := h.stream
    have hstirred := FilterSet.stirred_introduce β y.filters ho r
    refine ⟨⟨y.addFilter β r, ?_, ?_, hawake, hstirred.claimed hc, hstirred.owned ho, hown⟩, h.ran⟩
    · rw [Life.next, become_stream, hl, addFilter_retold x β hc ho r]
    · rw [Life.next, become_stream, hl', addFilter_retold x' β hc ho r]
  | receive request => exact h.post _
  | resume => exact h.post _
  | terminate ending => exact h.terminate ending
  | act side filter index program =>
    refine h.board (f := fun b => (program.run filter index b).2)
      (fun x b hc ho => congrArg Prod.snd (program.run_retold x filter index hc ho)) fun b hc ho =>
        ?_
    have hstirred := stirred_run filter index program ho
    exact ⟨hstirred.claimed hc, hstirred.owned ho⟩
  | answer handover =>
    cases handover with
    | kept | dropped => exact h
    | responded m => exact h.post (.response m)
    | failed failure => exact h.terminate .hostFailure
  | direct c message convert => cases hd
  | run p c env => exact h.next_run ha hreached p c env

/-- **Whatever happens to the one life happens to the other.** -/
theorem foldl (ha : x.Agrees x') (more : List (Deed σ ε)) (hmore : ∀ d ∈ more, d.isDirect = false)
    (h : Twice x x' l l') (hreached : Reached none l) :
      Twice x x' (more.foldl next l) (more.foldl next l') := by
  induction more generalizing l l' with
  | nil => exact h
  | cons d more ih =>
    obtain ⟨hd, hmore⟩ := List.forall_mem_cons.mp hmore
    exact ih hmore (h.next_deed ha hreached d hd) (hreached.next_deed d)

end Twice

end Life

end FilterProxy

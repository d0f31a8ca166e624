import FilterProxy.Proofs.Cleanup
import FilterProxy.Proofs.Dealings
import FilterProxy.Proofs.Silence

/-!
# Proofs/Vacancy — what a stream holds once it is gone

A claim clears the board: no route, no reply, no replacement.  But handles go on working, and what
is left through them stays, for nobody comes to take it.  So **a stream that is gone stays as it was
iff nothing is left through its handles** (`Board.Leaving`, `vacant_iff`); only its route and the
names of route and host stand in any case.
-/

namespace FilterProxy

variable {σ ε : Type}

open Board FilterSet FilterProxy.Stream Life

/-! ## What handles leave -/

namespace Board

/-- Nothing is held for the stream. -/
structure Vacant (b : Board σ) : Prop where
  route : b.route = none
  reply : b.reply = none
  replaced : b.replaced = {}

/-- The same is held for the stream, and the same noted about it. -/
structure Holds (b b' : Board σ) : Prop where
  route : b'.route = b.route
  reply : b'.reply = b.reply
  replaced : b'.replaced = b.replaced
  info : b'.info = b.info

theorem Holds.trans {b b' b'' : Board σ} (h : b.Holds b') (h' : b'.Holds b'') : b.Holds b'' :=
  ⟨h'.route.trans h.route, h'.reply.trans h.reply, h'.replaced.trans h.replaced,
    h'.info.trans h.info⟩

theorem Holds.vacant_congr {b b' : Board σ} (h : b.Holds b') : b'.Vacant ↔ b.Vacant := by
  rcases h with ⟨hroute, hreply, hreplaced, -⟩
  constructor <;> rintro ⟨h₁, h₂, h₃⟩ <;> constructor <;> simp_all

/-- **Work that leaves something iff `P`.**  If it does the board is not vacant any more, and if it
does not the board holds what it held. -/
structure Leaving (P : Prop) (b b' : Board σ) : Prop where
  vacant : b'.Vacant ↔ b.Vacant ∧ ¬ P
  holds : ¬ P → b.Holds b'

namespace Leaving

variable {P Q : Prop} {b b' b'' : Board σ}

theorem of_holds (hP : ¬ P) (h : b.Holds b') : Leaving P b b' :=
  ⟨h.vacant_congr.trans (and_iff_left hP).symm, fun _ => h⟩

theorem refl (hP : ¬ P) (b : Board σ) : Leaving P b b := of_holds hP ⟨rfl, rfl, rfl, rfl⟩

theorem of_left (hP : P) (h : ¬ b'.Vacant) : Leaving P b b' :=
  ⟨iff_of_false h fun hn => hn.2 hP, fun hn => absurd hP hn⟩

/-- One piece of work or the other leaves something. -/
theorem trans (h : Leaving P b b') (h' : Leaving Q b' b'') : Leaving (P ∨ Q) b b'' where
  vacant := by rw [h'.vacant, h.vacant, not_or, and_assoc]
  holds hn := (h.holds fun hP => hn (.inl hP)).trans (h'.holds fun hQ => hn (.inr hQ))

/-- What holds the same leaves nothing… -/
theorem before (h : Leaving P b b') (h' : b'.Holds b'') : Leaving P b b'' :=
  ⟨h'.vacant_congr.trans h.vacant, fun hn => (h.holds hn).trans h'⟩

theorem after (h : Leaving P b' b'') (h' : b.Holds b') : Leaving P b b'' :=
  ⟨by rw [h.vacant, h'.vacant_congr], fun hn => h'.trans (h.holds hn)⟩

theorem congr (h : Leaving P b b') (hPQ : P ↔ Q) : Leaving Q b b' := propext hPQ ▸ h

/-- **What stayed as it was** was vacant, and nothing was left. -/
theorem stays_iff (h : Leaving P b b') : b'.Vacant ∧ b'.info = b.info ↔ b.Vacant ∧ ¬ P := by
  rw [← h.vacant]
  exact and_iff_left_of_imp fun hv => (h.holds (h.vacant.mp hv).2).info

end Leaving

end Board

/-- An action through a handle leaves something: a reply that is accepted, or a replacement. -/
def Action.Leaves {side : Side} (b : Board σ) : Action side → Prop
  | .reply _ _ => b.closed = false
  | .replaceHeaders _ | .replaceData _ | .replaceTrailers _ => True
  | .resume | .terminate => False

/-- A program leaves something on its way. -/
def Program.Leaves {α : Type} {side : Side} (filter : σ) (index : Nat) :
    Program side α → Board σ → Prop
  | .done _, _ => False
  | .act x rest, b => x.Leaves b ∨ rest.Leaves filter index (b.perform index x)
  | .look rest, b => (rest b.view).Leaves filter index (b.note (.looked side index filter b.view))

namespace FilterSet

variable (β : Behaviour σ)

/-- A filter of the chain leaves something when it is told that the stream is gone. -/
def LeavesFrom {π : Type} (side : Side) : Nat → Chain (Seated σ) π → Board σ → Prop
  | _, [], _ => False
  | index, e :: rest, b =>
    let f := e.filter
    (β.onDestroy f.filter side).Leaves f.filter f.seat (b.note (.destroyed side index f.filter)) ∨
      (farewell β side index e.filter b).1.panic = none ∧
        LeavesFrom side (index + 1) rest (farewell β side index e.filter b).2

/-- A filter leaves something when it is given its handle. -/
def LeavesIntro (s : FilterSet σ) (b : Board σ) (r : Registration σ) : Prop :=
  (β.onAdd r.filter b.context.id r.side).Leaves r.filter (s.size r.side)
    (b.note (.added r.side (s.size r.side) r.filter))

/-- **A filter of the set leaves something** when it is told, up to the first that panics. -/
def Leaves (s : FilterSet σ) (b : Board σ) : Prop :=
  LeavesFrom β .request 0 s.requests b ∨ (destroyFrom β .request 0 s.requests b).1 = none ∧
    LeavesFrom β .response 0 s.responses (destroyFrom β .request 0 s.requests b).2.2

end FilterSet

/-! ## Work on a claimed board -/

section

variable {b : Board σ}

theorem leaving_perform {side : Side} (hc : b.claimed = true) (ho : b.owned = true) (index : Nat)
    (x : Action side) : Leaving (x.Leaves b) b (b.perform index x) := by
  cases x with
  | reply code headers =>
    cases hclosed : b.closed with
    | true =>
      refine .of_holds (by simp [Action.Leaves, hclosed]) ?_
      simp only [perform, raise, hclosed]
      exact ⟨rfl, rfl, rfl, rfl⟩
    | false =>
      refine .of_left hclosed fun hv => ?_
      have hreply := hv.reply
      simp [perform, raise, hclosed, schedule, ho, Board.note] at hreply
  | replaceHeaders h =>
    exact .of_left trivial fun hv => absurd (congrArg Replaced.headers hv.replaced)
      (Option.some_ne_none _)
  | replaceData d =>
    exact .of_left trivial fun hv => absurd (congrArg Replaced.data hv.replaced)
      (Option.some_ne_none _)
  | replaceTrailers t =>
    exact .of_left trivial fun hv => absurd (congrArg Replaced.trailers hv.replaced)
      (Option.some_ne_none _)
  | resume =>
    refine .of_holds id ?_
    simp only [perform, schedule, ho, if_true]
    exact ⟨rfl, rfl, rfl, rfl⟩
  | terminate =>
    refine .of_holds id ?_
    simp only [perform, ho, if_true, terminate_of_claimed hc]
    exact ⟨rfl, rfl, rfl, rfl⟩

/-- **A program on a claimed board** leaves something iff one of its actions does. -/
theorem leaving_run {α : Type} {side : Side} (filter : σ) (index : Nat) (program : Program side α)
    (hc : b.claimed = true) (ho : b.owned = true) :
    Leaving (program.Leaves filter index b) b (program.run filter index b).2 := by
  induction program generalizing b with
  | done a => exact .refl id b
  | act x rest ih =>
    have hmoves := moves_perform index x ho
    exact (leaving_perform hc ho index x).trans (ih (hmoves.claimed hc) (hmoves.owned.trans ho))
  | look rest ih =>
    have hlooked := ih b.view (b := b.note (.looked side index filter b.view)) hc ho
    exact hlooked.after ⟨rfl, rfl, rfl, rfl⟩

/-- So does a filter that is given its handle… -/
theorem leaving_introduce (β : Behaviour σ) (s : FilterSet σ) (r : Registration σ)
    (hc : b.claimed = true)
    (ho : b.owned = true) : Leaving (s.LeavesIntro β b r) b (s.introduce β b r).2 :=
  (leaving_run r.filter (s.size r.side) _ (b := b.note (.added r.side (s.size r.side) r.filter))
    hc ho).after
    ⟨rfl, rfl, rfl, rfl⟩

/-- …and so does the farewell to one. -/
theorem leaving_farewell (β : Behaviour σ) (side : Side) (index : Nat) (f : Seated σ)
    (hc : b.claimed = true) (ho : b.owned = true) :
    Leaving ((β.onDestroy f.filter side).Leaves f.filter f.seat
      (b.note (.destroyed side index f.filter))) b
      (farewell β side index f b).2 :=
  (leaving_run f.filter f.seat _ (b := b.note (.destroyed side index f.filter)) hc ho).after
    ⟨rfl, rfl, rfl, rfl⟩

theorem leaving_destroyFrom {π : Type} (β : Behaviour σ) (side : Side) :
    ∀ (index : Nat) (chain : Chain (Seated σ) π) (b : Board σ), b.claimed = true → b.owned = true →
      Leaving (LeavesFrom β side index chain b) b (destroyFrom β side index chain b).2.2
  | _, [], b, _, _ => .refl id b
  | index, e :: rest, b, hc, ho => by
    have hfirst := leaving_farewell β side index e.filter hc ho
    have htold := told_farewell β side index e.filter b
    have hmoves := htold.moves (fun _ => Event.isQuiet_of_inFarewell) ho
    unfold destroyFrom LeavesFrom
    dsimp only
    split
    case h_1 p hp =>
      have hp : (farewell β side index e.filter b).1.panic = some p := hp
      exact hfirst.congr (by simp [hp])
    case h_2 hp =>
      have hp : (farewell β side index e.filter b).1.panic = none := hp
      have hrest := leaving_destroyFrom β side (index + 1) rest (farewell β side index e.filter b).2
        (hmoves.claimed hc) (hmoves.owned.trans ho)
      exact (hfirst.trans hrest).congr (by simp [hp])

/-- **A round of farewells** leaves something iff a filter does. -/
theorem leaving_destroy (β : Behaviour σ) (s : FilterSet σ) (hc : b.claimed = true)
    (ho : b.owned = true) : Leaving (s.Leaves β b) b (destroy β s b).2.2 := by
  have hrequests := leaving_destroyFrom β .request 0 s.requests b hc ho
  obtain ⟨count, hround⟩ := round_destroyFrom β .request 0 s.requests b ho
  have hmoves := hround.moves ho
  unfold destroy FilterSet.Leaves
  dsimp only
  split
  case h_1 p hp => exact hrequests.congr (by simp [hp])
  case h_2 hp =>
    have hresponses := leaving_destroyFrom β .response 0 s.responses
      (destroyFrom β .request 0 s.requests b).2.2 (hmoves.claimed hc) (hmoves.owned.trans ho)
    exact (hrequests.trans hresponses).congr (by simp [hp])

theorem leaving_release (β : Behaviour σ) (ending : Ending) {s : Stream σ}
    (hc : s.board.claimed = true) (ho : s.board.owned = true) :
    Leaving (s.filters.Leaves β s.board) s.board (s.release β ending).2.board := by
  have hdestroy := leaving_destroy β s.filters hc ho
  rw [release_eq]
  cases (s.filters.destroy β s.board).1 with
  | some p => exact hdestroy
  | none => exact hdestroy.before ⟨rfl, rfl, rfl, rfl⟩

theorem holds_survive (panic : Option Panic) (s : Stream σ) :
    s.board.Holds (survive panic s).board := by cases panic <;> exact ⟨rfl, rfl, rfl, rfl⟩

end

/-! ## Deeds on a claimed stream -/

namespace Life

/-- The deed leaves something with a stream that is claimed: through the handle of a filter that is
added, through a kept one, or in the farewells. -/
def Leaves (l : Life σ) : Deed σ ε → Prop
  | .add β r => l.stream.filters.LeavesIntro β l.stream.board r
  | .act _ filter index program => program.Leaves filter index l.stream.board
  | .run p c _ => (l.Due p ∧ ∃ ending, p.job = .release ending) ∧
      l.stream.filters.Leaves c.behaviour l.stream.board
  | _ => False

/-- Some deed leaves something, when it happens. -/
def LeavesAmong (l : Life σ) : List (Deed σ ε) → Prop
  | [] => False
  | d :: more => l.Leaves d ∨ (l.next d).LeavesAmong more

end Life

namespace Reached

variable {l : Life σ}

/-- A job that is run on a claimed stream is nothing or the release. -/
theorem run_of_claimed (hc : l.stream.board.claimed = true) (p : Posting) (c : Surroundings σ ε)
    (env : ε) : (¬ (l.Due p ∧ ∃ ending, p.job = .release ending) ∧
        (l.next (.run p c env)).stream = l.stream) ∨
      ∃ ending, (l.Due p ∧ p.job = .release ending) ∧ (l.next (.run p c env)).stream
        = Life.survive (l.stream.release c.behaviour ending).1
            (l.stream.release c.behaviour ending).2 := by
  by_cases hp : l.Due p
  case neg => exact .inl ⟨fun h => hp h.1, by rw [Life.next, if_neg hp]⟩
  by_cases hj : ∃ ending, p.job = .release ending
  · obtain ⟨ending, hj⟩ := hj
    refine .inr ⟨ending, ⟨hp, hj⟩, ?_⟩
    rw [Life.next, if_pos hp, hj]
    rfl
  · have hidle : Turn.exec c p.job ⟨l.stream, env⟩ = (none, ⟨l.stream, env⟩) :=
      Turn.exec_of_claimed c hc fun ending hj' => hj ⟨ending, hj'⟩
    refine .inl ⟨fun h => hj h.2, ?_⟩
    rw [Life.next, if_pos hp, hidle]
    rfl

/-- **Every deed on a claimed stream is framed.** -/
theorem frame_next (h : Reached none l) (hc : l.stream.board.claimed = true) (d : Deed σ ε) :
    l.stream.board.Frame Event.Framed (l.next d).stream.board := by
  have ho := h.orderly.books.owned
  by_cases hrun : ∃ p c env, d = .run p c env
  · obtain ⟨p, c, env, rfl⟩ := hrun
    rcases run_of_claimed hc p c env with ⟨-, hs⟩ | ⟨ending, -, hs⟩
    · rw [hs]; exact .refl _
    · rw [hs]
      exact ((Beside.release c.behaviour ending ho hc).trans (.survive _ _)).board
  · exact (l.beside_next ho d fun p c env hd => hrun ⟨p, c, env, hd⟩).1.board

/-- **A deed leaves something with a claimed stream** as told. -/
theorem leaving_next (h : Reached none l) (hc : l.stream.board.claimed = true) (d : Deed σ ε)
    (hd : d.isDirect = false) : Leaving (l.Leaves d) l.stream.board (l.next d).stream.board := by
  have ho := h.orderly.books.owned
  have scheduled (job : Job) : Leaving False l.stream.board (l.stream.board.schedule job) := by
    rw [schedule_of_owned ho]
    exact .of_holds id ⟨rfl, rfl, rfl, rfl⟩
  have terminated (ending : Ending) :
      Leaving False l.stream.board (l.stream.terminate ending).2.board := by
    rw [Stream.terminate, terminate_of_claimed hc]
    exact .refl id _
  cases d with
  | add β r => exact leaving_introduce β l.stream.filters r hc ho
  | receive request => exact scheduled _
  | resume => exact scheduled _
  | terminate ending => exact terminated ending
  | act side filter index program => exact leaving_run filter index program hc ho
  | answer x =>
    cases x with
    | kept => exact .refl id _
    | dropped => exact .refl id _
    | responded m => exact scheduled _
    | failed failure => exact terminated _
  | direct => cases hd
  | run p c env =>
    rcases run_of_claimed hc p c env with ⟨hidle, hs⟩ | ⟨ending, ⟨hp, hj⟩, hs⟩
    · rw [hs]
      exact .refl (fun hleaves => hidle hleaves.1) _
    · rw [hs]
      refine ((leaving_release c.behaviour ending hc ho).before (holds_survive _ _)).congr ?_
      exact (and_iff_right ⟨hp, ending, hj⟩).symm

/-- …and so do deeds one after the other. -/
theorem leaving_foldl (more : List (Deed σ ε)) (h : Reached none l)
    (hc : l.stream.board.claimed = true) (hmore : ∀ d ∈ more, d.isDirect = false) :
    Leaving (l.LeavesAmong more) l.stream.board (more.foldl Life.next l).stream.board := by
  induction more generalizing l with
  | nil => exact .refl id _
  | cons d more ih =>
    obtain ⟨hd, hmore⟩ := List.forall_mem_cons.mp hmore
    exact (h.leaving_next hc d hd).trans (ih (h.next_deed d) ((h.frame_next hc d).claimed hc) hmore)

theorem frame_foldl (more : List (Deed σ ε)) (h : Reached none l)
    (hc : l.stream.board.claimed = true) :
    l.stream.board.Frame Event.Framed (more.foldl Life.next l).stream.board := by
  induction more generalizing l with
  | nil => exact .refl _
  | cons d more ih =>
    have hframe := h.frame_next hc d
    exact hframe.trans (ih (h.next_deed d) (hframe.claimed hc))

end Reached

/-! ## The route of a claimed stream -/

/-- Framed work on a board that nobody claimed leaves it without a route, if it claims it. -/
theorem Board.Frame.unrouted {A : Event σ → Prop} {b b' : Board σ} (h : Frame A b b')
    (hc : b.claimed = true → b.route = none) (hc' : b'.claimed = true) : b'.route = none := by
  rcases h.route with ⟨hsame, hroute⟩ | ⟨-, hgone⟩
  · exact hroute.trans (hc (hsame.symm.trans hc'))
  · exact hgone

/-- A phase that claims the stream takes its route away. -/
theorem Stream.Deals.unrouted {c : Surroundings σ ε} {env : ε} {k : Nat} {s s' : Stream σ}
    {step : Step} (h : s.Deals c env k step s') (ho : s.board.owned = true) (hl : s.Live)
    (hc : s'.board.claimed = true) : s'.board.route = none := by
  have hlive : ∀ b : Board σ, b.claimed = s.board.claimed → b.claimed = true → b.route = none :=
    fun b hb hc => absurd (hl.unclaimed.symm.trans (hb.symm.trans hc)) nofun
  cases h with
  | apart hp h => exact (Quiet.of_settles h).board.unrouted (hlive _ rfl) hc
  | @filters _ _ point hp h =>
    have hpassed := (frame_passed c.behaviour point k ho).unrouted (hlive _ rfl)
    exact (Quiet.of_settles h).board.unrouted hpassed hc
  | forwarded hp hh h => exact h.board.unrouted (hlive _ rfl) hc
  | written hp h => exact h.board.unrouted (hlive _ rfl) hc
  | _ => exact hlive _ rfl hc

/-- **A claimed stream has no route.** -/
theorem carries_unrouted (A : Surroundings σ ε → Nat → Turn σ ε → Prop) (settings : Settings) :
    Carries A settings fun _ l => l.stream.board.claimed = true → l.stream.board.route = none where
  fresh id := nofun
  beside _ hl hb _ := hb.board.unrouted hl
  spent _ hl _ hb _ := hb.board.unrouted hl
  opened _ _ _ ho hc := absurd (ho.unclaimed.symm.trans (ho.claimed_eq.symm.trans hc)) nofun
  halt _ hl _ := hl
  executed {l c env k step t' start s} h _ hlive _ hx hs hc := by
    have ho := h.orderly.books.owned
    have hdeals := Turn.deals_execute c k (t := ⟨l.stream, env⟩) ho
    rw [hx] at hdeals
    have hunrouted := hdeals.unrouted ho hlive
    cases hs <;> exact hunrouted hc

/-! ## Streams that are gone -/

theorem Orderly.claimed_of_finished {l : Life σ} (h : Orderly l) {r : Ending}
    (hr : l.stream.board.status = .finished r) : l.stream.board.claimed = true := by
  have hclaims := (h.cleanup.finished r (.inr hr)).1
  rcases h.cleanup.claims with ⟨-, hnone⟩ | ⟨hc, -⟩
  · cases hclaims.symm.trans hnone
  · exact hc

/-- **A finished stream stays empty and as it was iff it was empty and no handle leaves anything.**
Whatever else happens, it has no route, and the names of its route and of its host stand.  And a
release leaves the stream empty iff it was and no filter leaves anything when it is told. -/
theorem vacant_iff (id : StreamId) (settings : Settings) (deeds : List (Deed σ ε)) :
    let l := after id settings deeds
    (∀ r, l.stream.board.status = .finished r → ∀ more : List (Deed σ ε),
      let l' := more.foldl Life.next l
      (l'.stream.board.route = none ∧ l'.stream.board.info.route = l.stream.board.info.route ∧
        l'.stream.board.info.host = l.stream.board.info.host) ∧
      ((∀ d ∈ more, d.isDirect = false) →
        (l'.stream.board.Vacant ∧ l'.stream.board.info = l.stream.board.info ↔
          l.stream.board.Vacant ∧ ¬ l.LeavesAmong more))) ∧
    ∀ (d : Deed σ ε) β s r, l.Releases d β s r →
      ((l.next d).stream.board.Vacant ↔ s.board.Vacant ∧ ¬ s.filters.Leaves β s.board) := by
  intro l
  have h : Reached none l := reached_after id settings deeds
  have hroute : l.stream.board.claimed = true → l.stream.board.route = none :=
    (carries_unrouted _ settings).after
  refine ⟨fun r hr more => ?_, fun d β s r hreleases => ?_⟩
  · have hc := h.orderly.claimed_of_finished hr
    have hframe := h.frame_foldl more hc
    exact ⟨⟨hframe.unrouted hroute (hframe.claimed hc), hframe.named⟩,
      fun hmore => (h.leaving_foldl more hc hmore).stays_iff⟩
  · obtain ⟨panic, hs⟩ := hreleases.result
    have hcondemned := hreleases.condemned
    rw [hs, (holds_survive panic _).vacant_congr]
    exact (leaving_release β r hcondemned.claimed hcondemned.books.owned).vacant

/-- A request filter waits in a stream that is shut down and released. -/
def shutDownAndReleased : List (Deed Unit Unit) :=
  [.add passing (.request () .beforeRoute), .terminate .shutdown,
    .run ⟨.release .shutdown, false⟩ (.secluded passing) ()]

/-- **A reply is left behind with a finished stream**, and its code is noted: the filter uses the
handle it kept. -/
theorem reply_left_behind :
    let l := after ⟨1⟩ {} shutDownAndReleased
    let l' := l.next (.act .request () 0 (.act (.reply 403 {}) (.done ())) : Deed Unit Unit)
    l.stream.board.status = .finished .shutdown ∧ l.stream.board.Vacant ∧
      l.stream.board.info.code = none ∧ l'.stream.board.status = .finished .shutdown ∧
      l'.stream.board.reply = some (replyMessage 403 {}) ∧
      l'.stream.board.info.code = some 403 := by
  refine ⟨by decide +kernel, ⟨?_, ?_, ?_⟩, ?_, ?_, ?_, ?_⟩ <;> decide +kernel

end FilterProxy

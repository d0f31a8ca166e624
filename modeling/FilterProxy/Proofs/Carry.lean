import FilterProxy.Proofs.Board.Frame
import FilterProxy.Proofs.Lived
import Mathlib.Data.List.Induction

/-!
# Proofs/Carry — what is carried through a life

Most of what happens to a stream happens **beside** its phases (`Stream.Beside`): nothing is routed,
chosen or forwarded, and the stream stands where it stood unless it is ended.  All else is phases,
executed as they are.  So **what is carried on beside the phases and through each phase holds
throughout every life** (`Carries.after`, `Carries.acts`).
-/

namespace FilterProxy

variable {σ ε : Type}

open Board FilterSet FilterProxy.Stream Life

/-- An answer of the transport is framed. -/
theorem Turn.frame_answer (s : Stream σ) (x : Handover) :
    s.board.Frame Event.Apart (Turn.answer s x).board := by
  cases x with
  | kept => exact .refl s.board
  | dropped => exact .refl s.board
  | responded m => exact frame_schedule ⟨⟨rfl, rfl⟩, rfl, rfl⟩
  | failed failure =>
    exact frame_terminate _ (fun _ => Event.apart_of_mem_claimEvents) ⟨⟨rfl, rfl⟩, rfl, rfl⟩

/-! ## Beside the phases -/

/-- **A stream stays where it stands**, and on its board only framed work is done. -/
structure Stream.Stays (s s' : Stream σ) : Prop where
  board : s.board.Frame Event.Apart s'.board
  settings : s'.settings = s.settings
  generation : s'.generation = s.generation
  phase : s'.phase = s.phase
  pausedBy : s'.pausedBy = s.pausedBy
  host : s'.host = s.host
  request : s'.request = s.request

namespace Stream.Stays

variable {s s' s'' : Stream σ}

theorem of_board {b : Board σ} (h : s.board.Frame Event.Apart b) : s.Stays { s with board := b } :=
  ⟨h, rfl, rfl, rfl, rfl, rfl, rfl⟩

theorem refl (s : Stream σ) : s.Stays s := of_board (.refl s.board)

theorem trans (h : s.Stays s') (h' : s'.Stays s'') : s.Stays s'' :=
  ⟨h.board.trans h'.board, h'.settings.trans h.settings, h'.generation.trans h.generation,
    h'.phase.trans h.phase, h'.pausedBy.trans h.pausedBy, h'.host.trans h.host,
    h'.request.trans h.request⟩

theorem note (s : Stream σ) {e : Event σ} (he : e.Apart) : s.Stays (s.note e) :=
  of_board (frame_note he)

theorem noteAbort (s : Stream σ) (cause : Abort) : s.Stays (s.noteAbort cause) := by
  cases cause with
  | verdict => exact .refl s
  | panic => exact note s ⟨⟨rfl, rfl⟩, rfl, rfl⟩

theorem answer (s : Stream σ) (x : Handover) : s.Stays (Turn.answer s x) := by
  have hframe := Turn.frame_answer s x
  cases x with
  | kept => exact .refl s
  | dropped => exact .refl s
  | responded m => exact of_board hframe
  | failed failure => exact of_board hframe

end Stream.Stays

/-- **What happens to a stream beside its phases**: it stays where it stands, unless it is ended. -/
structure Stream.Beside (s s' : Stream σ) : Prop where
  board : s.board.Frame Event.Framed s'.board
  stays : s'.board.claimed = false → s.Stays s'

namespace Stream.Beside

variable {s s' s'' : Stream σ}

theorem of_stays (h : s.Stays s') : s.Beside s' :=
  ⟨h.board.mono fun _ => Event.Apart.toFramed, fun _ => h⟩

theorem of_board {b : Board σ} (h : s.board.Frame Event.Apart b) : s.Beside { s with board := b } :=
  of_stays (.of_board h)

theorem refl (s : Stream σ) : s.Beside s := of_stays (.refl s)

theorem trans (h : s.Beside s') (h' : s'.Beside s'') : s.Beside s'' where
  board := h.board.trans h'.board
  stays hc := (h.stays (h'.board.unclaimed hc)).trans (h'.stays hc)

theorem survive (panic : Option Panic) (s : Stream σ) : s.Beside (Life.survive panic s) := by
  cases panic with
  | none => exact .refl s
  | some p => exact of_stays (.note s ⟨⟨rfl, rfl⟩, rfl, rfl⟩)

/-- The release of a claimed stream lets go of all that was to stay. -/
theorem release (β : Behaviour σ) (ending : Ending) (ho : s.board.owned = true)
    (hc : s.board.claimed = true) : s.Beside (s.release β ending).2 := by
  have hframe : s.board.Frame Event.Framed (s.filters.destroy β s.board).2.2 :=
    (frame_destroy β s.filters s.board ho).mono fun _ => Event.Apart.toFramed
  refine ⟨?_, fun hn => ?_⟩
  · rw [release_eq]
    cases (s.filters.destroy β s.board).1 with
    | some p => exact hframe
    | none => exact hframe.trans (frame_publish ⟨rfl, rfl⟩)
  · rw [claimed_release β ending ho hc] at hn
    cases hn

/-- **An ending is nothing but a claim and a release**, unless somebody claimed the stream
before. -/
theorem finish (β : Behaviour σ) (ending : Ending) (ho : s.board.owned = true) :
    s.Beside (s.finish β ending).2 := by
  cases hc : s.board.claimed with
  | true => rw [finish_of_claimed β hc]; exact .refl s
  | false =>
    have hclaim : s.board.Frame Event.Apart (s.board.claim ending).2 :=
      frame_claim ending fun _ => Event.apart_of_mem_claimEvents
    rw [finish_of_unclaimed β hc]
    exact (of_board hclaim).trans
      (release β ending (hclaim.owned.trans ho) (by simp [claim_of_unclaimed hc]))

theorem runResponseFilters (β : Behaviour σ) (message : Message) (convert : Converter)
    (ho : s.board.owned = true) :
    s.Beside (s.runResponseFilters β .beforeSend message convert).2 := by
  have hframe := frame_passResponses β .beforeSend 0 convert s.filters
    ⟨s.board, message.parts⟩ ho
  rw [runResponseFilters_eq β message convert rfl]
  generalize passResponses β .beforeSend 0 convert s.filters ⟨s.board, message.parts⟩ = r at hframe
  have hpass : s.Beside { s with
      filters := r.filters, board := r.bench.board, response := r.bench.parts.message } :=
    .of_stays ⟨hframe, rfl, rfl, rfl, rfl, rfl, rfl⟩
  split
  case h_1 cause _ =>
    have hnoted := hpass.trans (of_stays (.noteAbort _ cause))
    exact hnoted.trans (finish β cause.ending (hnoted.board.owned.trans ho))
  case h_2 => exact hpass

end Stream.Beside

/-- **A deed that runs no job** happens beside the phases. -/
theorem Life.beside_next (l : Life σ) (ho : l.stream.board.owned = true) (d : Deed σ ε)
    (hd : ∀ p c env, d ≠ .run p c env) :
    l.stream.Beside (l.next d).stream ∧ (l.next d).ran = l.ran := by
  cases d with
  | add β r =>
    exact ⟨.of_stays ⟨frame_introduce β l.stream.filters r ho, rfl, rfl, rfl, rfl, rfl, rfl⟩, rfl⟩
  | receive request => exact ⟨.of_board (frame_schedule ⟨⟨rfl, rfl⟩, rfl, rfl⟩), rfl⟩
  | resume => exact ⟨.of_board (frame_schedule ⟨⟨rfl, rfl⟩, rfl, rfl⟩), rfl⟩
  | terminate ending =>
    exact ⟨.of_board (frame_terminate ending (fun _ => Event.apart_of_mem_claimEvents)
      ⟨⟨rfl, rfl⟩, rfl, rfl⟩), rfl⟩
  | act side filter index program => exact ⟨.of_board (frame_run filter index program ho), rfl⟩
  | answer x => exact ⟨.of_stays (.answer l.stream x), rfl⟩
  | direct c message convert => exact ⟨.runResponseFilters c.behaviour message convert ho, rfl⟩
  | run p c env => exact absurd rfl (hd p c env)

/-! ## Carrying on -/

/-- **Where a phase that came to `step` takes the stream**: about to execute the next one with all
filters, or to rest. -/
inductive Stream.Proceeds (s : Stream σ) : Step → Option Nat → Stream σ → Prop
  | next : Proceeds s .next (some 0) s.advanced
  | goto {q} : Proceeds s (.goto q) (some 0) { s with phase := q }
  | jump {q rest} (hj : s.jumpsLeft = rest + 1) : Proceeds s (.jump q) (some 0) (s.jumped q rest)
  | stay {step} (hstep : step.isLast) : Proceeds s step none s

/-- **In the course of the deed** a turn comes in which the stream executes its phase in these
surroundings, with the filters from a position on. -/
inductive Life.Turns (l : Life σ) : Deed σ ε → Surroundings σ ε → Nat → Turn σ ε → Prop
  | intro {p c env start s k t} (hp : l.Due p) (ho : l.stream.Opens p.job start s)
      (hs : Relation.ReflTransGen (Turn.Stride c) (start, ⟨s, env⟩) (k, t)) (hl : t.stream.Live) :
      Turns l (.run p c env) c k t

/-- **In the course of these deeds** such a turn comes. -/
inductive Life.Acts (id : StreamId) (settings : Settings) (deeds : List (Deed σ ε)) :
    Surroundings σ ε → Nat → Turn σ ε → Prop
  | intro {before d more c k t} (hd : deeds = before ++ d :: more)
      (ht : (after id settings before).Turns d c k t) : Acts id settings deeds c k t

/-- **What is carried on** by everything that happens to streams with these settings, whose phases
are executed as `A` has it: beside the phases and through each of them. -/
structure Carries (A : Surroundings σ ε → Nat → Turn σ ε → Prop) (settings : Settings)
    (P : Option Nat → Life σ → Prop) : Prop where
  fresh : ∀ id, P none (.fresh id settings)
  beside : ∀ {l l'}, Reached none l → P none l → l.stream.Beside l'.stream →
    l'.ran = l.ran → P none l'
  /-- A job is run that does not concern the stream, or that ends it. -/
  spent : ∀ {l s p}, Reached none l → P none l → l.Due p → l.stream.Beside s →
    (l.stream.Ignores p.job ∨ s.board.claimed = true) →
    P none { l with stream := s, ran := p :: l.ran }
  opened : ∀ {l p k s}, Reached none l → P none l → l.Due p → l.stream.Opens p.job k s →
    P (some k) { l with stream := s, ran := p :: l.ran }
  halt : ∀ {k l}, Reached (some k) l → P (some k) l → l.stream.board.claimed = true → P none l
  executed : ∀ {l c env k step t' start s}, Reached (some k) l → P (some k) l → l.stream.Live →
    A c k ⟨l.stream, env⟩ → Turn.execute c k ⟨l.stream, env⟩ = (step, t') →
    t'.stream.Proceeds step start s → P start (l.become s)

namespace Carries

variable {A : Surroundings σ ε → Nat → Turn σ ε → Prop} {settings : Settings}
  {P : Option Nat → Life σ → Prop} {l : Life σ} {c : Surroundings σ ε}

/-- What a drive passes through carries on. -/
theorem strides (hP : Carries A settings P) {x y : Nat × Turn σ ε}
    (hA : ∀ z, Relation.ReflTransGen (Turn.Stride c) x z → z.2.stream.Live → A c z.1 z.2)
    (h : Reached (some x.1) (l.become x.2.stream)) (hx : P (some x.1) (l.become x.2.stream))
    (hs : Relation.ReflTransGen (Turn.Stride c) x y) :
    Reached (some y.1) (l.become y.2.stream) ∧ P (some y.1) (l.become y.2.stream) := by
  induction hs with
  | refl => exact ⟨h, hx⟩
  | tail hz hs ih =>
    obtain ⟨h, ih⟩ := ih
    have ho := h.orderly.books.owned
    have hA := hA _ hz hs.live
    cases hs with
    | @next k t t' hl hx =>
      obtain ⟨new, is, hexec⟩ := Turn.executed_execute hl ho hx
      rw [Turn.advance_of_executed hexec]
      exact ⟨h.next hl hexec, hP.executed (l := l.become t.stream) h ih hl hA hx .next⟩
    | @goto k t t' q hl hx =>
      obtain ⟨new, is, hexec⟩ := Turn.executed_execute hl ho hx
      exact ⟨h.goto hl hexec, hP.executed (l := l.become t.stream) h ih hl hA hx .goto⟩
    | @jump k t t' q rest hl hx hj =>
      obtain ⟨new, is, hexec⟩ := Turn.executed_execute hl ho hx
      exact ⟨h.jump hl hexec hj, hP.executed (l := l.become t.stream) h ih hl hA hx (.jump hj)⟩

/-- What a drive leaves carries on. -/
theorem drives (hP : Carries A settings P) {x : Nat × Turn σ ε} {r : Option Panic × Turn σ ε}
    (hA : ∀ z, Relation.ReflTransGen (Turn.Stride c) x z → z.2.stream.Live → A c z.1 z.2)
    (h : Reached (some x.1) (l.become x.2.stream)) (hx : P (some x.1) (l.become x.2.stream))
    (hd : Turn.Drives c x r) : P none (l.become (survive r.1 r.2.stream)) := by
  obtain ⟨y, hs, hstop⟩ := hd
  obtain ⟨hy, hPy⟩ := hP.strides hA h hx hs
  have hA := hA y hs
  have stayed {k : Nat} {t t' : Turn σ ε} {step : Step} (hy : Reached (some k) (l.become t.stream))
      (hPy : P (some k) (l.become t.stream)) (hl : t.stream.Live) (hA : A c k t)
      (ht : t.execute c k = (step, t')) (hstep : step.isLast) :
      Reached none (l.become t'.stream) ∧ P none (l.become t'.stream) := by
    obtain ⟨new, is, hexec⟩ := Turn.executed_execute hl hy.orderly.books.owned ht
    exact ⟨hy.stay hl hexec hstep,
      hP.executed (l := l.become t.stream) hy hPy hl hA ht (.stay hstep)⟩
  have ended {t' : Turn σ ε} (hs : Reached none (l.become t'.stream) ∧ P none (l.become t'.stream))
      (ending : Ending) : P none (l.become (survive (t'.stream.finish c.behaviour ending).1
        (t'.stream.finish c.behaviour ending).2)) :=
    hP.beside (l := l.become t'.stream) hs.1 hs.2
      ((Beside.finish c.behaviour ending hs.1.orderly.books.owned).trans (.survive _ _)) rfl
  cases hstop with
  | halt hstop =>
    rcases hstop with hc | hd
    · exact hP.halt hy hPy hc
    · exact absurd hd hy.poised.1
  | rest hl ht => exact (stayed hy hPy hl (hA hl) ht rfl).2
  | finish hl ht => exact ended (stayed hy hPy hl (hA hl) ht rfl) _
  | overrun hl ht hj => exact ended (stayed hy hPy hl (hA hl) ht rfl) _
  | @escape k t t' p hl ht =>
    obtain ⟨hs, hPs⟩ := stayed hy hPy hl (hA hl) ht rfl
    exact hP.beside (l := l.become t'.stream) hs hPs (.survive (some p) _) rfl

/-- A job that has the stream driven. -/
theorem reached_opened (h : Reached none l) {p : Posting} {k : Nat} {s : Stream σ} (hp : l.Due p)
    (ho : l.stream.Opens p.job k s) : Reached (some k) { l with stream := s, ran := p :: l.ran } :=
  (h.take hp fun ending hj => by rw [hj] at ho; cases ho).opened ho

theorem next_run (hP : Carries A settings P) (h : Reached none l) (hl : P none l) (p : Posting)
    (c : Surroundings σ ε) (env : ε) (hA : ∀ c' k t, l.Turns (.run p c env) c' k t → A c' k t) :
    P none (l.next (.run p c env)) := by
  by_cases hp : l.Due p
  case neg => rw [Life.next, if_neg hp]; exact hl
  rw [Life.next, if_pos hp]
  have ho := h.orderly.books.owned
  have hran := Turn.ran_exec c ⟨l.stream, env⟩ p.job
  generalize Turn.exec c p.job ⟨l.stream, env⟩ = r at hran
  rcases p with ⟨job, byReply⟩
  dsimp only at hran
  cases hran with
  | idle hi => exact hP.spent h hl hp (.refl _) (.inl hi)
  | @drive _ k s hopens =>
    have hopened := reached_opened h hp hopens
    exact hP.drives (x := (k, ⟨s, env⟩)) (l := { l with stream := s, ran := _ :: l.ran })
      (fun _ hz hlive => hA _ _ _ (.intro hp hopens hz hlive)) hopened (hP.opened h hl hp hopens)
      (Turn.drives_drive c k ⟨s, env⟩ hopened.orderly.books.owned)
  | timeout =>
    exact hP.spent h hl hp ((Beside.finish c.behaviour .stopTimeout ho).trans (.survive _ _))
      (.inr ((Reached.claimed_survive _ _).trans (claimed_finish c.behaviour .stopTimeout ho)))
  | release ending =>
    have hc := (h.orderly.condemned_due hp rfl).claimed
    exact hP.spent h hl hp ((Beside.release c.behaviour ending ho hc).trans (.survive _ _))
      (.inr ((Reached.claimed_survive _ _).trans (claimed_release c.behaviour ending ho hc)))

/-- **Every deed carries on.** -/
theorem next_deed (hP : Carries A settings P) (h : Reached none l) (hl : P none l) (d : Deed σ ε)
    (hA : ∀ c k t, l.Turns d c k t → A c k t) : P none (l.next d) := by
  by_cases hrun : ∃ p c env, d = .run p c env
  · obtain ⟨p, c, env, rfl⟩ := hrun
    exact hP.next_run h hl p c env hA
  · obtain ⟨hbeside, hran⟩ := l.beside_next h.orderly.books.owned d
      fun p c env hd => hrun ⟨p, c, env, hd⟩
    exact hP.beside h hl hbeside hran

variable {id : StreamId} {deeds : List (Deed σ ε)}

/-- What is carried on holds after the first deeds… -/
theorem after_before (hP : Carries (Acts id settings deeds) settings P)
    (before more : List (Deed σ ε)) (hd : deeds = before ++ more) :
      P none (after id settings before) := by
  induction before using List.reverseRecOn generalizing more with
  | nil => exact hP.fresh id
  | append_singleton before d ih =>
    have hd : deeds = before ++ d :: more := by rw [hd, List.append_assoc]; rfl
    rw [after_append]
    exact hP.next_deed (reached_after id settings before) (ih _ hd) d fun c k t ht => .intro hd ht

/-- **…and so of every life**… -/
theorem after (hP : Carries (Acts id settings deeds) settings P) :
    P none (after id settings deeds) :=
  hP.after_before deeds [] (List.append_nil _).symm

/-- …and of every stream about to execute its phase. -/
theorem acts (hP : Carries (Acts id settings deeds) settings P) {k : Nat} {t : Turn σ ε}
    (ha : Acts id settings deeds c k t) : ∃ l : Life σ,
      l.stream = t.stream ∧ t.stream.Live ∧ Reached (some k) l ∧ P (some k) l := by
  obtain @⟨before, _, more, _, _, _, hd, @⟨p, _, env, start, s, _, _, hp, ho, hs, hl⟩⟩ := ha
  have h := reached_after id settings before
  have hA (z : Nat × Turn σ ε) (hz : Relation.ReflTransGen (Turn.Stride c) (start, ⟨s, env⟩) z)
      (hlive : z.2.stream.Live) : Acts id settings deeds c z.1 z.2 :=
    .intro hd (.intro hp ho hz hlive)
  have hstrides := hP.strides (y := (k, t)) (l := { (Life.after id settings before) with
    stream := s, ran := p :: (Life.after id settings before).ran }) hA (reached_opened h hp ho)
    (hP.opened h (hP.after_before before _ hd) hp ho) hs
  exact ⟨_, rfl, hl, hstrides⟩

end Carries

end FilterProxy

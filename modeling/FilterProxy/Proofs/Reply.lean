import FilterProxy.Proofs.Lived

/-!
# Proofs/Reply — which response the response filters start from

Direct replies are raised at many moments and taken at three places.  As long as a stream is before
the response filters, **the reply waiting is the one accepted last** (`Board.Pending`); the first to
execute them takes it, or the message the host responded with if there is none.  From then on
replies are refused (`Board.Replying`).
-/

namespace FilterProxy

variable {σ ε : Type}

open Board FilterSet FilterProxy.Stream Life

/-! ## Replies in logs -/

namespace Event

/-- The direct reply that was accepted. -/
def reply? : Event σ → Option Message
  | .replied code headers true => some (replyMessage code headers)
  | _ => none

/-- The event says nothing of replies, forwardings, phases or responses. -/
structure Mute (e : Event σ) : Prop where
  reply : e.reply? = none
  enters : e.enters? = none
  forwarding : e.isForwarding = false
  response : ∀ m, e ≠ .scheduled (.response m)

theorem mute_of_isNote {e : Event σ} (h : e.isNote = true) : e.Mute := by
  cases e with
  | scheduled job =>
    cases job with
    | response m => cases h
    | _ => exact ⟨rfl, rfl, rfl, by simp⟩
  | _ => first | exact ⟨rfl, rfl, rfl, by simp⟩ | cases h

end Event

/-- The direct replies accepted, latest first. -/
def replies (log : List (Event σ)) : List Message := log.filterMap Event.reply?

theorem replies_append {new : List (Event σ)} (h : ∀ e ∈ new, e.reply? = none)
    (log : List (Event σ)) : replies (new ++ log) = replies log := by
  rw [replies, List.filterMap_append, List.filterMap_eq_nil_iff.mpr h]
  rfl

/-- The response came from the host: with the forwarding, or as one of the answers allowed. -/
def Delivered (Answers : Handover → Prop) (m : Message) (log : List (Event σ)) : Prop :=
  (∃ host request panic, .forwarded host request ⟨.responded m, panic⟩ ∈ log) ∨
    Answers (.responded m)

theorem Delivered.append {Answers : Handover → Prop} {m : Message} {log : List (Event σ)}
    (h : Delivered Answers m log) (new : List (Event σ)) : Delivered Answers m (new ++ log) :=
  h.imp_left fun ⟨host, request, panic, hmem⟩ =>
    ⟨host, request, panic, List.mem_append_right new hmem⟩

/-- A response that was put out as a job was scheduled. -/
theorem scheduled_of_posted {log : List (Event σ)} {p : Posting} {m : Message} (hp : p ∈ posted log)
    (hj : p.job = .response m) : .scheduled (.response m) ∈ log := mem_of_posted hp hj nofun

/-! ## Boards -/

namespace Board

/-- A board that refuses direct replies goes on refusing them. -/
theorem Moves.closed {b b' : Board σ} (h : Moves b b') (hc : b.closed = true) :
    b'.closed = true := by
  induction h with
  | refl => exact hc
  | tail _ h ih =>
    cases h with
    | edit h => exact h.closed ih
    | raise code headers => unfold Board.raise; split <;> exact ih
    | claim ending => rename_i b _; cases hc : b.claimed <;> simpa [claim_of_unclaimed, hc, clear]
    | terminate ending ho =>
      rename_i b _; cases hc : b.claimed <;> simpa [terminate_of_unclaimed, ho, hc, clear]
    | _ => exact ih

/-- **What holds of direct replies on every board.** -/
structure Replying (Answers : Handover → Prop) (b : Board σ) : Prop where
  empty : b.closed = true → b.reply = none
  closed : .filterResponse ∈ entries b.log → b.closed = true
  /-- Once the response filters were reached, no reply is accepted. -/
  refused : Throughout (fun e older => .filterResponse ∈ entries older → e.reply? = none) b.log
  /-- Once a reply was accepted, no request is forwarded. -/
  prompt : Throughout (fun e older => e.isForwarding = true → replies older = []) b.log
  delivered : ∀ m, .scheduled (.response m) ∈ b.log → Delivered Answers m b.log

/-- **The reply waiting is the one accepted last.** -/
structure Pending (b : Board σ) : Prop where
  opened : b.closed = false
  reply : b.claimed = false → b.reply = (replies b.log).head?

namespace Replying

variable {Answers : Handover → Prop} {b b' : Board σ}

/-- Mute events change nothing. -/
theorem grow (hb : b.Replying Answers) (new : List (Event σ)) (hlog : b'.log = new ++ b.log)
    (hnew : ∀ e ∈ new, e.Mute) (hc : b'.closed = b.closed)
    (hr : b'.closed = true → b'.reply = none) : b'.Replying Answers where
  empty := hr
  closed := by
    rw [hlog, entries_append fun e he => (hnew e he).enters, hc]
    exact hb.closed
  refused := by
    rw [hlog]
    refine hb.refused.append fun newer e added hsplit _ => (hnew e ?_).reply
    exact hsplit ▸ List.mem_append_cons_self
  prompt := by
    rw [hlog]
    refine hb.prompt.append fun newer e added hsplit he => ?_
    have hmem : e ∈ new := hsplit ▸ List.mem_append_cons_self
    rw [(hnew e hmem).forwarding] at he
    cases he
  delivered m hm := by
    rw [hlog] at hm ⊢
    rcases List.mem_append.mp hm with hm | hm
    · exact absurd rfl ((hnew _ hm).response m)
    · exact (hb.delivered m hm).append new

theorem note (hb : b.Replying Answers) {e : Event σ} (he : e.Mute) : (b.note e).Replying Answers :=
  hb.grow [e] rfl (List.forall_mem_singleton.mpr he) rfl hb.empty

theorem publish (hb : b.Replying Answers) (s : Status) : (b.publish s).Replying Answers :=
  hb.grow [.published s] rfl (List.forall_mem_singleton.mpr ⟨rfl, rfl, rfl, nofun⟩) rfl hb.empty

/-- Another phase is executed. -/
theorem enter (hb : b.Replying Answers) {p : Phase} (hp : p ≠ .filterResponse) :
    (b.note (.entered p)).Replying Answers where
  empty := hb.empty
  closed h := by
    rcases List.mem_cons.mp h with rfl | h
    · exact absurd rfl hp
    · exact hb.closed h
  refused := Throughout.cons_iff.mpr ⟨fun _ => rfl, hb.refused⟩
  prompt := Throughout.cons_iff.mpr ⟨nofun, hb.prompt⟩
  delivered m hm := (hb.delivered m (by simpa [Board.note] using hm)).append [_]

/-- **The response filters are executed**: from now on replies are refused. -/
theorem close (hb : b.Replying Answers) :
    (b.note (.entered .filterResponse)).closeReply.2.Replying Answers where
  empty _ := rfl
  closed _ := rfl
  refused := Throughout.cons_iff.mpr ⟨fun _ => rfl, hb.refused⟩
  prompt := Throughout.cons_iff.mpr ⟨nofun, hb.prompt⟩
  delivered m hm := (hb.delivered m (by simpa [closeReply, Board.note] using hm)).append [_]

/-- A reply is taken away, for good or not. -/
theorem take (hb : b.Replying Answers) : b.takeReply.2.Replying Answers :=
  { hb with empty := fun _ => rfl }

/-- A response comes that was delivered. -/
theorem respond (hb : b.Replying Answers) {m : Message} (hm : Delivered Answers m b.log) :
    (b.note (.scheduled (.response m))).Replying Answers where
  empty := hb.empty
  closed := hb.closed
  refused := Throughout.cons_iff.mpr ⟨fun _ => rfl, hb.refused⟩
  prompt := Throughout.cons_iff.mpr ⟨nofun, hb.prompt⟩
  delivered m' hm' := by
    rcases List.mem_cons.mp hm' with h | h
    · obtain rfl : m' = m := by simpa using h
      exact hm.append [_]
    · exact (hb.delivered m' h).append [_]

/-- The request is forwarded while no reply was accepted. -/
theorem forward (hb : b.Replying Answers) (hr : replies b.log = []) (host : Host)
    (request : Message) (f : Forwarding) :
    (b.note (.forwarded host request f)).Replying Answers where
  empty := hb.empty
  closed := hb.closed
  refused := Throughout.cons_iff.mpr ⟨fun _ => rfl, hb.refused⟩
  prompt := Throughout.cons_iff.mpr ⟨fun _ => hr, hb.prompt⟩
  delivered m hm := (hb.delivered m (by simpa [Board.note] using hm)).append [_]

theorem raise (hb : b.Replying Answers) (code : UInt16) (headers : Headers) :
    (b.raise code headers).2.Replying Answers := by
  unfold Board.raise
  split
  case isTrue hc => exact hb.note ⟨rfl, rfl, rfl, nofun⟩
  case isFalse hc =>
    -- nobody reached the response filters yet
    have hn : .filterResponse ∉ entries b.log := fun h => hc (hb.closed h)
    exact
      { empty := fun h => absurd h hc
        closed := fun h => absurd h hn
        refused := Throughout.cons_iff.mpr ⟨fun h => absurd h hn, hb.refused⟩
        prompt := Throughout.cons_iff.mpr ⟨nofun, hb.prompt⟩
        delivered := fun m hm => (hb.delivered m (by simpa [Board.note] using hm)).append [_] }

theorem claim (hb : b.Replying Answers) (ending : Ending) :
    (b.claim ending).2.Replying Answers := by
  cases hc : b.claimed with
  | true => rw [claim_of_claimed hc]; exact hb
  | false =>
    rw [claim_of_unclaimed hc]
    refine hb.grow (claimEvents ending) rfl (fun e he => ?_) rfl fun _ => rfl
    rcases mem_claimEvents he with rfl | rfl | rfl <;> exact ⟨rfl, rfl, rfl, nofun⟩

/-- **Stirs keep what holds of replies.** -/
theorem stirred (hb : b.Replying Answers) (h : Stirred b b') : b'.Replying Answers := by
  refine h.keeps (fun b b' hs hb => ?_) hb
  cases hs with
  | edit => exact { hb with }
  | raise code headers => exact hb.raise code headers
  | claim ending => exact hb.claim ending
  | note he => exact hb.note (Event.mute_of_isNote he)

end Replying

namespace Pending

variable {b b' : Board σ}

theorem grow (hb : b.Pending) (new : List (Event σ)) (hlog : b'.log = new ++ b.log)
    (hnew : ∀ e ∈ new, e.reply? = none) (hc : b'.closed = b.closed)
    (hr : b'.claimed = false → b.claimed = false ∧ b'.reply = b.reply) : b'.Pending where
  opened := hc.trans hb.opened
  reply h := by
    obtain ⟨hc, hr⟩ := hr h
    rw [hr, hb.reply hc, hlog, replies_append hnew]

theorem note (hb : b.Pending) {e : Event σ} (he : e.reply? = none) : (b.note e).Pending :=
  hb.grow [e] rfl (List.forall_mem_singleton.mpr he) rfl fun h => ⟨h, rfl⟩

theorem publish (hb : b.Pending) (s : Status) : (b.publish s).Pending :=
  hb.grow [.published s] rfl (List.forall_mem_singleton.mpr rfl) rfl fun h => ⟨h, rfl⟩

/-- **Whatever stirs the board, the reply accepted last is the one waiting.** -/
theorem stirred (hb : b.Pending) (h : Stirred b b') : b'.Pending := by
  refine h.keeps (fun b b' hs hb => ?_) hb
  cases hs with
  | edit => exact { hb with }
  | raise code headers =>
    unfold Board.raise
    rw [if_neg (by simp [hb.opened])]
    exact ⟨hb.opened, fun _ => rfl⟩
  | claim ending =>
    cases hc : b.claimed with
    | true => rw [claim_of_claimed hc]; exact hb
    | false => rw [claim_of_unclaimed hc]; exact ⟨hb.opened, nofun⟩
  | note he => exact hb.note (Event.mute_of_isNote he).reply

end Pending

end Board

/-! ## Lives -/

/-- **What holds of direct replies at any moment of a life.** -/
structure Life.Replying (Answers : Handover → Prop) (start : Option Nat) (l : Life σ) : Prop where
  board : l.stream.board.Replying Answers
  pending : l.stream.board.claimed = false → l.stream.phase < .filterResponse →
    l.stream.board.Pending
  /-- No reply waits when the request is about to be forwarded, or when the response filters are
  about to run. -/
  taken : start.isSome → l.stream.phase = .forward ∨ l.stream.phase = .filterResponse →
    l.stream.board.reply = none
  /-- The first to run the response filters starts from the reply accepted last, or from the message
  of the job being run. -/
  resolved : start.isSome → l.stream.board.claimed = false → l.stream.phase = .filterResponse →
    .filterResponse ∉ entries l.log → (replies l.log).head? = some l.stream.response ∨
      replies l.log = [] ∧ ∃ p, l.ran.head? = some p ∧ p.job = .response l.stream.response

namespace Stream

variable {Answers : Handover → Prop} {s s' : Stream σ} {b : Board σ}

/-- **An answer of the transport** keeps what holds of replies, if it is allowed. -/
theorem replying_answer (hb : s.board.Replying Answers) (ho : s.board.owned = true) {x : Handover}
    (hx : ∀ m, x = .responded m → Delivered Answers m s.board.log) :
    (Turn.answer s x).board.Replying Answers := by
  cases x with
  | kept => exact hb
  | dropped => exact hb
  | responded m =>
    rw [Turn.answer_responded ho]
    exact hb.respond (hx m rfl)
  | failed failure => exact hb.stirred (stirred_terminate ho _)

theorem pending_answer (hb : s.board.Pending) (ho : s.board.owned = true) (x : Handover) :
    (Turn.answer s x).board.Pending := by
  cases x with
  | kept => exact hb
  | dropped => exact hb
  | responded m =>
    rw [Turn.answer_responded ho]
    exact hb.note rfl
  | failed failure => exact hb.stirred (stirred_terminate ho _)

/-- **The board with which a phase starts its work** keeps what holds of replies. -/
theorem Readies.replying (h : s.Readies b) (hb : s.board.Replying Answers)
    (ho : s.board.owned = true) (hr : s.phase = .forward → replies s.board.log = []) :
    b.Replying Answers := by
  cases h with
  | plain hp => exact hb.enter hp
  | closed hp =>
    rw [entered, hp]
    exact hb.close
  | handedOver hp host f =>
    have hforward : (s.entered.note (.forwarded host s.request f)).board.Replying Answers :=
      (hb.enter (by rw [hp]; decide)).forward (hr hp) host s.request f
    refine replying_answer hforward ho fun m hm => .inl ⟨host, s.request, f.panic, ?_⟩
    rw [← hm]
    exact List.mem_cons_self

theorem Readies.pending (h : s.Readies b) (hb : s.board.Pending) (ho : s.board.owned = true)
    (hp : s.phase < .filterResponse) : b.Pending := by
  cases h with
  | plain => exact hb.note rfl
  | closed hp' => rw [hp'] at hp; exact absurd hp (by decide)
  | handedOver hp' host f =>
    have hforward : (s.entered.note (.forwarded host s.request f)).board.Pending :=
      (hb.note rfl).note rfl
    exact pending_answer hforward ho f.handover

/-- An ending keeps what holds of replies. -/
theorem replying_release (hb : s.board.Replying Answers) (ho : s.board.owned = true)
    (β : Behaviour σ) (ending : Ending) : (s.release β ending).2.board.Replying Answers := by
  obtain ⟨b, hs, hboard | hboard⟩ := stirred_release β ending ho
  · exact hboard ▸ hb.stirred hs
  · exact hboard ▸ (hb.stirred hs).publish _

theorem replying_finish (hb : s.board.Replying Answers) (ho : s.board.owned = true)
    (β : Behaviour σ) (ending : Ending) : (s.finish β ending).2.board.Replying Answers := by
  obtain ⟨b, hs, hboard | hboard⟩ := stirred_finish β ending ho
  · exact hboard ▸ hb.stirred hs
  · exact hboard ▸ (hb.stirred hs).publish _

end Stream

namespace Life.Replying

variable {Answers : Handover → Prop} {start : Option Nat} {l l' : Life σ}

/-- What is claimed is beyond all replies. -/
theorem of_claimed (hb : l.stream.board.Replying Answers) (hc : l.stream.board.claimed = true) :
    l.Replying Answers none where
  board := hb
  pending h := by rw [hc] at h; cases h
  taken := nofun
  resolved := nofun

/-- A life at rest. -/
theorem of_rest (hb : l.stream.board.Replying Answers)
    (hp : l.stream.board.claimed = false → l.stream.phase < .filterResponse →
      l.stream.board.Pending) : l.Replying Answers none where
  board := hb
  pending := hp
  taken := nofun
  resolved := nofun

/-- A life about to execute a phase that no reply matters to. -/
theorem of_plain {k : Nat} (hb : l.stream.board.Replying Answers)
    (hp : l.stream.board.claimed = false → l.stream.phase < .filterResponse →
      l.stream.board.Pending)
    (hf : l.stream.phase ≠ .forward) (hr : l.stream.phase ≠ .filterResponse) :
    l.Replying Answers (some k) where
  board := hb
  pending := hp
  taken _ h := by rcases h with h | h <;> contradiction
  resolved _ _ h := absurd h hr

end Life.Replying

namespace Lived

variable {settings : Settings} {Answers : Handover → Prop} {l : Life σ}

/-- A stream in a pause of its response filters ran them before. -/
theorem closed_of_filterResponse (h : Lived settings Answers none l)
    (hr : l.Replying Answers none) (hc : l.stream.board.claimed = false)
    (hp : l.stream.phase = .filterResponse) :
    .filterResponse ∈ entries l.log ∧ l.stream.board.reply = none := by
  obtain ⟨hhead, -⟩ := h.reached.onCourse.standing.started hc (by rw [hp]; decide)
  rw [hp] at hhead
  have hmem := List.mem_of_mem_head? hhead
  exact ⟨hmem, hr.board.empty (hr.board.closed hmem)⟩

/-- **A life that a job has driven**: a reply waiting leads to the response filters, and so does the
response of the host. -/
theorem replying_opened (h : Lived settings Answers none l) (hr : l.Replying Answers none)
    {p : Posting} {k : Nat} {s : Stream σ} (ho : l.stream.Opens p.job k s) :
    Life.Replying Answers (some k) { l with stream := s, ran := p :: l.ran } := by
  generalize hjob : p.job = job at ho
  cases ho with
  | receive hc hp =>
    have hinit : l.stream.phase ≠ .forward ∧ l.stream.phase ≠ .filterResponse := by rw [hp]; decide
    exact .of_plain hr.board hr.pending hinit.1 hinit.2
  | @resume _ index hc hp =>
    have hforward : l.stream.phase ≠ .forward := fun hf => by
      have hside := h.reached.poised index hp
      rw [hf] at hside
      cases hside
    refine ⟨hr.board.publish _, fun hc' hlt => (hr.pending hc hlt).publish _, fun _ hp' => ?_,
      fun _ _ hp' hn => ?_⟩
    · rcases hp' with hp' | hp'
      · exact absurd hp' hforward
      · exact (h.closed_of_filterResponse hr hc hp').2
    · exact absurd (h.closed_of_filterResponse hr hc hp').1 hn
  | @reroute _ _ reply hc hp hcaller hlt hreply =>
    refine ⟨(hr.board.publish _).take, fun _ hlt' => absurd hlt' (Nat.lt_irrefl 8), fun _ _ => rfl,
      fun _ _ _ _ => .inl ?_⟩
    exact ((hr.pending hc hlt).reply hc).symm.trans hreply
  | @response m hc hp =>
    have hpending := hr.pending hc (by rw [hp]; decide)
    have hclosed : l.stream.board.closeReply.2.Replying Answers :=
      { hr.board with empty := fun _ => rfl, closed := fun _ => rfl }
    refine ⟨hclosed.note ⟨rfl, rfl, rfl, by simp⟩, fun _ hlt => absurd hlt (Nat.lt_irrefl 8),
      fun _ _ => rfl, fun _ _ _ _ => ?_⟩
    have hreply := hpending.reply hc
    cases hm : l.stream.board.reply with
    | some reply =>
      left
      change (replies l.log).head? = some (l.stream.board.reply.getD m)
      rw [hm, Option.getD_some]
      exact hreply.symm.trans hm
    | none =>
      right
      refine ⟨List.head?_eq_none_iff.mp (hreply.symm.trans hm), p, rfl, ?_⟩
      rw [hjob]
      exact congrArg Job.response (by rw [responded, hm]; rfl)

/-- **The work of a phase** keeps what holds of replies. -/
theorem replying_work {k : Nat} (h : Lived settings Answers (some k) l)
    (hr : l.Replying Answers (some k)) (hl : l.stream.Live) {b b' : Board σ}
    (hb : l.stream.Readies b) (hs : Stirred b b') :
    b'.Replying Answers ∧ (l.stream.phase < .filterResponse → b'.Pending) := by
  have hnone : l.stream.phase = .forward → replies l.stream.board.log = [] := fun hp => by
    have hpending := hr.pending hl.unclaimed (by rw [hp]; decide)
    exact List.head?_eq_none_iff.mp
      ((hpending.reply hl.unclaimed).symm.trans (hr.taken rfl (.inl hp)))
  exact ⟨(hb.replying hr.board h.owned hnone).stirred hs,
    fun hp => (hb.pending (hr.pending hl.unclaimed hp) h.owned hp).stirred hs⟩

/-- **A phase that is complete** leads on: no reply waits behind the last request filters. -/
theorem replying_next {k : Nat} (h : Lived settings Answers (some k) l)
    (hr : l.Replying Answers (some k)) (hl : l.stream.Live) {s : Stream σ} {new is}
    (hx : l.stream.Traced k .next s new is) : (l.become s.advanced).Replying Answers (some 0) := by
  have hphase : s.phase = l.stream.phase := hx.executed.phase
  have hnext : l.stream.phase ∉ [.awaitResponse, .respond, .done] := by
    cases hx.executed with
    | next hw ha hp => exact hp
  cases hx.sequel with
  | next hb hs hreply hforward =>
    obtain ⟨hboard, hpending⟩ := h.replying_work hr hl hb hs
    have hnot : l.stream.phase.next ≠ .filterResponse := by
      revert hnext
      cases l.stream.phase <;> decide
    refine ⟨hboard.note ⟨rfl, rfl, rfl, by simp⟩, fun _ hlt => (hpending ?_).note rfl,
      fun _ hp => ?_, fun _ _ hp => absurd (hphase ▸ hp) hnot⟩
    · rw [become_stream, advanced_phase, hphase] at hlt
      revert hlt
      cases l.stream.phase <;> decide
    · rw [become_stream, advanced_phase, hphase] at hp
      refine hreply ?_
      rcases hp with hp | hp
      · revert hp
        cases l.stream.phase <;> decide
      · exact absurd hp hnot

theorem replying_goto {k : Nat} (h : Lived settings Answers (some k) l)
    (hr : l.Replying Answers (some k)) (hl : l.stream.Live) {q : Phase} {s : Stream σ} {new is}
    (hx : l.stream.Traced k (.goto q) s new is) :
    (l.become { s with phase := q }).Replying Answers (some 0) := by
  have hlt : l.stream.phase < .filterResponse := by
    obtain ⟨point, hpoint, -⟩ := hx.executed.of_goto
    rw [hpoint]
    cases point <;> decide
  cases hx.sequel with
  | @reply b b' _ hb hs hreply hboard =>
    obtain ⟨hreplying, hpending⟩ := h.replying_work hr hl hb hs
    refine ⟨?_, fun _ hlt' => absurd hlt' (Nat.lt_irrefl 8), fun _ _ => ?_, fun _ hc _ _ => .inl ?_⟩
    · exact hboard ▸ hreplying.take
    · exact congrArg Board.reply hboard
    · have hc' : b'.claimed = false := (congrArg Board.claimed hboard).symm.trans hc
      have hlog : s.board.log = b'.log := by rw [hboard]; rfl
      change (replies s.board.log).head? = some s.response
      rw [hlog, ← hreply]
      exact ((hpending hlt).reply hc').symm

theorem replying_jump {k : Nat} (h : Lived settings Answers (some k) l)
    (hr : l.Replying Answers (some k)) (hl : l.stream.Live) {q : Phase} {s : Stream σ} {new is}
    (hx : l.stream.Traced k (.jump q) s new is) :
    s.board.Replying Answers ∧ s.board.Pending ∧ (q = .matchRoute ∨ q = .chooseHost) := by
  obtain ⟨point, hp, hq⟩ := hx.executed.of_jump
  cases hx.sequel with
  | jump hb hs hboard =>
    obtain ⟨hreplying, hpending⟩ := h.replying_work hr hl hb hs
    rw [hboard]
    exact ⟨hreplying.note ⟨rfl, rfl, rfl, by simp⟩,
      (hpending (by rw [hp]; cases point <;> decide)).note rfl, hq⟩

theorem replying_rest {k : Nat} (h : Lived settings Answers (some k) l)
    (hr : l.Replying Answers (some k)) (hl : l.stream.Live) {s : Stream σ} {new is}
    (hx : l.stream.Traced k .rest s new is) : (l.become s).Replying Answers none := by
  have hphase : s.phase = l.stream.phase := hx.executed.phase
  cases hx.sequel with
  | pause hb hs hc hboard =>
    obtain ⟨hreplying, hpending⟩ := h.replying_work hr hl hb hs
    exact .of_rest ((hreplying.publish _).stirred hboard) fun _ hlt =>
      ((hpending (hphase ▸ hlt)).publish _).stirred hboard
  | rest hb hs =>
    obtain ⟨hreplying, hpending⟩ := h.replying_work hr hl hb hs
    exact .of_rest hreplying fun _ hlt => hpending (hphase ▸ hlt)

/-- **Every life keeps what holds of direct replies.** -/
theorem replying {start : Option Nat} (h : Lived settings Answers start l) :
    l.Replying Answers start := by
  induction h with
  | fresh id =>
    refine .of_rest ⟨nofun, nofun, ?_, ?_, ?_⟩ fun _ _ => ⟨rfl, fun _ => rfl⟩
    · exact Throughout.cons_iff.mpr ⟨fun _ => rfl, .nil⟩
    · exact Throughout.cons_iff.mpr ⟨nofun, .nil⟩
    · simp [Life.fresh, Stream.create]
  | add h r ih => exact .of_rest ih.board ih.pending
  | stir new h hs hm hlog hnew ih =>
    exact .of_rest (ih.board.stirred hs) fun hc hp => (ih.pending (hs.unclaimed hc) hp).stirred hs
  | @answer l x h hx ih =>
    obtain ⟨new, hlog, hnew, hm, heq⟩ := Turn.answer_spec l.stream x h.owned
    refine .of_rest (replying_answer ih.board h.owned fun m hm => .inr (hm ▸ hx)) fun hc hp => ?_
    have hphase : (Turn.answer l.stream x).phase = l.stream.phase := by rw [heq]
    exact pending_answer (ih.pending (hm.unclaimed hc) (hphase ▸ hp)) h.owned x
  | direct h hp hs m ih =>
    exact .of_rest (ih.board.stirred hs) fun hc hp => (ih.pending (hs.unclaimed hc) hp).stirred hs
  | finish h β ending ih =>
    exact .of_claimed (replying_finish ih.board h.owned β ending) (claimed_finish β ending h.owned)
  | take h hp hi ih => exact .of_rest ih.board ih.pending
  | release h hp hj β ih =>
    have hcondemned := h.reached.orderly.condemned_due hp hj
    exact .of_claimed (replying_release ih.board h.owned β _)
      (claimed_release β _ h.owned hcondemned.claimed)
  | opened h hp ho ih => exact h.replying_opened ih ho
  | halt h hc ih => exact .of_claimed ih.board hc
  | next h hl hx ih => exact h.replying_next ih hl hx
  | goto h hl hx ih => exact h.replying_goto ih hl hx
  | jump h hl hx hj ih =>
    obtain ⟨hboard, hpending, hq⟩ := h.replying_jump ih hl hx
    refine .of_plain (hboard.note ⟨rfl, rfl, rfl, by simp⟩) (fun _ _ => hpending.note rfl) ?_ ?_ <;>
      rcases hq with rfl | rfl <;> nofun
  | rest h hl hx ih => exact h.replying_rest ih hl hx
  | ended h hl hx β ih =>
    have ho := ((hx.executed.moves hl).owned.trans h.owned)
    cases hx.sequel with
    | finish hb hs =>
      exact .of_claimed (replying_finish (h.replying_work ih hl hb hs).1 ho β _)
        (claimed_finish β _ ho)
  | @overrun k l q s new is h hl hx hj β ih =>
    have ho := ((hx.executed.moves hl).owned.trans h.owned)
    have hfinish := replying_finish (h.replying_jump ih hl hx).1 ho β .tooManyJumps
    refine .of_claimed ?_ ((Reached.claimed_survive _ _).trans (claimed_finish β _ ho))
    cases (s.finish β .tooManyJumps).1 with
    | none => exact hfinish
    | some p => exact hfinish.note ⟨rfl, rfl, rfl, by simp⟩
  | escape h hl hx ih =>
    have hphase := hx.executed.phase
    cases hx.sequel with
    | escape hb hs =>
      obtain ⟨hreplying, hpending⟩ := h.replying_work ih hl hb hs
      exact .of_rest (hreplying.note ⟨rfl, rfl, rfl, by simp⟩) fun _ hlt =>
        (hpending (hphase ▸ hlt)).note rfl

end Lived

/-- **Where the response filters got the response from** that they start with. -/
inductive Life.Resolves (l : Life σ) (deeds : List (Deed σ ε)) : Deed σ ε → Stream σ → Prop
  /-- It is the direct reply accepted last. -/
  | reply {d s} (h : (replies s.board.log).head? = some s.response) : Resolves l deeds d s
  /-- No direct reply was accepted, and the job brings what the host responded with. -/
  | host {s c env} (h : replies s.board.log = [])
      (hm : Delivered (fun x => Deed.answer x ∈ deeds) s.response l.log) :
      Resolves l deeds (.run ⟨.response s.response, false⟩ c env) s

theorem Lived.resolves {settings : Settings} {l : Life σ} {deeds : List (Deed σ ε)}
    (h : Lived settings (fun x => Deed.answer x ∈ deeds) none l) {d : Deed σ ε} {k : Nat}
    {s : Stream σ} (hx : l.Executes d k s) (hp : s.phase = .filterResponse) :
    s.board.reply = none ∧ (.filterResponse ∉ entries s.board.log → l.Resolves deeds d s) := by
  have hlive : s.Live := by cases hx; assumption
  obtain ⟨p, c, env, rfl, hdue, hs⟩ := h.of_executes hx
  have hr := hs.replying
  refine ⟨hr.taken rfl (.inr hp), fun hn => ?_⟩
  rcases hr.resolved rfl hlive.unclaimed hp hn with hreply | ⟨hnone, q, hq, hj⟩
  · exact .reply hreply
  obtain rfl : p = q := Option.some.inj hq
  obtain rfl : p = ⟨.response s.response, false⟩ := eq_of_job hdue.mem_posted hj nofun
  exact .host hnone (h.replying.board.delivered _ (scheduled_of_posted hdue.mem_posted rfl))

/-- **The response filters start from the direct reply accepted last**, and from the very message
the host responded with if none was accepted; no reply ever waits when they run.  Once a reply was
accepted the request is not forwarded any more, and once they ran no reply is accepted any more:
raising one leaves the board as it is. -/
theorem starts_from_last_reply (id : StreamId) (settings : Settings) (deeds : List (Deed σ ε)) :
    let l := after id settings deeds
    (∀ (d : Deed σ ε) older,
      (.entered .filterResponse :: older <:+ (l.next d).log ∧ l.log <:+ older) ↔
        ∃ k s, l.Executes d k s ∧ s.phase = .filterResponse ∧ s.board.log = older) ∧
      (∀ (d : Deed σ ε) k s, l.Executes d k s → s.phase = .filterResponse →
        s.board.reply = none ∧
          (.filterResponse ∉ entries s.board.log → l.Resolves deeds d s)) ∧
      Throughout (fun e older => e.isForwarding = true → replies older = []) l.log ∧
      Throughout (fun e older => .filterResponse ∈ entries older → e.reply? = none) l.log ∧
      (.filterResponse ∈ entries l.log → ∀ b, Moves l.stream.board b → ∀ code headers,
        b.raise code headers = (false, b.note (.replied code headers false))) := by
  intro l
  have h := lived_after id settings deeds
  have hboard := h.replying.board
  refine ⟨fun d older => h.reached.entered_iff d _ older, fun d k s hx hp => h.resolves hx hp,
    hboard.prompt, hboard.refused, fun hmem b hm code headers => ?_⟩
  exact if_pos (Moves.closed hm (hboard.closed hmem))

end FilterProxy

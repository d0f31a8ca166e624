import FilterProxy.Proofs.Board.Stir
import FilterProxy.Proofs.Stride

/-!
# Proofs/Sequel — what a phase comes to, to the last field

`Stream.Executed` leaves open what becomes of the direct reply and of the status.  `Stream.Sequel`
does not: it tells with which board a phase starts its work (`Stream.Readies`), that the work itself
only stirs it, and what each kind of step makes of it.  **Every phase executed has its sequel**
(`Turn.sequel_execute`).
-/

namespace FilterProxy

variable {σ ε : Type}

namespace Stream

open Board

/-- The stream once the transport answered its request. -/
def handedOver (s : Stream σ) (host : Host) (f : Forwarding) : Stream σ :=
  Turn.answer (s.entered.note (.forwarded host s.request f)) f.handover

/-- **What the work of a phase starts with**: the response filters refuse direct replies, and the
forwarding may hand the request over; nothing else comes before the work. -/
inductive Readies (s : Stream σ) : Board σ → Prop
  | plain (hp : s.phase ≠ .filterResponse) : Readies s s.entered.board
  | closed (hp : s.phase = .filterResponse) : Readies s s.entered.board.closeReply.2
  | handedOver (hp : s.phase = .forward) (host f) : Readies s (s.handedOver host f).board

/-- **What a phase may come to**, given the work on the board. -/
inductive Sequel (s : Stream σ) : Step → Stream σ → Prop
  /-- No direct reply waits behind request filters, and the forwarding was made. -/
  | next {b s'} (hb : s.Readies b) (hs : Stirred b s'.board)
      (hr : s.phase.side? = some .request → s'.board.reply = none)
      (hf : s.phase = .forward → ∃ host f, s'.board = (s.handedOver host f).board) :
      Sequel s .next s'
  /-- The direct reply waiting last becomes the response. -/
  | reply {b b' s'} (hb : s.Readies b) (hs : Stirred b b') (hr : b'.reply = some s'.response)
      (hboard : s'.board = b'.takeReply.2) : Sequel s (.goto .filterResponse) s'
  | jump {b b' s' q} {point : RequestPoint} (hb : s.Readies b) (hs : Stirred b b')
      (hboard : s'.board = b'.note (.passed point (.ok (.resumeAt q)))) : Sequel s (.jump q) s'
  | pause {b b' s' i} (hb : s.Readies b) (hs : Stirred b b') (hc : s'.board.claimed = false)
      (hboard : Stirred (b'.publish (.paused s.phase)) s'.board) (hi : s'.pausedBy = some i) :
      Sequel s .rest s'
  | rest {b s'} (hb : s.Readies b) (hs : Stirred b s'.board) (hi : s'.pausedBy = s.pausedBy)
      (hc : s.phase = .awaitResponse ∨ s'.board.claimed = true) : Sequel s .rest s'
  | finish {b s' ending} (hb : s.Readies b) (hs : Stirred b s'.board) : Sequel s (.finish ending) s'
  | escape {b s' panic} (hb : s.Readies b) (hs : Stirred b s'.board)
      (hp : s.phase ∉ [.init, .awaitResponse]) : Sequel s (.escape panic) s'

namespace Sequel

variable {s : Stream σ}

/-- **A filter's stop** pauses the stream, unless it was ended meanwhile. -/
theorem of_pause (n : Nat) {b : Board σ} {s' : Stream σ} (hb : s.Readies b)
    (hs : Stirred b s'.board) (hp : s'.phase = s.phase) (hi : s'.pausedBy = s.pausedBy) :
    s.Sequel (s'.pause n).1 (s'.pause n).2 := by
  unfold Stream.pause
  split
  case isTrue hc => exact .rest hb hs hi (.inr hc)
  case isFalse hc =>
    have hc : s'.board.claimed = false := by simpa [Stream.claimed] using hc
    dsimp only
    split
    · exact .pause hb hs hc (by rw [hp]) rfl
    · exact .pause hb hs hc (by rw [hp]; exact .single (.note _ rfl)) rfl

theorem stirred_noteAbort {b : Board σ} {s' : Stream σ} (hs : Stirred b s'.board) (cause : Abort) :
    Stirred b (s'.noteAbort cause).board := by
  cases cause with
  | verdict => exact hs
  | panic => exact hs.tail (.note _ rfl)

end Sequel

variable (β : Behaviour σ) {s : Stream σ}

/-- **Request filters**: a waiting direct reply beats completion and a stop. -/
theorem sequel_filterRequest {point : RequestPoint} {k : Nat} (hp : s.phase = point.phase)
    (ho : s.board.owned = true) :
    s.Sequel (s.entered.filterRequest β point k).1 (s.entered.filterRequest β point k).2 := by
  have hready : s.Readies s.entered.board := .plain (by rw [hp]; cases point <;> decide)
  have hforward : s.phase ≠ .forward := by rw [hp]; cases point <;> decide
  obtain ⟨new, is, hpass⟩ := FilterSet.passRequests_spec β k s.entered.settings.convert
    s.entered.filters ⟨s.entered.board, s.entered.request.parts⟩ point ho
  obtain ⟨b, hs, hboard⟩ := FilterSet.stirred_passRequests β point k s.entered.settings.convert
    s.entered.filters ⟨s.entered.board, s.entered.request.parts⟩ ho
  unfold filterRequest
  dsimp only at hpass hs hboard ⊢
  generalize FilterSet.passRequests β point k s.entered.settings.convert s.entered.filters
    ⟨s.entered.board, s.entered.request.parts⟩ = r at hpass hboard ⊢
  have stirred (h : ∀ q, r.result ≠ .ok (.resumeAt q)) : Stirred s.entered.board r.bench.board := by
    rw [hboard]
    exact hs.tail (.note _ (Event.isNote_passed h))
  have reply (hn : ∀ q, r.result ≠ .ok (.resumeAt q)) {m : Message}
      (hr : r.bench.board.reply = some m) : s.Sequel (.goto .filterResponse) { s.entered with
        filters := r.filters
        board := r.bench.board.takeReply.2
        request := r.bench.parts.message
        response := m } :=
    .reply hready (stirred hn) hr rfl
  cases hres : r.result with
  | error p =>
    exact .escape hready (stirred (by simp [hres])) (by rw [hp]; cases point <;> decide)
  | ok outcome =>
    cases outcome with
    | completed =>
      have hn : ∀ q, r.result ≠ .ok (.resumeAt q) := by simp [hres]
      cases hr : r.bench.board.reply with
      | none => exact .next hready (stirred hn) (fun _ => hr) fun h => absurd h hforward
      | some m =>
        simp only [hr, Option.isSome_some, if_true, shortcut, takeReply]
        exact reply hn hr
    | resumeAt q =>
      obtain ⟨hagain, -⟩ := hpass.again q hres
      simp only [FilterSet.takeAgain, hagain, Option.getD_some]
      exact .jump hready hs (hres ▸ hboard)
    | stopped n =>
      have hn : ∀ q, r.result ≠ .ok (.resumeAt q) := by simp [hres]
      cases hr : r.bench.board.reply with
      | none => exact .of_pause n hready (stirred hn) rfl rfl
      | some m =>
        simp only [hr, Option.isSome_some, if_true, shortcut, takeReply]
        exact reply hn hr
    | aborted cause =>
      exact .finish hready (Sequel.stirred_noteAbort (stirred (by simp [hres])) cause)

/-- **Response filters**: direct replies are refused from here on. -/
theorem sequel_filterResponse {k : Nat} (hp : s.phase = .filterResponse)
    (ho : s.board.owned = true) :
    s.Sequel (s.entered.filterResponse β k).1 (s.entered.filterResponse β k).2 := by
  have hready : s.Readies s.entered.board.closeReply.2 := .closed hp
  have hs := FilterSet.stirred_passResponses β .beforeSend k .keep s.entered.filters
    ⟨s.entered.board.closeReply.2, s.entered.response.parts⟩ ho
  unfold filterResponse passResponse
  dsimp only at hs ⊢
  generalize FilterSet.passResponses β .beforeSend k .keep s.entered.filters
    ⟨s.entered.board.closeReply.2, s.entered.response.parts⟩ = r at hs ⊢
  have hnext : s.Sequel .next { s.entered with
      filters := r.filters, board := r.bench.board, response := r.bench.parts.message } :=
    .next hready hs (fun h => by rw [hp] at h; cases h) fun h => by rw [hp] at h; cases h
  cases hres : r.result with
  | error p => exact .escape hready hs (by rw [hp]; decide)
  | ok outcome =>
    cases outcome with
    | completed => exact hnext
    | resumeAt q => exact hnext
    | stopped n => exact .of_pause n hready hs rfl rfl
    | aborted cause => exact .finish hready (Sequel.stirred_noteAbort hs cause)

end Stream

/-! ## Collaborators -/

namespace Turn

open Board FilterProxy.Stream

variable (c : Surroundings σ ε) {t : Turn σ ε}

/-- The turn as it executes its phase. -/
abbrev entered (t : Turn σ ε) : Turn σ ε := { t with stream := t.stream.entered }

theorem sequel_matchRoute (hp : t.stream.phase = .matchRoute) :
    t.stream.Sequel (t.entered.matchRoute c).1 (t.entered.matchRoute c).2.stream := by
  have hready : t.stream.Readies t.stream.entered.board := .plain (by rw [hp]; decide)
  have hs : Stirred t.stream.entered.board (t.stream.entered.note (.routed
      (t.stream.entered.request.headers.getD {}) ((c.reload t.env c.routing).1.find
        (t.stream.entered.request.headers.getD {})))).board := .single (.note _ rfl)
  unfold matchRoute
  dsimp only
  split
  case h_1 p hr => exact .escape hready hs (by rw [hp]; decide)
  case h_2 hr => exact .finish hready hs
  case h_3 route hr =>
    exact .next hready (hs.tail (.edit _ _ _ _ _)) (fun h => by rw [hp] at h; cases h)
      fun h => by rw [hp] at h; cases h

theorem sequel_chooseHost (hp : t.stream.phase = .chooseHost) :
    t.stream.Sequel (t.entered.chooseHost c).1 (t.entered.chooseHost c).2.stream := by
  have hready : t.stream.Readies t.stream.entered.board := .plain (by rw [hp]; decide)
  unfold chooseHost
  split
  case h_1 hr => exact .finish hready .refl
  case h_2 route hr =>
    have hs : Stirred t.stream.entered.board (t.stream.entered.note (.chosen route
        (t.stream.entered.request.headers.getD {})
        (c.choose t.env route (t.stream.entered.request.headers.getD {})).1)).board :=
      .single (.note _ rfl)
    dsimp only
    split
    case h_1 p _ => exact .escape hready hs (by rw [hp]; decide)
    case h_2 failure _ => exact .finish hready hs
    case h_3 host _ =>
      exact .next hready (hs.tail (.edit _ _ _ _ _)) (fun h => by rw [hp] at h; cases h)
        fun h => by rw [hp] at h; cases h

theorem sequel_forward (hp : t.stream.phase = .forward) :
    t.stream.Sequel (t.entered.forward c).1 (t.entered.forward c).2.stream := by
  unfold forward
  split
  case h_1 hr => exact .finish (.plain (by rw [hp]; decide)) .refl
  case h_2 host hr =>
    dsimp only
    generalize c.forward t.env t.stream.entered.board.context.id host t.stream.entered.request = r
    have hready : t.stream.Readies (t.stream.handedOver host r.1).board := .handedOver hp host r.1
    split
    case h_1 p _ => exact .escape hready .refl (by rw [hp]; decide)
    case h_2 _ =>
      exact .next hready .refl (fun h => by rw [hp] at h; cases h) fun _ => ⟨host, r.1, rfl⟩

theorem sequel_respond (hp : t.stream.phase = .respond) :
    t.stream.Sequel (t.entered.respond c).1 (t.entered.respond c).2.stream := by
  have hready : t.stream.Readies t.stream.entered.board := .plain (by rw [hp]; decide)
  unfold respond
  dsimp only
  -- only a response with a code leaves its code behind; the rest is the same
  cases (t.stream.entered.board.putReplaced t.stream.entered.response.parts).1.message.code?
  all_goals
    dsimp only
    split
    case h_1 =>
      exact .escape hready (.tail (.single (.edit _ _ _ _ _)) (.note _ rfl)) (by rw [hp]; decide)
    case h_2 => exact .finish hready (.tail (.single (.edit _ _ _ _ _)) (.note _ rfl))
    case h_3 =>
      exact .finish hready
        (.tail (.tail (.single (.edit _ _ _ _ _)) (.note _ rfl)) (.note _ rfl))

/-- **Every phase executed has its sequel.** -/
theorem sequel_execute {k : Nat} (hl : t.stream.Live) (ho : t.stream.board.owned = true) :
    t.stream.Sequel (t.execute c k).1 (t.execute c k).2.stream := by
  unfold execute step
  split
  case h_1 hp =>
    have hp : t.stream.phase = .init := hp
    exact .next (.plain (by rw [hp]; decide)) .refl (fun h => by rw [hp] at h; cases h)
      fun h => by rw [hp] at h; cases h
  case h_2 hp => exact sequel_filterRequest c.behaviour hp ho
  case h_3 hp => exact sequel_matchRoute c hp
  case h_4 hp => exact sequel_filterRequest c.behaviour hp ho
  case h_5 hp => exact sequel_chooseHost c hp
  case h_6 hp => exact sequel_filterRequest c.behaviour hp ho
  case h_7 hp => exact sequel_forward c hp
  case h_8 hp =>
    have hp : t.stream.phase = .awaitResponse := hp
    exact .rest (.plain (by rw [hp]; decide)) .refl rfl (.inl hp)
  case h_9 hp => exact sequel_filterResponse c.behaviour hp ho
  case h_10 hp => exact sequel_respond c hp
  case h_11 hp => exact absurd hp hl.notDone

end Turn

end FilterProxy

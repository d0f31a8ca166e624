import FilterProxy.Proofs.Overwriting
import FilterProxy.Proofs.Reply
import FilterProxy.Proofs.Conclusion

/-!
# Proofs/Reported — the status code that is reported

A direct reply that is accepted reports its code, and so does a response that is written, if its
headers carry one that can be read.  Nothing else touches the code, so at every moment it is **the
last one told** by the log (`Board.Reports`).  Past the writing of a response that is the code
written, or else that of the reply accepted last (`reported_iff`).
-/

namespace FilterProxy

variable {σ ε : Type}

open Board FilterSet FilterProxy.Stream Life

/-! ## Codes are read back -/

theorem ofDigits?_toDigits (n : Nat) : ofDigits? (Nat.toDigits 10 n) = some n := by
  induction n using Nat.strongRecOn with
  | ind n ih =>
    have hdigit {d : Nat} (hd : d < 10) : d.digitChar.isDigit = true ∧
      d.digitChar.toNat - '0'.toNat = d :=
      ⟨by simp [Nat.isDigit_digitChar, hd], Nat.toNat_digitChar_sub_48_of_lt_ten hd⟩
    rw [Nat.toDigits_eq_if (by decide)]
    split
    case isTrue h => simp [ofDigits?, (hdigit h).1, Nat.toNat_digitChar_sub_48_of_lt_ten h]
    case isFalse h =>
      have hrest : ofDigits? (Nat.toDigits 10 (n / 10)) = some (n / 10) := ih (n / 10) (by omega)
      rw [ofDigits?] at hrest ⊢
      rw [List.foldl_concat, hrest]
      simp only [Option.bind_some, hdigit (Nat.mod_lt n (by decide)), if_true]
      exact congrArg some (Nat.div_add_mod n 10)

/-- **A code is read back as it was written.** -/
theorem readCode?_codeText (code : UInt16) : readCode? (codeText code) = some code := by
  have hchars : (codeText code).toList = Nat.toDigits 10 code.toNat := by
    rw [codeText, show toString code.toNat = Nat.repr code.toNat from rfl,
      Nat.repr_eq_ofList_toDigits]
    exact String.toList_ofList
  have hplus : '+' ∉ Nat.toDigits 10 code.toNat := fun hmem =>
    absurd (Nat.isDigit_of_mem_toDigits (by decide) (by decide) hmem) (by decide)
  have hread : ofDigits? (Nat.toDigits 10 code.toNat) = some code.toNat := ofDigits?_toDigits _
  have hne : Nat.toDigits 10 code.toNat ≠ [] := Nat.toDigits_ne_nil
  rw [readCode?, hchars]
  generalize Nat.toDigits 10 code.toNat = digits at hplus hread hne
  split
  case h_1 rest => exact absurd List.mem_cons_self hplus
  case h_2 =>
    simp only [List.isEmpty_iff, hne, if_false, hread, Option.bind_some]
    rw [if_pos code.toNat_lt]
    exact congrArg some (by simp)

/-- A reply carries its code. -/
theorem code?_replyMessage (code : UInt16) (headers : Headers) :
    (replyMessage code headers).code? = some code := by
  have hget : (headers.set statusHeader (codeText code)).get? statusHeader
    = some (codeText code) := by
    rw [Headers.get?_set, if_pos rfl]
  exact (congrArg (·.bind readCode?) hget).trans (readCode?_codeText code)

/-! ## The code told last -/

/-- The status code of which an event tells. -/
def Event.told? : Event σ → Option UInt16
  | .replied code _ true => some code
  | .written m _ => m.code?
  | _ => none

/-- **The status code told last.** -/
def lastTold (log : List (Event σ)) : Option UInt16 := log.findSome? Event.told?

theorem lastTold_cons (e : Event σ) (log : List (Event σ)) :
    lastTold (e :: log) = e.told?.or (lastTold log) := by
  rw [lastTold, List.findSome?_cons]
  cases e.told? <;> rfl

theorem lastTold_append {new : List (Event σ)} (h : ∀ e ∈ new, e.told? = none)
    (log : List (Event σ)) :
    lastTold (new ++ log) = lastTold log := by
  rw [lastTold, List.findSome?_append, List.findSome?_eq_none_iff.mpr h]
  rfl

/-- **The board reports the code told last.** -/
def Board.Reports (b : Board σ) : Prop := b.info.code = lastTold b.log

namespace Board.Reports

variable {b b' : Board σ}

/-- Nothing is told, and the code stays. -/
theorem grow (h : b.Reports) (new : List (Event σ)) (hlog : b'.log = new ++ b.log)
    (hnew : ∀ e ∈ new, e.told? = none) (hcode : b'.info.code = b.info.code) : b'.Reports := by
  rw [Reports, hcode, hlog, lastTold_append hnew]
  exact h

/-- The log stays as well. -/
theorem same (h : b.Reports) (hlog : b'.log = b.log) (hcode : b'.info.code = b.info.code) :
    b'.Reports :=
  h.grow [] hlog (List.forall_mem_nil _) hcode

theorem note (h : b.Reports) {e : Event σ} (he : e.told? = none) : (b.note e).Reports :=
  h.grow [e] rfl (List.forall_mem_singleton.mpr he) rfl

theorem schedule (h : b.Reports) (job : Job) : (b.schedule job).Reports := by
  unfold Board.schedule
  split
  · exact h.note rfl
  · exact h

theorem publish (h : b.Reports) (s : Status) : (b.publish s).Reports :=
  h.note (e := .published s) rfl

/-- **An accepted reply reports its code.** -/
theorem raise (h : b.Reports) (code : UInt16) (headers : Headers) :
    (b.raise code headers).2.Reports := by
  unfold Board.raise
  split
  · exact h.note rfl
  · exact (lastTold_cons (.replied code headers true) b.log).symm

theorem claim (h : b.Reports) (ending : Ending) : (b.claim ending).2.Reports := by
  cases hc : b.claimed with
  | true => rw [claim_of_claimed hc]; exact h
  | false =>
    rw [claim_of_unclaimed hc]
    refine h.grow (claimEvents ending) rfl (fun e he => ?_) rfl
    rcases mem_claimEvents he with rfl | rfl | rfl <;> rfl

theorem terminate (h : b.Reports) (ending : Ending) : (b.terminate ending).2.Reports := by
  unfold Board.terminate
  dsimp only
  split
  · exact (h.claim ending).schedule _
  · exact h.claim ending

/-- **What is done through a handle** keeps the report. -/
theorem perform (h : b.Reports) {side : Side} (index : Nat) (x : Action side) :
    (b.perform index x).Reports := by
  cases x with
  | reply code headers =>
    unfold Board.perform
    dsimp only
    split
    · exact (h.raise code headers).schedule _
    · exact h.raise code headers
  | replaceHeaders | replaceData | replaceTrailers => exact h.same rfl rfl
  | resume => exact h.schedule _
  | terminate =>
    unfold Board.perform abandon
    dsimp only
    split
    · exact h.terminate _
    · split
      · exact h
      · exact h.same rfl rfl

theorem run {α : Type} {side : Side} (filter : σ) (index : Nat) (program : Program side α)
    {b : Board σ} (h : b.Reports) : (program.run filter index b).2.Reports := by
  induction program generalizing b with
  | done a => exact h
  | act x rest ih => exact ih (h.perform index x)
  | look rest ih => exact ih _ (h.note rfl)

end Board.Reports

/-! ## Introductions, passes and farewells -/

namespace FilterSet

variable (β : Behaviour σ)

/-- **A filter that is given its handle** keeps the report. -/
theorem reports_introduce (s : FilterSet σ) {b : Board σ} (h : b.Reports) (r : Registration σ) :
    (s.introduce β b r).2.Reports :=
  (h.note (e := .added r.side (s.size r.side) r.filter) rfl).run r.filter (s.size r.side) _

theorem reports_callRequest (index : Nat) (f : Seated σ) (w : Workbench σ) (h : w.board.Reports) :
    (callRequest β index f w).state.board.Reports := (h.note rfl).run f.filter f.seat _

theorem reports_callResponse (index : Nat) (f : Seated σ) (w : Workbench σ) (h : w.board.Reports) :
    (callResponse β index f w).state.board.Reports := by
  have hput : (w.board.putReplaced w.parts).2.Reports := h.same rfl rfl
  have hrun :=
    (hput.note (e := .called .response index f.filter (w.board.putReplaced w.parts).2.point
    (w.board.putReplaced w.parts).1) rfl).run f.filter f.seat
      (β.onResponse f.filter (w.board.putReplaced w.parts).2.context
        (w.board.putReplaced w.parts).1)
  unfold callResponse
  dsimp only
  split
  · exact hrun
  · exact hrun.same rfl rfl

/-- A pass keeps the report if its calls do. -/
theorem reports_pass {π : Type} [DecidableEq π] (point : π) (start : Nat) (convert : Converter)
    {φ : Type} {call : Nat → φ → Workbench σ → Chain.Called φ (Workbench σ)}
    (hcall : ∀ i f w, w.board.Reports → (call i f w).state.board.Reports) (chain : Chain φ π)
    {w : Workbench σ}
    (h : w.board.Reports) : (chain.pass point start convert call w).state.board.Reports := by
  obtain ⟨is, hp⟩ : ∃ is, Chain.Passes point start convert call none 0 chain w is _ :=
    Chain.passes_passFrom none 0 chain w
  exact hp.keeps (P := fun v => v.board.Reports) hcall h

theorem reports_passRequests (point : RequestPoint) (start : Nat) (convert : Converter)
    (s : FilterSet σ)
    (w : Workbench σ) (h : w.board.Reports) :
      (passRequests β point start convert s w).bench.board.Reports := by
  have hpass := reports_pass point start convert (reports_callRequest β) s.requests
    (w := { w with board := { w.board with point := some point } }) (h.same rfl rfl)
  unfold passRequests
  dsimp only
  generalize s.requests.pass point start convert (callRequest β) _ = r at hpass ⊢
  split
  · exact hpass.note rfl
  · have hcleared : ({ r.state.board with point := none } : Board σ).Reports := hpass.same rfl rfl
    exact hcleared.note rfl

theorem reports_passResponses (point : ResponsePoint) (start : Nat) (convert : Converter)
    (s : FilterSet σ)
    (w : Workbench σ) (h : w.board.Reports) :
      (passResponses β point start convert s w).bench.board.Reports :=
  reports_pass point start convert (reports_callResponse β) s.responses h

theorem reports_destroyFrom {π : Type} (side : Side) (index : Nat) (chain : Chain (Seated σ) π)
    {b : Board σ} (h : b.Reports) : (destroyFrom β side index chain b).2.2.Reports := by
  induction chain generalizing index b with
  | nil => exact h
  | cons e rest ih =>
    have hrun := (h.note (e := .destroyed side index e.filter.filter) rfl).run e.filter.filter
      e.filter.seat
      (β.onDestroy e.filter.filter side)
    unfold destroyFrom
    dsimp only
    split
    · exact hrun
    · exact ih _ hrun

theorem reports_destroy (s : FilterSet σ) {b : Board σ} (h : b.Reports) :
    (s.destroy β b).2.2.Reports := by
  have hrequests := reports_destroyFrom β .request 0 s.requests h
  unfold destroy
  dsimp only
  split
  · exact hrequests
  · exact reports_destroyFrom β .response 0 s.responses hrequests

end FilterSet

/-! ## Phases -/

namespace Stream

section

variable (β : Behaviour σ) {s : Stream σ} (h : s.board.Reports)

include h

theorem reports_release (ending : Ending) : (s.release β ending).2.board.Reports := by
  have hparting := reports_destroy β s.filters h
  rw [release_eq]
  cases (s.filters.destroy β s.board).1 with
  | some p => exact hparting
  | none => exact hparting.publish _

theorem reports_finish (ending : Ending) : (s.finish β ending).2.board.Reports := by
  cases hc : s.board.claimed with
  | true => rw [finish_of_claimed β hc]; exact h
  | false =>
    rw [finish_of_unclaimed β hc]
    exact reports_release β (s := { s with board := (s.board.claim ending).2 })
      (h.claim ending) ending

theorem reports_pause (n : Nat) : (s.pause n).2.board.Reports := by
  cases hc : s.board.claimed with
  | true => rw [pause_of_claimed n hc]; exact h
  | false =>
    rw [pause_of_unclaimed n hc]
    cases s.settings.stopTimeout with
    | none => exact h.publish _
    | some delay => exact (h.publish (.paused s.phase)).note rfl

theorem reports_noteAbort (cause : Abort) : (s.noteAbort cause).board.Reports := by
  cases cause with
  | panic => exact h.note rfl
  | verdict => exact h

theorem reports_filterResponse (k : Nat) : (s.filterResponse β k).2.board.Reports := by
  have hclosed : s.board.closeReply.2.Reports := h.same rfl rfl
  have hpass : (({ s with board := s.board.closeReply.2 } : Stream σ).passResponse β .beforeSend k
      .keep).2.board.Reports :=
    reports_passResponses β .beforeSend k .keep s.filters
      ⟨s.board.closeReply.2, s.response.parts⟩ hclosed
  unfold filterResponse
  dsimp only
  generalize ({ s with board := s.board.closeReply.2 } : Stream σ).passResponse β .beforeSend k
    .keep = r at hpass ⊢
  split
  · exact hpass
  · exact hpass
  · exact hpass
  · exact reports_pause hpass _
  · exact reports_noteAbort hpass _

theorem reports_runResponseFilters (message : Message) (convert : Converter) :
    (s.runResponseFilters β .beforeSend message convert).2.board.Reports := by
  have hpass := reports_passResponses β .beforeSend 0 convert s.filters ⟨s.board, message.parts⟩ h
  rw [runResponseFilters_eq β message convert rfl]
  generalize passResponses β .beforeSend 0 convert s.filters ⟨s.board, message.parts⟩ = r at hpass ⊢
  split
  case h_1 cause _ =>
    have hnoted := reports_noteAbort (s := { s with
      filters := r.filters, board := r.bench.board, response := r.bench.parts.message }) hpass cause
    exact reports_finish β hnoted cause.ending
  case h_2 => exact hpass

/-- A pass that is concluded tells nothing more. -/
theorem Concludes.reports {result : Except Panic Outcome} {step : Step} {s' : Stream σ}
    (hs : s.Concludes result step s') : s'.board.Reports := by
  cases hs with
  | reply => exact h.same rfl rfl
  | pause => exact reports_pause h _
  | abort cause => exact reports_noteAbort h cause
  | _ => exact h

end

end Stream

namespace Turn

variable (c : Surroundings σ ε) {t : Turn σ ε} (h : t.stream.board.Reports)

include h

theorem reports_matchRoute : (t.matchRoute c).2.stream.board.Reports := by
  unfold matchRoute
  dsimp only
  split
  · exact h.note rfl
  · exact h.note rfl
  · exact (h.note (e := .routed _ _) rfl).same rfl rfl

theorem reports_chooseHost : (t.chooseHost c).2.stream.board.Reports := by
  unfold chooseHost
  split
  · exact h
  · dsimp only
    split
    · exact h.note rfl
    · exact h.note rfl
    · exact (h.note (e := .chosen _ _ _) rfl).same rfl rfl

omit h in
theorem reports_answer {s : Stream σ} (h : s.board.Reports) (x : Handover) :
    (answer s x).board.Reports := by
  cases x with
  | kept | dropped => exact h
  | responded m => exact h.schedule _
  | failed failure => exact h.terminate _

theorem reports_forward : (t.forward c).2.stream.board.Reports := by
  unfold forward
  split
  · exact h
  · dsimp only
    split <;> exact reports_answer (s := t.stream.note _) (h.note rfl) _

/-- **A response that is written reports its code**, if it carries one. -/
theorem reports_respond : (t.respond c).2.stream.board.Reports := by
  have hput : (t.stream.board.putReplaced t.stream.response.parts).2.Reports := h.same rfl rfl
  unfold respond
  dsimp only
  generalize t.stream.board.putReplaced t.stream.response.parts = put at hput ⊢
  cases hcode : put.1.message.code? with
  | none =>
    have hwritten (answer : Except Panic (Except Failure Unit)) :
        (put.2.note (.written put.1.message answer)).Reports := hput.note hcode
    dsimp only
    split
    · exact hwritten _
    · exact hwritten _
    · exact (hwritten _).note rfl
  | some code =>
    have hwritten (answer : Except Panic (Except Failure Unit)) :
        (Board.note { put.2 with info := { put.2.info with code := some code } }
          (.written put.1.message answer)).Reports := by
      rw [Reports, Board.note, lastTold_cons]
      exact (congrArg (Option.or · _) hcode).symm
    dsimp only
    split
    · exact hwritten _
    · exact hwritten _
    · exact (hwritten _).note rfl

omit h in
/-- **Every phase keeps the report.** -/
theorem reports_execute {k : Nat} {t t' : Turn σ ε} {step : Step} (ho : t.stream.board.owned = true)
    (h : t.stream.board.Reports) (hx : t.execute c k = (step, t')) : t'.stream.board.Reports := by
  have hentered : t.stream.entered.board.Reports := h.note rfl
  by_cases hp : ∃ point : RequestPoint, t.stream.phase = point.phase
  case pos =>
    obtain ⟨point, hp⟩ := hp
    obtain ⟨hconcludes, -⟩ := concludes_execute hp ho hx
    exact hconcludes.reports (reports_passRequests c.behaviour point k _ _ _ hentered)
  case neg =>
    obtain rfl : (t.execute c k).2 = t' := by rw [hx]
    unfold execute Turn.step
    split
    · exact hentered
    · rename_i hp'; exact absurd ⟨.beforeRoute, hp'⟩ hp
    · exact reports_matchRoute c hentered
    · rename_i hp'; exact absurd ⟨.afterRoute, hp'⟩ hp
    · exact reports_chooseHost c hentered
    · rename_i hp'; exact absurd ⟨.afterHost, hp'⟩ hp
    · exact reports_forward c hentered
    · exact hentered
    · exact reports_filterResponse c.behaviour hentered k
    · exact reports_respond c hentered
    · exact hentered

end Turn

/-! ## Drives and jobs -/

namespace Turn

variable {c : Surroundings σ ε} {x y : Nat × Turn σ ε}

theorem Stride.reports (hs : Stride c x y) (ho : x.2.stream.board.owned = true)
    (h : x.2.stream.board.Reports) :
    y.2.stream.board.Reports := by
  cases hs with
  | next hl he => exact (reports_execute c ho h he).note rfl
  | @goto k t t' q hl he => exact (reports_execute c ho h he : t'.stream.board.Reports)
  | jump hl he => exact (reports_execute c ho h he).note rfl

/-- **A drive keeps the report.** -/
theorem Drives.reports {r : Option Panic × Turn σ ε} (hd : Drives c x r)
    (ho : x.2.stream.board.owned = true)
    (h : x.2.stream.board.Reports) : r.2.stream.board.Reports := by
  obtain ⟨y, hstrides, hstop⟩ := hd
  have hy : y.2.stream.board.Reports := by
    clear hstop
    induction hstrides with
    | refl => exact h
    | tail hs hstride ih => exact hstride.reports (Stride.owned_strides hs ho) ih
  have ho := Stride.owned_strides hstrides ho
  cases hstop with
  | halt => exact hy
  | rest hl he => exact reports_execute c ho hy he
  | escape hl he => exact reports_execute c ho hy he
  | finish hl he => exact reports_finish c.behaviour (reports_execute c ho hy he) _
  | overrun hl he => exact reports_finish c.behaviour (reports_execute c ho hy he) _

/-- **A job keeps the report.** -/
theorem Ran.reports {t : Turn σ ε} {job : Job} {r : Option Panic × Turn σ ε} (hr : Ran c t job r)
    (ho : t.stream.board.owned = true) (h : t.stream.board.Reports) : r.2.stream.board.Reports := by
  cases hr with
  | idle => exact h
  | timeout => exact reports_finish c.behaviour h .stopTimeout
  | release ending => exact reports_release c.behaviour h ending
  | @drive _ start s hopens =>
    have hs : s.board.Reports := by
      cases hopens with
      | receive => exact h
      | resume => exact h.publish _
      | reroute => exact (h.publish .running).same rfl rfl
      | response => exact (h.same rfl rfl : t.stream.board.closeReply.2.Reports).note rfl
    have howned := hopens.owned ho
    exact (drives_drive c start ⟨s, t.env⟩ howned).reports howned hs

end Turn

/-! ## Whole lives -/

/-- **Every deed keeps the report.** -/
theorem Life.reports_next {l : Life σ} (ho : l.stream.board.owned = true)
    (h : l.stream.board.Reports) (d : Deed σ ε) : (l.next d).stream.board.Reports := by
  cases d with
  | add β r => exact reports_introduce β l.stream.filters h r
  | receive | resume => exact h.schedule _
  | terminate ending => exact h.terminate _
  | act side filter index program => exact h.run filter index program
  | answer x => exact Turn.reports_answer h x
  | direct c message convert => exact reports_runResponseFilters c.behaviour h message convert
  | run p c env =>
    by_cases hp : l.Due p
    case neg => rwa [Life.next, if_neg hp]
    have hran := (Turn.ran_exec c ⟨l.stream, env⟩ p.job).reports ho h
    rw [Life.next, if_pos hp]
    dsimp only
    cases (Turn.exec c p.job ⟨l.stream, env⟩).1 with
    | none => exact hran
    | some panic => exact hran.note rfl

/-- **Every stream reports the code told last.** -/
theorem Life.reports_after (id : StreamId) (settings : Settings) (deeds : List (Deed σ ε)) :
    (after id settings deeds).stream.board.Reports := by
  induction deeds using List.reverseRecOn with
  | nil => rfl
  | append_singleton deeds d ih =>
    rw [after_append]
    exact reports_next (reached_after id settings deeds).orderly.books.owned ih d

/-! ## Past the writing -/

/-- Only replies that are accepted and responses that are written tell of a code. -/
theorem Event.told?_eq_none {e : Event σ} (hr : e.reply? = none) (hw : e.isWriting = false) :
    e.told? = none := by
  cases e with
  | replied code headers accepted =>
    cases accepted with
    | false => rfl
    | true => cases hr
  | written => cases hw
  | _ => rfl

/-- Before a response is written, codes are told by replies alone. -/
theorem lastTold_of_unwritten {log : List (Event σ)} (h : ∀ e ∈ log, e.isWriting = false) :
    lastTold log = (replies log).head?.bind Message.code? := by
  induction log with
  | nil => rfl
  | cons e log ih =>
    obtain ⟨he, hlog⟩ := List.forall_mem_cons.mp h
    rw [lastTold_cons, ih hlog, replies, replies, filterMap_cons_toList]
    cases hr : e.reply? with
    | none => rw [Event.told?_eq_none hr he]; rfl
    | some reply =>
      cases e with
      | replied code headers accepted =>
        cases accepted with
        | false => cases hr
        | true =>
          cases hr
          exact (code?_replyMessage code headers).symm
      | _ => cases hr

/-- Every accepted reply has a code. -/
theorem code?_ne_none_of_mem_replies {log : List (Event σ)} {reply : Message}
    (h : reply ∈ replies log) :
    reply.code? ≠ none := by
  obtain ⟨e, -, he⟩ := List.mem_filterMap.mp h
  cases e with
  | replied code headers accepted =>
    cases accepted with
    | false => cases he
    | true =>
      cases he
      rw [code?_replyMessage]
      exact Option.some_ne_none code
  | _ => cases he

/-- No code is told once a response is written. -/
theorem Life.told?_eq_none_of_written (id : StreamId) (settings : Settings)
    (deeds : List (Deed σ ε)) {newer older : List (Event σ)} {e : Event σ} (hw : e.isWriting = true)
    (hlog : (after id settings deeds).log = newer ++ e :: older) : ∀ f ∈ newer, f.told? = none := by
  intro f hf
  obtain ⟨latest, between, rfl⟩ := List.append_of_mem hf
  have hsplit : (after id settings deeds).log = latest ++ f :: (between ++ e :: older) := by
    rw [hlog, List.append_assoc, List.cons_append]
  have hlawful := (reached_after id settings deeds).onCourse.lawful
  refine Event.told?_eq_none ?_ ?_
  · refine (lived_after id settings deeds).replying.board.refused latest f _ hsplit ?_
    obtain ⟨hentered, -⟩ := Event.Lawful.writing hlawful _ e older hlog hw
    rw [entries, List.filterMap_append, List.mem_append]
    exact .inr (List.mem_filterMap.mpr ((List.mem_filterMap.mp hentered).imp fun _ h =>
      h.imp_left (.tail e)))
  · by_contra hf'
    have hothers := (Event.Lawful.writing hlawful latest f _ hsplit (by simpa using hf')).2
    rw [hothers e (List.mem_append_right _ List.mem_cons_self)] at hw
    cases hw

/-- **What a stream reports past the writing of its response** is the code written; where the
response carries none, it is still that of the reply accepted last.  So it reports what was written
exactly if that carries a code, or if no reply was accepted. -/
theorem reported_iff (id : StreamId) (settings : Settings) (deeds : List (Deed σ ε)) {m : Message}
    {answer : Except Panic (Except Failure Unit)} {older : List (Event σ)}
    (hwritten : .written m answer :: older <:+ (after id settings deeds).log) :
    let code := (after id settings deeds).stream.board.info.code
    code = m.code?.or ((replies older).head?.bind Message.code?) ∧
      (code = m.code? ↔ m.code? ≠ none ∨ replies older = []) := by
  obtain ⟨newer, hlog⟩ := hwritten
  have hunwritten : ∀ f ∈ older, f.isWriting = false :=
    (Event.Lawful.writing (reached_after id settings deeds).onCourse.lawful newer _ older
      hlog.symm rfl).2
  have hcode : (after id settings deeds).stream.board.info.code
      = m.code?.or ((replies older).head?.bind Message.code?) := by
    refine (reports_after id settings deeds).trans ?_
    rw [show (after id settings deeds).stream.board.log = _ from hlog.symm,
      lastTold_append (told?_eq_none_of_written id settings deeds rfl hlog.symm), lastTold_cons,
      lastTold_of_unwritten hunwritten]
    rfl
  refine ⟨hcode, ?_⟩
  rw [hcode]
  cases m.code? with
  | some code => exact iff_of_true rfl (.inl (Option.some_ne_none code))
  | none =>
    rw [Option.none_or, or_iff_right fun h => h rfl]
    cases hreplies : replies older with
    | nil => exact iff_of_true rfl rfl
    | cons reply earlier =>
      have hmem : reply ∈ replies older := by rw [hreplies]; exact List.mem_cons_self
      exact iff_of_false (code?_ne_none_of_mem_replies hmem) (List.cons_ne_nil _ _)

/-- A request is answered directly, and a filter may take the code of a response away. -/
def stripping : Behaviour Bool where
  onRequest strips _ parts := .act (.reply 403 {}) (.done ⟨strips, parts, .ok .proceed⟩)
  onResponse strips _ parts :=
    .done ⟨strips, if strips then { parts with headers := parts.headers.erase statusHeader }
      else parts, .ok .proceed⟩
  onDestroy strips _ := .done { filter := strips }

/-- A reply goes through one response filter. -/
def forbidden (strips : Bool) : List (Deed Bool Unit) :=
  [.add stripping (.request false .beforeRoute), .add stripping (.response strips .beforeSend),
    .receive {},
    .run ⟨.receive {}, false⟩ (.secluded stripping) ()]

/-- What is written then. -/
def forbiddance (strips : Bool) : Message where
  headers := some (if strips then {} else ({} : Headers).set statusHeader "403")
  data := some []
  trailers := some {}

/-- A code that is let pass is reported. -/
theorem reported_iff_forbidden :
    .written (forbiddance false) (.ok (.ok ())) :: (after ⟨1⟩ {} (forbidden false)).log.drop 7
        <:+ (after ⟨1⟩ {} (forbidden false)).log ∧
      (after ⟨1⟩ {} (forbidden false)).stream.board.info.code = (forbiddance false).code? := by
  have hwritten : .written (forbiddance false) (.ok (.ok ()))
    :: (after ⟨1⟩ {} (forbidden false)).log.drop 7
      <:+ (after ⟨1⟩ {} (forbidden false)).log :=
        List.drop_suffix 6 (after ⟨1⟩ {} (forbidden false)).log
  exact ⟨hwritten, (reported_iff ⟨1⟩ {} (forbidden false) hwritten).2.mpr
    (.inl (by decide +kernel))⟩

/-- **A code that is taken away is reported all the same**: the response is written without one, the
stream is complete, and the code of the reply stands. -/
theorem stripped_code_reported :
    .written (forbiddance true) (.ok (.ok ())) :: (after ⟨1⟩ {} (forbidden true)).log.drop 7
        <:+ (after ⟨1⟩ {} (forbidden true)).log ∧
      (after ⟨1⟩ {} (forbidden true)).stream.board.status = .finished .completed ∧
      (forbiddance true).code? = none ∧
      (after ⟨1⟩ {} (forbidden true)).stream.board.info.code = some 403 := by
  refine ⟨List.drop_suffix 6 (after ⟨1⟩ {} (forbidden true)).log, ?_, ?_, ?_⟩
  all_goals decide +kernel

end FilterProxy

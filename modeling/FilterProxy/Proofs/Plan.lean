import FilterProxy.Catalog
import FilterProxy.Proofs.Execute

/-!
# Proofs/Plan — what configured filters do to a message

The filters every proxy knows make a **plan**: what they do can be told without running them.  Those
bound to a point are reached in order, up to the first that answers by itself; the others write
their headers over the request, one after the other (`Plan.dressed`).  **A pass over request filters
is as planned** (`Plan.passing_requests`), and so is a pass over response filters
(`Plan.passing_responses`).
-/

namespace FilterProxy

variable {σ : Type}

open FilterSet

/-! ## The plan -/

namespace Builtin

/-- The reply of a filter that answers by itself. -/
def reply? : Builtin → Option Message
  | .directResponse status headers => some (replyMessage status headers)
  | _ => none

/-- What a filter writes over the headers of requests… -/
def requestMap? : Builtin → Option Headers
  | .setHeader headers => some headers
  | _ => none

/-- …and over those of responses. -/
def responseMap? : Builtin → Option Headers
  | .responseHeader headers => some headers
  | _ => none

end Builtin

/-- The registration as an entry of the chain of request filters, if it belongs there. -/
def Registration.request? : Registration σ → Option (Entry σ RequestPoint)
  | .request filter point => some ⟨filter, point⟩
  | .response _ _ => none

/-- The registration as an entry of the chain of response filters, if it belongs there. -/
def Registration.response? : Registration σ → Option (Entry σ ResponsePoint)
  | .request _ _ => none
  | .response filter point => some ⟨filter, point⟩

/-- The parts with headers written over their own, in order. -/
def Parts.dress (p : Parts) (maps : List Headers) : Parts :=
  { p with headers := maps.foldl Headers.overwrite p.headers }

/-- The registrations of a new stream, in order. -/
abbrev Plan := List (Registration Builtin)

namespace Plan

/-- What is reached of a list of filters: those up to the first that answers by itself, and that
one. -/
def reached : List (Entry Builtin RequestPoint × Nat) → List (Entry Builtin RequestPoint × Nat)
  | [] => []
  | x :: rest => if x.1.filter.reply?.isSome then [x] else x :: reached rest

/-- The first reply among filters. -/
def firstReply? (l : List (Entry Builtin RequestPoint × Nat)) : Option Message :=
  l.findSome? (·.1.filter.reply?)

/-- What filters write over the headers of a request, in order. -/
def requestMaps (l : List (Entry Builtin RequestPoint × Nat)) : List Headers :=
  l.filterMap (·.1.filter.requestMap?)

variable (plan : Plan) (point : RequestPoint)

/-- The request filters, in order. -/
def requests : Chain Builtin RequestPoint := plan.filterMap Registration.request?

/-- The response filters, in order. -/
def responses : Chain Builtin ResponsePoint := plan.filterMap Registration.response?

/-- The request filters bound to a point, in order, each with its position among all. -/
def bound : List (Entry Builtin RequestPoint × Nat) :=
  plan.requests.zipIdx.filter (·.1.point = point)

/-- The positions of the filters that are called at a point. -/
def called : List Nat := (reached (plan.bound point)).map (·.2)

/-- The reply given at a point, if a filter answers there by itself. -/
def direct? : Option Message := firstReply? (plan.bound point)

/-- The request past the filters of a point: **their headers written over its own in order**, absent
parts made empty, and nothing else changed. -/
def dressed (m : Message) : Message := (m.parts.dress (requestMaps (plan.bound point))).message

/-- What is sent of a response: the response filters' headers written over its own in order, absent
parts made empty, and nothing else changed. -/
def sent (m : Message) : Message :=
  (m.parts.dress (plan.responses.filterMap (·.filter.responseMap?))).message

end Plan

/-! ## Installed filters -/

/-- The filters of a chain without their seats. -/
def Chain.unseated {π : Type} (chain : Chain (Seated σ) π) : Chain σ π :=
  chain.map fun e => ⟨e.filter.filter, e.point⟩

theorem FilterSet.unseated_enlist (s : FilterSet σ) (r : Registration σ) :
    (s.enlist r).requests.unseated = s.requests.unseated ++ [r].filterMap Registration.request? ∧
      (s.enlist r).responses.unseated = s.responses.unseated
        ++ [r].filterMap Registration.response? := by
  cases r <;> simp [enlist, Chain.unseated, Registration.request?, Registration.response?]

/-! ## Passes as planned -/

namespace Chain

variable {φ π ω : Type} [DecidableEq π] {point : π} {call : Nat → φ → ω → Called φ ω} {index : Nat}
  {e : Entry φ π} {rest : Chain φ π} {w w' : ω} {f : φ}

/-- A filter that lets the message pass is followed by the rest of the pass… -/
theorem passFrom_proceed (he : e.point = point)
    (hcall : call index e.filter w = ⟨.ok .proceed, f, w'⟩) :
    passFrom point 0 .keep call none index (e :: rest) w =
      let r := passFrom point 0 .keep call none (index + 1) rest w'
      ⟨r.result, ⟨f, e.point⟩ :: r.chain, r.state⟩ := by
  have hkeep : Converter.keep .proceed = .ok .proceed := rfl
  rw [passFrom_walk ⟨Nat.zero_le _, he⟩ (congrArg Called.answer hcall) hkeep, hcall]
  rfl

/-- …and one that stops ends it. -/
theorem passFrom_stop (he : e.point = point) (hcall : call index e.filter w = ⟨.ok .stop, f, w'⟩) :
    passFrom point 0 .keep call none index
      (e :: rest) w = ⟨.ok (.stopped index), ⟨f, e.point⟩ :: rest, w'⟩ := by
  rw [passFrom_halt ⟨Nat.zero_le _, he⟩ (by rw [hcall]; rfl), hcall]

end Chain

namespace Plan

open Builtin

variable {index : Nat} {w : Workbench Builtin}

/-- A filter that does not answer by itself writes its headers, if any, and lets the request
pass. -/
theorem callRequest_of_eq_none {f : Seated Builtin} (hf : f.filter.reply? = none) :
    callRequest behaviour index f w = ⟨.ok .proceed, f,
      ⟨w.board.note (.called .request index f.filter w.board.point w.parts),
        w.parts.dress f.filter.requestMap?.toList⟩⟩ := by
  obtain ⟨f, seat⟩ := f
  cases f with
  | directResponse => cases hf
  | _ => rfl

/-- A filter that answers by itself raises its reply and stops the pass. -/
theorem callRequest_of_eq_some (index : Nat) {f : Seated Builtin} {m : Message}
    (hf : f.filter.reply? = some m)
    (ho : w.board.owned = true) (hc : w.board.closed = false) : ∃ info new,
      callRequest behaviour index f w
        = ⟨.ok .stop, f,
          ⟨{ w.board with reply := some m, info, log := new ++ w.board.log }, w.parts⟩⟩ ∧
      calls .request new = [index] ∧ ∀ e ∈ new, e.isOutward = false := by
  obtain ⟨f, seat⟩ := f
  cases f with
  | directResponse status headers =>
    obtain rfl := Option.some.inj hf
    refine ⟨{ w.board.info with code := some status },
      [.scheduled (.resume none), .replied status headers true,
      .called .request index (directResponse status headers) w.board.point w.parts], ?_, rfl, ?_⟩
    · simp [callRequest, behaviour, Program.through, Program.run, Board.perform,
        Board.raise, Board.note, Board.schedule, hc, ho]
    · simp [Event.isOutward]
  | _ => cases hf

theorem firstReply?_cons (e : Entry Builtin RequestPoint)
    (l : List (Entry Builtin RequestPoint × Nat)) :
    firstReply? ((e, index) :: l) = e.filter.reply?.or (firstReply? l) := by
  rw [firstReply?, List.findSome?_cons]
  cases e.filter.reply? <;> rfl

/-- **A pass over request filters as planned**, of which `l` were to be called: what it logs, what
it comes to and what it makes of the request. -/
structure Passing (l : List (Entry Builtin RequestPoint × Nat)) (p : Parts)
    (new : List (Event Builtin)) (result : Except Panic Outcome) (parts : Parts) : Prop where
  calls : calls .request new = ((reached l).map (·.2)).reverse
  hidden : ∀ e ∈ new, e.isOutward = false
  through : firstReply? l = none → result = .ok .completed ∧ parts = p.dress (requestMaps l)
  answered : (firstReply? l).isSome → ∃ i, result = .ok (.stopped i)

namespace Passing

variable {e : Entry Builtin RequestPoint} {l : List (Entry Builtin RequestPoint × Nat)}
  {p parts : Parts} {new : List (Event Builtin)} {result : Except Panic Outcome}

/-- The pass ends with a filter that answers by itself… -/
theorem stopped {m : Message} (hf : e.filter.reply? = some m)
    (hc : FilterProxy.calls .request new = [index])
    (hnew : ∀ e ∈ new, e.isOutward = false) :
      Passing ((e, index) :: l) p new (.ok (.stopped index)) p where
  calls := by simpa [reached, hf] using hc
  hidden := hnew
  through hn := by
    rw [firstReply?_cons, hf] at hn
    cases hn
  answered _ := ⟨index, rfl⟩

/-- …and goes on behind one that does not. -/
theorem proceeded (hf : e.filter.reply? = none) {point : Option RequestPoint} {q : Parts}
    (h : Passing l (p.dress e.filter.requestMap?.toList) new result parts) :
    Passing ((e, index) :: l) p
      (new ++ [.called .request index e.filter point q]) result parts where
  calls := by
    rw [FilterProxy.calls, List.filterMap_append, show new.filterMap _ = _ from h.calls]
    simp [reached, hf, Event.call?]
  hidden x hx := by
    rcases List.mem_append.mp hx with hx | hx
    · exact h.hidden x hx
    · rw [List.mem_singleton.mp hx]
      rfl
  through hn := by
    rw [firstReply?_cons, hf] at hn
    obtain ⟨hresult, hparts⟩ := h.through hn
    refine ⟨hresult, hparts.trans ?_⟩
    simp only [requestMaps, List.filterMap_cons]
    cases e.filter.requestMap? <;> rfl
  answered hs := by
    rw [firstReply?_cons, hf] at hs
    exact h.answered hs

end Passing

/-- **Every pass over request filters is as planned**: it leaves the filters as they are, and on the
board the reply that was given. -/
theorem passing_requests (chain : Chain (Seated Builtin) RequestPoint) (index : Nat)
    (w : Workbench Builtin)
    (ho : w.board.owned = true) (hc : w.board.closed = false) (hr : w.board.reply = none)
    {l : List (Entry Builtin RequestPoint × Nat)}
    (hl : (chain.unseated.zipIdx index).filter (·.1.point = point) = l) :
    ∃ info new result parts, Chain.passFrom point 0 .keep (callRequest behaviour) none index chain w
        = ⟨result, chain,
          ⟨{ w.board with reply := firstReply? l, info, log := new ++ w.board.log }, parts⟩⟩ ∧
      Passing l w.parts new result parts := by
  induction chain generalizing index w l with
  | nil =>
    subst hl
    have hquiet : w.board.reply = firstReply? [] := hr
    refine ⟨w.board.info, [], .ok .completed, w.parts, ?_, rfl, List.forall_mem_nil _, fun _ =>
      ⟨rfl, rfl⟩, nofun⟩
    rw [show (Chain.unseated [] |>.zipIdx index).filter _ = [] from rfl, ← hquiet]
    rfl
  | cons e rest ih =>
    rw [Chain.unseated, List.map_cons, List.zipIdx_cons] at hl
    by_cases he : e.point = point
    case neg =>
      rw [List.filter_cons_of_neg (by simpa using he)] at hl
      obtain ⟨info, new, result, parts, hpass, hpassing⟩ := ih (index + 1) w ho hc hr hl
      rw [Chain.passFrom_skip fun h => he h.2, hpass]
      exact ⟨info, new, result, parts, rfl, hpassing⟩
    rw [List.filter_cons_of_pos (by simpa using he)] at hl
    subst hl
    cases hf : e.filter.filter.reply? with
    | some m =>
      obtain ⟨info, new, hcall, hcalls, hnew⟩ := callRequest_of_eq_some index hf ho hc
      rw [Chain.passFrom_stop he hcall, firstReply?_cons, hf]
      exact ⟨info, new, .ok (.stopped index), w.parts, rfl, .stopped hf hcalls hnew⟩
    | none =>
      obtain ⟨info, new, result, parts, hpass, hpassing⟩ := ih (index + 1)
        ⟨w.board.note (.called .request index e.filter.filter w.board.point w.parts),
          w.parts.dress e.filter.filter.requestMap?.toList⟩ ho hc hr rfl
      rw [Chain.passFrom_proceed he (callRequest_of_eq_none hf), hpass, firstReply?_cons, hf]
      refine ⟨info, new ++ [.called .request index e.filter.filter w.board.point w.parts],
        result, parts, ?_,
        hpassing.proceeded hf⟩
      rw [List.append_assoc]
      rfl

/-- No replacement waits to be put in. -/
theorem putReplaced_eq {b : Board Builtin} (hr : b.replaced = {}) (p : Parts) :
    b.putReplaced p = (p, b) := by
  obtain ⟨context, owned, point, claimed, route, info, replaced⟩ := b
  obtain rfl : replaced = {} := hr
  rfl

/-- A filter writes its headers, if any, over those of a response, and lets it pass. -/
theorem callResponse_eq (f : Seated Builtin) (hr : w.board.replaced = {}) :
    callResponse behaviour index f w
    = ⟨.ok .proceed, f, ⟨w.board.note (.called .response index f.filter w.board.point w.parts),
        w.parts.dress f.filter.responseMap?.toList⟩⟩ := by
  have hr' (e : Event Builtin) : (w.board.note e).replaced = {} := hr
  unfold callResponse
  dsimp only
  rw [putReplaced_eq hr]
  obtain ⟨f, seat⟩ := f
  cases f <;> simp [behaviour, writeHeaders, Program.through, Program.run, putReplaced_eq (hr' _)]
    <;> rfl

/-- **Every pass over response filters is as planned**: it leaves the filters as they are and calls
nobody else, and it writes their headers over those of the response, unless a converter
interferes. -/
theorem passing_responses (convert : Converter) (chain : Chain (Seated Builtin) ResponsePoint)
    (index : Nat) (w : Workbench Builtin) (hr : w.board.replaced = {}) :
    ∃ result new parts, Chain.passFrom .beforeSend 0 convert
      (callResponse behaviour) none index chain w
        = ⟨result, chain, ⟨{ w.board with log := new ++ w.board.log }, parts⟩⟩ ∧
      (∀ e ∈ new, e.call? .request = none ∧ e.isOutward = false) ∧
      (convert = .keep → result = .ok .completed ∧
        parts = w.parts.dress (chain.unseated.filterMap (·.filter.responseMap?))) := by
  induction chain generalizing index w with
  | nil => exact ⟨.ok .completed, [], w.parts, rfl, List.forall_mem_nil _, fun _ => ⟨rfl, rfl⟩⟩
  | cons e rest ih =>
    let called : Event Builtin := .called .response index e.filter.filter w.board.point w.parts
    have hcalled : called.call? .request = none ∧ called.isOutward = false := ⟨rfl, rfl⟩
    let dressed := w.parts.dress e.filter.filter.responseMap?.toList
    rw [Chain.passFrom, if_pos ⟨Nat.zero_le _, rfl⟩, callResponse_eq e.filter hr]
    dsimp only
    cases hverdict : convert .proceed with
    | error p =>
      exact ⟨.error p, [called], dressed,
        rfl, by simpa using hcalled, by rintro rfl; cases hverdict⟩
    | ok verdict =>
      cases hhalt : Chain.halt? index verdict with
      | some outcome =>
        refine ⟨.ok outcome, [called],
          dressed, by simp only [hhalt]; rfl, by simpa using hcalled, ?_⟩
        rintro rfl
        obtain rfl := Except.ok.inj hverdict
        cases hhalt
      | none =>
        obtain ⟨result, new, parts, hpass, hnew, hkeep⟩ :=
          ih (index + 1) ⟨w.board.note called, dressed⟩ hr
        refine ⟨result, new ++ [called], parts, ?_, fun x hx => ?_, fun hc => ?_⟩
        · simp only [hhalt]
          rw [show (Verdict.target? .proceed <|> none) = none from rfl, hpass, List.append_assoc]
          rfl
        · rcases List.mem_append.mp hx with hx | hx
          · exact hnew x hx
          · exact List.mem_singleton.mp hx ▸ hcalled
        · obtain ⟨hresult, hparts⟩ := hkeep hc
          refine ⟨hresult, hparts.trans ?_⟩
          dsimp only [dressed, Chain.unseated]
          rw [List.map_cons, List.filterMap_cons]
          cases e.filter.filter.responseMap? <;> rfl

/-! ## Passes of a stream's filters -/

variable {plan : Plan} {s : FilterSet Builtin}

/-- **A phase of request filters passes as planned.** -/
theorem passRequests_eq (point : RequestPoint) (hs : s.requests.unseated = plan.requests)
    (ho : w.board.owned = true)
    (hc : w.board.closed = false) (hr : w.board.reply = none) : ∃ info new result parts,
      passRequests behaviour point 0 .keep s w = ⟨result, s, ⟨{ w.board with
        point := none, reply := plan.direct? point, info, log := new ++ w.board.log }, parts⟩⟩ ∧
      Passing (plan.bound point) w.parts new result parts := by
  obtain ⟨info, new, result, parts, hpass, hcalls, hnew, hthrough, hanswered⟩ :=
    passing_requests s.requests 0 { w with board := { w.board with point := some point } } ho hc hr
      (l := plan.bound point) (by rw [hs]; rfl)
  have passed {outcome : Outcome} (hresult : result = .ok outcome)
    (ho : ∀ q, outcome ≠ .resumeAt q) :
      ∃ new', passRequests behaviour point 0 .keep s w = ⟨result, s, ⟨{ w.board with
        point := none, reply := plan.direct? point, info, log := new' ++ w.board.log }, parts⟩⟩ ∧
      Passing (plan.bound point) w.parts new' result parts := by
    refine ⟨.passed point result :: new, ?_, hcalls, List.forall_mem_cons.mpr ⟨rfl, hnew⟩,
      hthrough, hanswered⟩
    unfold passRequests Chain.pass
    rw [hpass, hresult]
    cases outcome with
    | resumeAt q => exact absurd rfl (ho q)
    | _ => rfl
  cases hfirst : plan.direct? point with
  | none =>
    obtain ⟨new, hnew⟩ := passed (hthrough hfirst).1 nofun
    exact ⟨info, new, result, parts, hfirst ▸ hnew⟩
  | some m =>
    obtain ⟨i, hresult⟩ := hanswered (Option.isSome_iff_exists.mpr ⟨m, hfirst⟩)
    obtain ⟨new, hnew⟩ := passed hresult nofun
    exact ⟨info, new, result, parts, hfirst ▸ hnew⟩

/-- **The response filters of a stream pass as planned.** -/
theorem passResponses_eq (convert : Converter) (hs : s.responses.unseated = plan.responses)
    (hr : w.board.replaced = {}) :
    ∃ result new parts, passResponses behaviour .beforeSend 0 convert s w
        = ⟨result, s, ⟨{ w.board with log := new ++ w.board.log }, parts⟩⟩ ∧
      (∀ e ∈ new, e.call? .request = none ∧ e.isOutward = false) ∧
      (convert = .keep → result = .ok .completed ∧
        parts = w.parts.dress (plan.responses.filterMap (·.filter.responseMap?))) := by
  obtain ⟨result, new, parts, hpass, hnew, hkeep⟩ := passing_responses convert s.responses 0 w hr
  refine ⟨result.map settle, new, parts, ?_, hnew, fun hc => ?_⟩
  · unfold passResponses Chain.pass
    rw [hpass]
  · obtain ⟨rfl, hparts⟩ := hkeep hc
    exact ⟨rfl, hs ▸ hparts⟩

end Plan

end FilterProxy

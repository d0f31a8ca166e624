import FilterProxy.Proofs.Sweep

/-!
# Proofs/Draft — the response, revised on its way

A **draft** is the response as its filters last left it, with the replacements that wait to be put
in.  It is told without a board: it is revised when the response arrives, when a handle replaces a
part, when a filter edits it, and when it is sent (`Draft.revise`).  Whatever filters do through
their handles, the board holds what the draft has waiting (`Board.Retains`), and **a pass over
response filters leaves the parts that its draft has** (`Workbench.Shows`), unless somebody ends the
stream.
-/

namespace FilterProxy

variable {σ ε : Type}

open Board FilterSet FilterProxy.Stream

/-! ## Replacements -/

/-- A part to be put in the place of the one there. -/
inductive Swap where
  | headers (h : Headers)
  | data (d : Body)
  | trailers (t : Headers)

namespace Swap

def headers? : Swap → Option Headers
  | .headers h => some h
  | _ => none

def data? : Swap → Option Body
  | .data d => some d
  | _ => none

def trailers? : Swap → Option Headers
  | .trailers t => some t
  | _ => none

end Swap

/-- **What waits after these swaps**: of each part, the latest that was made of it. -/
def Replaced.latest (xs : List Swap) : Replaced where
  headers := (xs.filterMap Swap.headers?).getLast?
  data := (xs.filterMap Swap.data?).getLast?
  trailers := (xs.filterMap Swap.trailers?).getLast?

namespace Replaced

variable (xs : List Swap)

@[simp] theorem latest_nil : latest [] = {} := rfl

@[simp] theorem latest_headers (h : Headers) :
    latest (xs ++ [.headers h]) = { latest xs with headers := some h } := by
  simp [latest, Swap.headers?, Swap.data?, Swap.trailers?]

@[simp] theorem latest_data (d : Body) :
    latest (xs ++ [.data d]) = { latest xs with data := some d } := by
  simp [latest, Swap.headers?, Swap.data?, Swap.trailers?]

@[simp] theorem latest_trailers (t : Headers) :
    latest (xs ++ [.trailers t]) = { latest xs with trailers := some t } := by
  simp [latest, Swap.headers?, Swap.data?, Swap.trailers?]

end Replaced

/-- The swap an action is. -/
def Action.swap? {side : Side} : Action side → Option Swap
  | .replaceHeaders h => some (.headers h)
  | .replaceData d => some (.data d)
  | .replaceTrailers t => some (.trailers t)
  | _ => none

/-- **The swaps a program makes**, in order, when it runs through the handle of `filter` at
`index`. -/
def Program.swaps {side : Side} {α : Type} (filter : σ) (index : Nat) :
    Program side α → Board σ → List Swap
  | .done _, _ => []
  | .act x rest, b => x.swap?.toList ++ rest.swaps filter index (b.perform index x)
  | .look rest, b => (rest b.view).swaps filter index (b.note (.looked side index filter b.view))

/-! ## Drafts -/

/-- A response on its way to the client. -/
structure Draft where
  parts : Parts := {}
  /-- The swaps not put in yet, in the order they were made. -/
  waiting : List Swap := []
  /-- The messages sent, latest first. -/
  sent : List Message := []

/-- What happens to a response on its way. -/
inductive Revision where
  /-- The response reaches the filters. -/
  | arrived (m : Message)
  /-- A handle replaces a part, outside of all callbacks. -/
  | swapped (x : Swap)
  /-- A filter edits the parts it is given, and makes swaps meanwhile. -/
  | called (edit : Parts → Parts × List Swap)
  | sent

namespace Draft

/-- The draft with every swap put in; none waits any more. -/
def settled (d : Draft) : Draft :=
  { d with parts := (Replaced.latest d.waiting).over d.parts, waiting := [] }

/-- **How a draft is revised.**  What waits is put in before a filter is called, its own swaps after
it, and what waits in the end before the response is sent. -/
def revise (d : Draft) : Revision → Draft
  | .arrived m => { d with parts := m.parts }
  | .swapped x => { d with waiting := d.waiting ++ [x] }
  | .called edit =>
    let r := edit d.settled.parts
    { d with parts := r.1, waiting := r.2 : Draft }.settled
  | .sent => { d.settled with sent := d.settled.parts.message :: d.sent }

/-- **The draft after these revisions.** -/
def of (rs : List Revision) : Draft := rs.foldl revise {}

theorem of_append (rs rs' : List Revision) : of (rs ++ rs') = rs'.foldl revise (of rs) :=
  List.foldl_append

@[simp] theorem foldl_swapped (xs : List Swap) (d : Draft) :
    (xs.map .swapped).foldl revise d = { d with waiting := d.waiting ++ xs } := by
  induction xs generalizing d with
  | nil => simp
  | cons x xs ih => rw [List.map_cons, List.foldl_cons, ih]; simp [revise]

/-- Nothing is sent by other revisions. -/
theorem sent_foldl {rs : List Revision} (h : ∀ r ∈ rs, r ≠ .sent) (d : Draft) :
    (rs.foldl revise d).sent = d.sent := by
  induction rs generalizing d with
  | nil => rfl
  | cons r rs ih =>
    obtain ⟨hr, h⟩ := List.forall_mem_cons.mp h
    rw [List.foldl_cons, ih h]
    cases r with
    | sent => exact absurd rfl hr
    | _ => rfl

end Draft

/-! ## What a board holds -/

/-- **The board holds what waits after these swaps**, unless it is claimed. -/
def Board.Retains (b : Board σ) (xs : List Swap) : Prop :=
  b.claimed = false → b.replaced = .latest xs

namespace Board.Retains

variable {b b' : Board σ} {xs : List Swap}

theorem of_claimed (hc : b.claimed = true) : b.Retains xs :=
  fun hc' => absurd (hc'.symm.trans hc) nofun

/-- What does not touch the replacements keeps them. -/
theorem keep (h : b.Retains xs) (hc : b'.claimed = b.claimed) (hr : b'.replaced = b.replaced) :
    b'.Retains xs :=
  fun hc' => hr.trans (h (hc.symm.trans hc'))

theorem schedule (h : b.Retains xs) (job : Job) : (b.schedule job).Retains xs := by
  unfold Board.schedule
  split
  · exact h.keep rfl rfl
  · exact h

theorem raise (h : b.Retains xs) (code : UInt16) (headers : Headers) :
    (b.raise code headers).2.Retains xs := by
  unfold Board.raise
  split <;> exact h.keep rfl rfl

theorem claim (b : Board σ) (ending : Ending) : (b.claim ending).2.Retains xs := by
  cases hc : b.claimed with
  | true => exact .of_claimed (by rw [claim_of_claimed hc, hc])
  | false => exact .of_claimed (by rw [claim_of_unclaimed hc])

theorem terminate (b : Board σ) (ending : Ending) : (b.terminate ending).2.Retains xs := by
  unfold Board.terminate
  dsimp only
  split
  · exact (claim b ending).schedule _
  · exact claim b ending

theorem abandon (b : Board σ) : b.abandon.Retains xs := by
  unfold Board.abandon
  split
  · exact .of_claimed ‹_›
  · exact .of_claimed rfl

/-- An action through a handle adds the swap it is. -/
theorem perform {side : Side} (h : b.Retains xs) (index : Nat) (x : Action side) :
    (b.perform index x).Retains (xs ++ x.swap?.toList) := by
  cases x with
  | reply code headers =>
    simp only [Board.perform, Action.swap?, Option.toList_none, List.append_nil]
    split
    · exact (h.raise code headers).schedule _
    · exact h.raise code headers
  | replaceHeaders t =>
    intro hc
    simp [Board.perform, Action.swap?, h hc]
  | replaceData t =>
    intro hc
    simp [Board.perform, Action.swap?, h hc]
  | replaceTrailers t =>
    intro hc
    simp [Board.perform, Action.swap?, h hc]
  | resume =>
    have hnone : (Action.resume : Action side).swap? = none := by cases side <;> rfl
    rw [hnone, Option.toList_none, List.append_nil]
    cases side <;> exact h.schedule _
  | terminate =>
    have hends : b.perform index (Action.terminate : Action side)
        = if b.owned then (b.terminate .filterTerminated).2 else b.abandon := by cases side <;> rfl
    rw [hends]
    split
    · exact terminate b _
    · exact abandon b

/-- **A program adds the swaps it makes.** -/
theorem run {side : Side} {α : Type} (filter : σ) (index : Nat) (program : Program side α) :
    ∀ {b : Board σ} {xs : List Swap}, b.Retains xs →
      (program.run filter index b).2.Retains (xs ++ program.swaps filter index b) := by
  induction program with
  | done a => exact fun h => by simpa [Program.swaps, Program.run] using h
  | act x rest ih =>
    intro b xs h
    rw [Program.swaps, ← List.append_assoc]
    exact ih (h.perform index x)
  | look rest ih => exact fun {b _} h => ih b.view (h.keep rfl rfl)

end Board.Retains

/-- Request filters make no swaps. -/
theorem Program.swaps_request {α : Type} (filter : σ) (index : Nat) (program : Program .request α) :
    ∀ b : Board σ, program.swaps filter index b = [] := by
  induction program with
  | done => exact fun _ => rfl
  | act x rest ih => intro b; cases x <;> exact ih _
  | look rest ih => exact fun b => ih b.view _

/-! ## Passes -/

namespace FilterSet

variable {β : Behaviour σ} {xs : List Swap}

/-- The swaps a filter makes as it is given its handle. -/
def introSwaps (β : Behaviour σ) (s : FilterSet σ) (b : Board σ) (r : Registration σ) : List Swap :=
  (β.onAdd r.filter b.context.id r.side).swaps r.filter (s.size r.side)
    (b.note (.added r.side (s.size r.side) r.filter))

theorem retains_introduce (s : FilterSet σ) {b : Board σ} (h : b.Retains xs) (r : Registration σ) :
    (s.introduce β b r).2.Retains (xs ++ s.introSwaps β b r) := by
  have hnoted : (b.note (.added r.side (s.size r.side) r.filter)).Retains xs := h.keep rfl rfl
  exact hnoted.run r.filter (s.size r.side) _

/-- A request filter is called, and what waits goes on waiting. -/
theorem retains_callRequest (index : Nat) (f : Seated σ) {w : Workbench σ}
    (h : w.board.Retains xs) :
    (callRequest β index f w).state.board.Retains xs := by
  have hnoted : (w.board.note (.called .request index f.filter w.board.point w.parts)).Retains xs :=
    h.keep rfl rfl
  have hrun := hnoted.run f.filter f.seat (β.onRequest f.filter w.board.context w.parts)
  rw [Program.swaps_request, List.append_nil] at hrun
  exact hrun

theorem retains_passRequests (point : RequestPoint) (start : Nat) (convert : Converter)
    (s : FilterSet σ) {w : Workbench σ} (h : w.board.Retains xs) :
    (passRequests β point start convert s w).bench.board.Retains xs := by
  obtain ⟨is, hpasses⟩ : ∃ is, Chain.Passes point start convert (callRequest β) none 0 s.requests
      { w with board := { w.board with point := some point } } is
      (s.requests.pass point start convert (callRequest β)
        { w with board := { w.board with point := some point } }) := Chain.passes_passFrom ..
  have hleft := hpasses.keeps (P := fun v => v.board.Retains xs)
    (fun i f v => retains_callRequest i f)
    (h.keep rfl rfl)
  unfold passRequests
  dsimp only
  split <;> exact hleft.keep rfl rfl

/-- **What a response filter makes of the parts it is given**, on the board it is called on: the
parts it leaves, and the swaps it makes meanwhile. -/
def edit (β : Behaviour σ) (index : Nat) (f : Seated σ) (b : Board σ) (p : Parts) :
    Parts × List Swap :=
  let board := { b with replaced := {} }.note (.called .response index f.filter b.point p)
  let program := β.onResponse f.filter b.context p
  ((program.through f board).1.parts, program.swaps f.filter f.seat board)

end FilterSet

/-- What a call of a response filter does to the draft. -/
def Chain.Visit.revision (β : Behaviour σ) (v : Chain.Visit (Seated σ) (Workbench σ)) : Revision :=
  .called (edit β v.index v.filter v.state.board)

/-- **The workbench shows the draft**: its board holds what waits, and the parts are those of the
draft, unless the board is claimed. -/
structure Workbench.Shows (w : Workbench σ) (d : Draft) : Prop where
  waiting : w.board.Retains d.waiting
  parts : w.board.claimed = false → w.parts = d.parts

namespace Workbench.Shows

variable {β : Behaviour σ} {w w' : Workbench σ} {d : Draft}

theorem of_claimed (hc : w.board.claimed = true) : w.Shows d :=
  ⟨.of_claimed hc, fun hc' => absurd (hc'.symm.trans hc) nofun⟩

/-- What a filter that answers leaves, given the parts it got. -/
theorem state_callResponse {index : Nat} {f : Seated σ} {p : Parts}
    (hp : w.board.replaced.over w.parts = p)
    {raw : Verdict} (ha : (FilterSet.callResponse β index f w).answer = .ok raw) :
    (FilterSet.callResponse β index f w).state =
      let r := (β.onResponse f.filter w.board.context p).through f
        ({ w.board with replaced := {} }.note (.called .response index f.filter w.board.point p))
      ⟨{ r.2 with replaced := {} }, r.2.replaced.over r.1.parts⟩ := by
  subst hp
  unfold FilterSet.callResponse at ha ⊢
  dsimp only [putReplaced] at ha ⊢
  split at ha
  case h_1 => cases ha
  case h_2 => rfl

/-- **A call revises the draft**, if the filter answers. -/
theorem callResponse (h : w.Shows d) (ho : w.board.owned = true) (index : Nat) (f : Seated σ)
    {raw : Verdict} (ha : (callResponse β index f w).answer = .ok raw) :
    (FilterSet.callResponse β index f w).state.Shows
      (d.revise (.called (edit β index f w.board))) := by
  cases hc : w.board.claimed with
  | true =>
    have hmoves := (walked_callResponse β index f w).moves (fun _ => Event.isQuiet_of_inPass) ho
    exact .of_claimed (hmoves.claimed hc)
  | false =>
    have hparts : w.board.replaced.over w.parts = d.settled.parts := by
      rw [h.waiting hc, h.parts hc]
      rfl
    have hempty : ({ w.board with replaced := {} }.note
        (.called .response index f.filter w.board.point d.settled.parts)).Retains [] := fun _ => rfl
    have hrun := hempty.run f.filter f.seat (β.onResponse f.filter w.board.context d.settled.parts)
    rw [state_callResponse hparts ha]
    exact ⟨fun _ => rfl, fun hc' => congrArg (Replaced.over · _) (hrun hc')⟩

/-- **The calls of a pass revise the draft** one after the other, as long as each filter answers. -/
theorem threaded {visits : List (Chain.Visit (Seated σ) (Workbench σ))}
    (hall : ∀ v ∈ visits, ∃ raw, v.left.answer = .ok raw) :
    ∀ {w w' : Workbench σ} {d : Draft}, w.Shows d → w.board.owned = true →
      Chain.Threaded (FilterSet.callResponse β) w visits w' →
      w'.Shows ((visits.map (·.revision β)).foldl Draft.revise d) := by
  induction visits with
  | nil =>
    rintro w w' d h - rfl
    exact h
  | cons v visits ih =>
    rintro w w' d h ho ⟨rfl, hleft, hrest⟩
    obtain ⟨⟨raw, ha⟩, hall⟩ := List.forall_mem_cons.mp hall
    rw [hleft] at hrest ha
    have hmoves :=
      (walked_callResponse β v.index v.filter v.state).moves (fun _ => Event.isQuiet_of_inPass) ho
    exact ih hall (h.callResponse ho v.index v.filter ha) (hmoves.owned.trans ho) hrest

end Workbench.Shows

/-! ## The phase of response filters -/

/-- A pass that no panic ends had an answer from every filter it called. -/
theorem Chain.Concludes.answered {φ ω : Type} {convert : Converter} {positions : List Nat}
    {visits : List (Visit φ ω)} {result : Except Panic Outcome}
    (h : Concludes convert positions visits result)
    (hr : ∀ i message, result ≠ .ok (.aborted (.panic i message))) :
    ∀ v ∈ visits, ∃ raw, v.left.answer = .ok raw := by
  have append {before : List (Visit φ ω)} {v : Visit φ ω} {raw : Verdict}
    (hw : ∀ u ∈ before, u.Walked convert)
      (ha : v.left.answer = .ok raw) : ∀ u ∈ before ++ [v], ∃ raw, u.left.answer = .ok raw :=
        fun u hu => by
    rcases List.mem_append.mp hu with hu | hu
    · obtain ⟨raw, ha, -⟩ := hw u hu
      exact ⟨raw, ha⟩
    · obtain rfl := List.mem_singleton.mp hu
      exact ⟨raw, ha⟩
  cases h with
  | panic => exact absurd rfl (hr _ _)
  | exhausted hw =>
    intro v hv
    obtain ⟨raw, ha, -⟩ := hw v hv
    exact ⟨raw, ha⟩
  | _ hw ha => exact append hw ha

/-- A converter that keeps every verdict never breaks off. -/
theorem Chain.Concludes.ne_error {φ ω : Type} {positions : List Nat} {visits : List (Visit φ ω)}
    {result : Except Panic Outcome} (h : Concludes .keep positions visits result) (p : Panic) :
    result ≠ .error p := by
  rintro rfl
  cases h with
  | escape _ _ hc => cases hc

namespace Stream

variable {β : Behaviour σ} {k : Nat} {s : Stream σ} {d : Draft}

/-- The calls that the phase of response filters makes. -/
def sendVisits (β : Behaviour σ) (k : Nat) (s : Stream σ) :
    List (Chain.Visit (Seated σ) (Workbench σ)) :=
  s.filters.responses.visits .beforeSend k .keep (callResponse β)
    ⟨s.entered.board.closeReply.2, s.response.parts⟩

/-- A pause leaves the draft alone. -/
theorem shows_pause (n : Nat) (h : (⟨s.board, s.response.parts⟩ : Workbench σ).Shows d) :
    (⟨(s.pause n).2.board, (s.pause n).2.response.parts⟩ : Workbench σ).Shows d := by
  cases hc : s.board.claimed with
  | true => rwa [pause_of_claimed n hc]
  | false =>
    rw [pause_of_unclaimed n hc]
    cases s.settings.stopTimeout <;> exact ⟨h.waiting.keep rfl rfl, h.parts⟩

/-- **The phase of response filters revises the draft** call by call, unless it ends the stream. -/
theorem shows_filterResponse (ho : s.board.owned = true)
    (h : (⟨s.board, s.response.parts⟩ : Workbench σ).Shows d)
    (hstep : ∀ r, (s.entered.filterResponse β k).1 ≠ .finish r) :
    (⟨(s.entered.filterResponse β k).2.board, (s.entered.filterResponse β k).2.response.parts⟩ :
      Workbench σ).Shows (((s.sendVisits β k).map (·.revision β)).foldl Draft.revise d) := by
  have hmeets : Chain.Meets .beforeSend k .keep (callResponse β) s.filters.responses
      ⟨s.entered.board.closeReply.2, s.response.parts⟩ (s.sendVisits β k) (s.sendPass β k) :=
    Chain.meets_pass ..
  have hshows : (⟨s.entered.board.closeReply.2, s.response.parts⟩ : Workbench σ).Shows d :=
    ⟨h.waiting.keep rfl rfl, h.parts⟩
  have hleft (hr : ∀ i message, (s.sendPass β k).result ≠ .ok (.aborted (.panic i message))) :
      (s.sendPass β k).state.Shows (((s.sendVisits β k).map (·.revision β)).foldl Draft.revise d) :=
    hshows.threaded (hmeets.concludes.answered hr) ho hmeets.threaded
  have hkept := hmeets.concludes.ne_error
  have hpass : s.entered.filters.responses.pass .beforeSend k .keep (callResponse β)
      ⟨s.entered.board.closeReply.2, s.entered.response.parts⟩ = s.sendPass β k := rfl
  unfold filterResponse passResponse passResponses at hstep ⊢
  dsimp only at hstep ⊢
  rw [hpass] at hstep ⊢
  generalize s.sendPass β k = r at hleft hkept hstep ⊢
  rcases r with ⟨p | _ | n | q | cause, chain, state⟩
  case error => exact absurd rfl (hkept p)
  case ok.completed => exact hleft nofun
  case ok.stopped => exact shows_pause n (hleft nofun)
  case ok.resumeAt => exact hleft nofun
  case ok.aborted => exact absurd rfl (hstep _)

end Stream

end FilterProxy

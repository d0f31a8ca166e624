import FilterProxy.FilterSet
import FilterProxy.Proofs.Board.Touch

/-!
# Proofs/Pass — a pass calls rising positions and touches the board

A pass passes over an entry, halts at it or walks on behind it (`passFrom_skip`, `passFrom_halt`,
`passFrom_walk`).  `Chain.Passes` derives a pass by these steps, with the positions it calls.  Every
pass has such a derivation (`passes_passFrom`), and on it one sees that the positions **rise**, that
each belongs to a filter bound to the point, from the start on, and that a filter which stops the
pass is the last.

Over a filter set, a pass is a way of touching the board, and the log tells exactly the calls.
-/

namespace FilterProxy

variable {σ φ π ω : Type}

namespace Chain

/-- What the answer of the filter at `index` brings about at once; `none` if the pass walks on. -/
def halts (convert : Converter) (index : Nat) :
    Except Panic Verdict → Option (Except Panic Outcome)
  | .error p => some (.ok (.aborted (.panic index p.message)))
  | .ok raw =>
    match convert raw with
    | .error p => some (.error p)
    | .ok verdict => (halt? index verdict).map .ok

section

variable (point : π) (start : Nat) (convert : Converter) (call : Nat → φ → ω → Called φ ω)

/-- The pass over the part of a chain from `index` on, with the positions it calls, in order. -/
inductive Passes : Option Phase → Nat → Chain φ π → ω → List Nat → Passed φ π ω → Prop
  | nil (wish index w) : Passes wish index [] w [] ⟨.ok (atEnd wish), [], w⟩
  | skip {wish index e rest w is r} (h : ¬ (start ≤ index ∧ e.point = point))
      (hr : Passes wish (index + 1) rest w is r) :
      Passes wish index (e :: rest) w is ⟨r.result, e :: r.chain, r.state⟩
  | halt {wish index e rest w result} (h : start ≤ index ∧ e.point = point)
      (hh : halts convert index (call index e.filter w).answer = some result) :
      Passes wish index (e :: rest) w [index]
        ⟨result, ⟨(call index e.filter w).filter, e.point⟩ :: rest, (call index e.filter w).state⟩
  | walk {wish index e rest w raw is r} (h : start ≤ index ∧ e.point = point)
      (ha : (call index e.filter w).answer = .ok raw) (hc : convert raw = .ok .proceed)
      (hr : Passes (raw.target? <|> wish) (index + 1) rest (call index e.filter w).state is r) :
      Passes wish index (e :: rest) w (index :: is)
        ⟨r.result, ⟨(call index e.filter w).filter, e.point⟩ :: r.chain, r.state⟩

variable {point start convert call}

theorem halt?_eq_none {index : Nat} {verdict : Verdict} :
    halt? index verdict = none ↔ verdict = .proceed := by cases verdict <;> simp [halt?]

/-- Only the filter a pass halts at can be the one that stops it. -/
theorem eq_of_halts_stopped {index n : Nat} {answer : Except Panic Verdict}
    (h : halts convert index answer = some (.ok (.stopped n))) : n = index := by
  cases answer with
  | error p => cases h
  | ok raw =>
    simp only [halts] at h
    cases hc : convert raw with
    | error p => rw [hc] at h; cases h
    | ok verdict =>
      rw [hc] at h
      cases verdict <;> simp_all [halt?]

/-- A verdict halts a pass with a target only. -/
theorem target_of_halts {index : Nat} {q : Phase} {answer : Except Panic Verdict}
    (h : halts convert index answer = some (.ok (.resumeAt q))) :
    q = .matchRoute ∨ q = .chooseHost := by
  cases answer with
  | error p => cases h
  | ok raw =>
    simp only [halts] at h
    cases hc : convert raw with
    | error p => rw [hc] at h; cases h
    | ok verdict =>
      rw [hc] at h
      cases verdict <;> simp_all [halt?]

section

variable [DecidableEq π] {wish : Option Phase} {index : Nat} {e : Entry φ π}
  {rest : Chain φ π} {w : ω}

/-- An entry of another point, or before the start, is passed over… -/
theorem passFrom_skip (he : ¬ (start ≤ index ∧ e.point = point)) :
    passFrom point start convert call wish index (e :: rest) w
      = let r := passFrom point start convert call wish (index + 1) rest w
        ⟨r.result, e :: r.chain, r.state⟩ := by
  simp only [passFrom, if_neg he]

/-- …an answer may halt the pass… -/
theorem passFrom_halt (he : start ≤ index ∧ e.point = point) {result : Except Panic Outcome}
    (hh : halts convert index (call index e.filter w).answer = some result) :
    passFrom point start convert call wish index (e :: rest) w
      = ⟨result, ⟨(call index e.filter w).filter, e.point⟩ :: rest,
        (call index e.filter w).state⟩ := by
  simp only [passFrom, if_pos he]
  cases ha : (call index e.filter w).answer with
  | error p =>
    rw [ha] at hh
    obtain rfl := Option.some.inj hh
    rfl
  | ok raw =>
    rw [ha, halts] at hh
    cases hc : convert raw with
    | error p =>
      rw [hc] at hh
      obtain rfl := Option.some.inj hh
      simp only [hc]
    | ok verdict =>
      rw [hc] at hh
      obtain ⟨outcome, hhalt, rfl⟩ := Option.map_eq_some_iff.mp hh
      simp only [hc, hhalt]

/-- …or let it walk on. -/
theorem passFrom_walk (he : start ≤ index ∧ e.point = point) {raw : Verdict}
    (ha : (call index e.filter w).answer = .ok raw) (hc : convert raw = .ok .proceed) :
    passFrom point start convert call wish index (e :: rest) w
      = let r := passFrom point start convert call (raw.target? <|> wish) (index + 1) rest
          (call index e.filter w).state
        ⟨r.result, ⟨(call index e.filter w).filter, e.point⟩ :: r.chain, r.state⟩ := by
  simp only [passFrom, if_pos he, ha, hc]
  rfl

end

/-- There is no third way. -/
theorem halts_or_walks (convert : Converter) (index : Nat) (answer : Except Panic Verdict) :
    (∃ result, halts convert index answer = some result) ∨
      ∃ raw, answer = .ok raw ∧ convert raw = .ok .proceed := by
  cases hh : halts convert index answer with
  | some result => exact .inl ⟨result, rfl⟩
  | none =>
    cases answer with
    | error p => cases hh
    | ok raw =>
      rw [halts] at hh
      cases hc : convert raw with
      | error p =>
        rw [hc] at hh
        cases hh
      | ok verdict =>
        rw [hc, Option.map_eq_none_iff, halt?_eq_none] at hh
        exact .inr ⟨raw, rfl, hh ▸ hc⟩

/-- **Every pass is derived.** -/
theorem passes_passFrom [DecidableEq π] :
    ∀ (wish : Option Phase) (index : Nat) (chain : Chain φ π) (w : ω),
    ∃ is, Passes point start convert call wish index chain w is
      (passFrom point start convert call wish index chain w)
  | wish, index, [], w => ⟨[], .nil wish index w⟩
  | wish, index, e :: rest, w => by
    by_cases he : start ≤ index ∧ e.point = point
    case neg =>
      obtain ⟨is, hr⟩ := passes_passFrom wish (index + 1) rest w
      rw [passFrom_skip he]
      exact ⟨is, .skip he hr⟩
    rcases halts_or_walks convert index (call index e.filter w).answer
      with ⟨result, hh⟩ | ⟨raw, ha, hc⟩
    · rw [passFrom_halt he hh]
      exact ⟨_, .halt he hh⟩
    · obtain ⟨is, hr⟩ := passes_passFrom (raw.target? <|> wish) (index + 1) rest
        (call index e.filter w).state
      rw [passFrom_walk he ha hc]
      exact ⟨_, .walk he ha hc hr⟩

/-- **A pass over states that are told alike does the same to both.** -/
theorem passFrom_map [DecidableEq π] {ω' : Type} (point : π) (start : Nat) (convert : Converter)
    {call : Nat → φ → ω → Called φ ω} {call' : Nat → φ → ω' → Called φ ω'} (g : ω → ω')
    (hg : ∀ i f w, call' i f (g w) = ⟨(call i f w).answer, (call i f w).filter,
      g (call i f w).state⟩)
    (wish : Option Phase) (index : Nat) (chain : Chain φ π) (w : ω) :
    passFrom point start convert call' wish index chain (g w)
      = let r := passFrom point start convert call wish index chain w
        ⟨r.result, r.chain, g r.state⟩ := by
  induction chain generalizing wish index w with
  | nil => rfl
  | cons e rest ih =>
    have hcall := hg index e.filter w
    have hanswer : (call' index e.filter (g w)).answer = (call index e.filter w).answer := by
      rw [hcall]
    by_cases he : start ≤ index ∧ e.point = point
    case neg => rw [passFrom_skip he, passFrom_skip he, ih]
    rcases halts_or_walks convert index (call index e.filter w).answer
      with ⟨result, hh⟩ | ⟨raw, ha, hc⟩
    · rw [passFrom_halt he hh, passFrom_halt he (hanswer ▸ hh), hcall]
    · rw [passFrom_walk he ha hc, passFrom_walk he (hanswer.trans ha) hc, hcall, ih]

namespace Passes

variable {wish : Option Phase} {index : Nat} {chain : Chain φ π} {w : ω} {is : List Nat}
  {r : Passed φ π ω}

/-- What each call keeps, the pass keeps. -/
theorem keeps {P : ω → Prop} (hcall : ∀ i f w, P w → P (call i f w).state)
    (h : Passes point start convert call wish index chain w is r) (hw : P w) : P r.state := by
  induction h with
  | nil => exact hw
  | skip _ _ ih => exact ih hw
  | halt _ _ => exact hcall _ _ _ hw
  | walk _ _ _ _ ih => exact ih (hcall _ _ _ hw)

/-- A pass moves no filter and binds none to another point. -/
theorem map_point (h : Passes point start convert call wish index chain w is r) :
    r.chain.map (·.point) = chain.map (·.point) := by
  induction h with
  | nil => rfl
  | skip _ _ ih => exact congrArg (_ :: ·) ih
  | halt _ _ => rfl
  | walk _ _ _ _ ih => exact congrArg (_ :: ·) ih

/-- What each call keeps of its filter, the pass keeps of all. -/
theorem map_filter {α : Type} {g : φ → α} (hcall : ∀ i f w, g (call i f w).filter = g f)
    (h : Passes point start convert call wish index chain w is r) :
    r.chain.map (g ·.filter) = chain.map (g ·.filter) := by
  induction h with
  | nil => rfl
  | skip _ _ ih => exact congrArg (_ :: ·) ih
  | halt _ _ => exact congrArg (· :: _) (hcall _ _ _)
  | walk _ _ _ _ ih => exact congrArg₂ (· :: ·) (hcall _ _ _) ih

/-- A state that keeps the positions called, latest first, is right about the whole pass. -/
theorem observe {P : ω → Prop} (seen : ω → List Nat)
    (hcall : ∀ i f w, P w → P (call i f w).state)
    (hseen : ∀ i f w, P w → seen (call i f w).state = i :: seen w)
    (h : Passes point start convert call wish index chain w is r) (hw : P w) :
    seen r.state = is.reverse ++ seen w := by
  induction h with
  | nil => rfl
  | skip _ _ ih => exact ih hw
  | halt _ _ => exact hseen _ _ _ hw
  | walk _ _ _ _ ih =>
    rw [ih (hcall _ _ _ hw), hseen _ _ _ hw, List.reverse_cons, List.append_assoc]
    rfl

/-- **Only filters bound to the point are called**, from the start on. -/
theorem mem (h : Passes point start convert call wish index chain w is r) :
    ∀ i ∈ is, index ≤ i ∧ start ≤ i ∧ (chain.map (·.point))[i - index]? = some point := by
  have later {e : Entry φ π} {rest : Chain φ π} {index i : Nat} (hi : index + 1 ≤ i ∧ start ≤ i ∧
      (rest.map (·.point))[i - (index + 1)]? = some point) :
      index ≤ i ∧ start ≤ i ∧ ((e :: rest).map (·.point))[i - index]? = some point := by
    refine ⟨by omega, hi.2.1, ?_⟩
    rw [show i - index = i - (index + 1) + 1 by omega]
    exact hi.2.2
  induction h with
  | nil => simp
  | skip _ _ ih => exact fun i hi => later (ih i hi)
  | @halt _ index e _ _ _ hb _ =>
    intro i hi
    obtain rfl := List.mem_singleton.mp hi
    exact ⟨Nat.le_refl i, hb.1, by simp [hb.2]⟩
  | @walk _ index e _ _ _ _ _ hb _ _ _ ih =>
    intro i hi
    rcases List.mem_cons.mp hi with rfl | hi
    · exact ⟨Nat.le_refl i, hb.1, by simp [hb.2]⟩
    · exact later (ih i hi)

/-- **The positions rise.** -/
theorem pairwise (h : Passes point start convert call wish index chain w is r) :
    is.Pairwise (· < ·) := by
  induction h with
  | nil => exact .nil
  | skip _ _ ih => exact ih
  | halt _ _ => exact List.pairwise_singleton _ _
  | walk _ _ _ hr ih => exact List.pairwise_cons.mpr ⟨fun i hi => (hr.mem i hi).1, ih⟩

/-- **The filter that stops a pass is the last one called.** -/
theorem of_stopped {n : Nat} (h : Passes point start convert call wish index chain w is r)
    (hn : r.result = .ok (.stopped n)) : n ∈ is ∧ ∀ i ∈ is, i ≤ n := by
  induction h with
  | nil wish => cases wish <;> cases hn
  | skip _ _ ih => exact ih hn
  | @halt _ index e _ w result _ hh =>
    obtain rfl : result = .ok (.stopped n) := hn
    obtain rfl := eq_of_halts_stopped hh
    exact ⟨List.mem_singleton_self n, fun i hi => Nat.le_of_eq (List.mem_singleton.mp hi)⟩
  | walk _ _ _ hr ih =>
    obtain ⟨hmem, hle⟩ := ih hn
    refine ⟨List.mem_cons_of_mem _ hmem, fun i hi => ?_⟩
    rcases List.mem_cons.mp hi with rfl | hi
    · have := (hr.mem n hmem).1
      omega
    · exact hle i hi

/-- **A pass goes back to a target only.** -/
theorem target {q : Phase} (h : Passes point start convert call wish index chain w is r)
    (hwish : ∀ q, wish = some q → q = .matchRoute ∨ q = .chooseHost)
    (hq : r.result = .ok (.resumeAt q)) : q = .matchRoute ∨ q = .chooseHost := by
  induction h with
  | nil wish =>
    cases wish with
    | none => cases hq
    | some q' => cases hq; exact hwish _ rfl
  | skip _ _ ih => exact ih hwish hq
  | halt _ hh =>
    obtain rfl : _ = Except.ok (Outcome.resumeAt q) := hq
    exact target_of_halts hh
  | @walk wish _ _ _ _ raw _ _ _ _ _ _ ih =>
    refine ih (fun q hq => ?_) hq
    cases raw <;> simp_all [Verdict.target?]

end Passes

end

/-- What the positions called tell about a pass over filters bound to `points`. -/
structure Calls (points : List π) (point : π) (start : Nat) (result : Except Panic Outcome)
    (is : List Nat) : Prop where
  rising : is.Pairwise (· < ·)
  mem : ∀ i ∈ is, start ≤ i ∧ points[i]? = some point
  stopped : ∀ n, result = .ok (.stopped n) → n ∈ is ∧ ∀ i ∈ is, i ≤ n

theorem Passes.calls {point : π} {start : Nat} {convert : Converter}
    {call : Nat → φ → ω → Called φ ω} {wish : Option Phase} {chain : Chain φ π} {w : ω}
    {is : List Nat} {r : Passed φ π ω}
    (h : Passes point start convert call wish 0 chain w is r) :
    Calls (chain.map (·.point)) point start r.result is where
  rising := h.pairwise
  mem i hi := (h.mem i hi).2
  stopped _ := h.of_stopped

end Chain

/-! ## Passes over a filter set -/

/-- A filter of `side` is called, or one looks. -/
def Event.inPass (side : Side) : Event σ → Bool
  | .called s _ _ _ _ => s = side
  | e => e.isLook

theorem Event.isQuiet_of_inPass {side : Side} {e : Event σ} (h : e.inPass side = true) :
    e.isQuiet = true := by
  cases e <;> first | rfl | cases h

theorem Event.inPass_of_isLook (side : Side) {e : Event σ} (h : e.isLook = true) :
    e.inPass side = true := by
  cases e <;> first | rfl | cases h

theorem Event.call?_of_isLook (side : Side) {e : Event σ}
    (h : e.isLook = true ∨ e.byHandle = true) :
    e.call? side = none := by
  cases e <;> first | rfl | (rcases h with h | h <;> cases h)

namespace FilterSet

open Board

variable (β : Behaviour σ)

/-- **A filter that is told its place** looks and acts. -/
theorem touched_introduce (s : FilterSet σ) (b : Board σ) (r : Registration σ) :
    Touched r.side (·.isIntroduction = true) b (s.introduce β b r).2 :=
  .head (.note b rfl) ((touched_run _ _ _ _).mono fun _ => Event.isIntroduction_of_isLook)

/-- What filters of `side` do to the board in the course of a pass. -/
abbrev Walked (side : Side) : Board σ → Board σ → Prop := Touched side (·.inPass side = true)

/-- A callback: the filter is called and then runs its program. -/
theorem walked_callback {α : Type} (side : Side) (index : Nat) (f : Seated σ)
    (current : Option RequestPoint) (parts : Parts) (program : Program side α) (b : Board σ) :
    Walked side b (program.through f (b.note (.called side index f.filter current parts))).2 :=
  .head (.note b (by simp [Event.inPass]))
    ((touched_run f.filter f.seat program _).mono fun _ => Event.inPass_of_isLook side)

/-- **The log tells every call once.** -/
theorem calls_callback {α : Type} (side : Side) (index : Nat) (f : Seated σ)
    (current : Option RequestPoint) (parts : Parts) (program : Program side α) {b : Board σ}
    (ho : b.owned = true) :
    calls side (program.through f (b.note (.called side index f.filter current parts))).2.log
      = index :: calls side b.log := by
  have h := (touched_run f.filter f.seat program
    (b.note (.called side index f.filter current parts))).filterMap
      (fun _ => Event.isQuiet_of_isLook) (fun _ => Event.call?_of_isLook side) ho
  exact h.trans (by simp [Board.note, Event.call?, calls])

theorem walked_callRequest (index : Nat) (f : Seated σ) (w : Workbench σ) :
    Walked .request w.board (callRequest β index f w).state.board :=
  walked_callback .request index f _ _ _ _

theorem calls_callRequest (index : Nat) (f : Seated σ) (w : Workbench σ)
    (ho : w.board.owned = true) :
    calls .request (callRequest β index f w).state.board.log
      = index :: calls .request w.board.log :=
  calls_callback .request index f _ _ _ ho

theorem walked_callResponse (index : Nat) (f : Seated σ) (w : Workbench σ) :
    Walked .response w.board (callResponse β index f w).state.board := by
  unfold callResponse
  dsimp only
  split
  · exact .head (.put w.board w.parts) (walked_callback .response index f _ _ _ _)
  · exact .head (.put w.board w.parts)
      ((walked_callback .response index f _ _ _ _).tail (.put _ {}))

theorem calls_callResponse (index : Nat) (f : Seated σ) (w : Workbench σ)
    (ho : w.board.owned = true) :
    calls .response (callResponse β index f w).state.board.log
      = index :: calls .response w.board.log := by
  unfold callResponse
  dsimp only
  split <;> exact calls_callback .response index f _ _ _ (b := (w.board.putReplaced w.parts).2) ho

/-- A filter that is called keeps its seat. -/
theorem seat_callResponse (index : Nat) (f : Seated σ) (w : Workbench σ) :
    (callResponse β index f w).filter.seat = f.seat := by
  unfold callResponse
  dsimp only
  split <;> rfl

/-- The seats of a side, in order. -/
def seats (s : FilterSet σ) : Side → List Nat
  | .request => s.requests.map (·.filter.seat)
  | .response => s.responses.map (·.filter.seat)

/-- **What a pass over filters of `side` does**: it moves the board, logs `new`, and calls the
positions `is` in order. -/
structure Walk (side : Side) (b b' : Board σ) (new : List (Event σ)) (is : List Nat) : Prop where
  moves : Moves b b'
  log : b'.log = new ++ b.log
  kinds : ∀ e ∈ new, e.inPass side = true ∨ e.byHandle = true
  calls : calls side new = is.reverse

/-- **A pass is a walk**, whatever chain it is over, if each call touches the board and is
logged. -/
theorem walk_pass {π : Type} [DecidableEq π] {side : Side} (point : π) (start : Nat)
    (convert : Converter) {call : Nat → φ → Workbench σ → Chain.Called φ (Workbench σ)}
    (hwalked : ∀ i f w, Walked side w.board (call i f w).state.board)
    (hcalls : ∀ i f w, w.board.owned = true →
      calls side (call i f w).state.board.log = i :: calls side w.board.log)
    (chain : Chain φ π) (w : Workbench σ) (ho : w.board.owned = true) :
    ∃ new is, Walk side w.board (chain.pass point start convert call w).state.board new is ∧
      Chain.Passes point start convert call none 0 chain w is
        (chain.pass point start convert call w) := by
  obtain ⟨is, hp⟩ : ∃ is, Chain.Passes point start convert call none 0 chain w is _ :=
    Chain.passes_passFrom none 0 chain w
  have quiet (e : Event σ) : e.inPass side = true → e.isQuiet = true := Event.isQuiet_of_inPass
  have h := hp.keeps (P := fun v => Walked side w.board v.board)
    (fun i f v hv => hv.trans (hwalked i f v)) .refl
  have hseen := hp.observe (P := fun v => v.board.owned = true) (fun v => calls side v.board.log)
    (fun i f v hv => ((hwalked i f v).moves quiet hv).owned.trans hv) hcalls ho
  obtain ⟨new, hlog, hkinds⟩ := h.log quiet ho
  refine ⟨new, is, ⟨h.moves quiet ho, hlog, hkinds, ?_⟩, hp⟩
  have hsplit : calls side (new ++ w.board.log) = is.reverse ++ calls side w.board.log :=
    (congrArg (calls side) hlog).symm.trans hseen
  rw [calls, List.filterMap_append] at hsplit
  exact List.append_cancel_right hsplit

/-- A pass over the request filters of `point` from `start` on. -/
structure RequestPass (point : RequestPoint) (start : Nat) (s : FilterSet σ) (b : Board σ)
    (r : SetPassed σ) (new : List (Event σ)) (is : List Nat) : Prop where
  moves : Moves b r.bench.board
  log : r.bench.board.log = .passed point r.result :: (new ++ b.log)
  kinds : ∀ e ∈ new, e.inPass .request = true ∨ e.byHandle = true
  calls : calls .request new = is.reverse
  range : Chain.Calls (s.requests.map (·.point)) point start r.result is
  points : r.filters.requests.map (·.point) = s.requests.map (·.point)
  responses : r.filters.responses = s.responses
  seats : ∀ side, r.filters.seats side = s.seats side
  again : ∀ q, r.result = .ok (.resumeAt q) →
    r.filters.again = some q ∧ (q = .matchRoute ∨ q = .chooseHost)

/-- A pass over the response filters of `point` from `start` on. -/
structure ResponsePass (point : ResponsePoint) (start : Nat) (s : FilterSet σ) (b : Board σ)
    (r : SetPassed σ) (new : List (Event σ)) (is : List Nat) : Prop
    extends Walk .response b r.bench.board new is where
  range : Chain.Calls (s.responses.map (·.point)) point start r.result is
  points : r.filters.responses.map (·.point) = s.responses.map (·.point)
  requests : r.filters.requests = s.requests
  seats : ∀ side, r.filters.seats side = s.seats side

section

variable (start : Nat) (convert : Converter) (s : FilterSet σ) (w : Workbench σ)

theorem passRequests_spec (point : RequestPoint) (ho : w.board.owned = true) :
    ∃ new is, RequestPass point start s w.board
      (passRequests β point start convert s w) new is := by
  obtain ⟨new, is, hwalk, hp⟩ := walk_pass point start convert
    (walked_callRequest β) (calls_callRequest β) s.requests
    { w with board := { w.board with point := some point } } ho
  have hedit : Moves w.board { w.board with point := some point } :=
    .single (.edit ⟨rfl, rfl, rfl, rfl, rfl, .inl rfl, id⟩)
  have hseats := hp.map_filter (g := Seated.seat) fun _ _ _ => rfl
  refine ⟨new, is, ?_⟩
  unfold passRequests
  dsimp only
  generalize s.requests.pass point start convert (callRequest β)
    { w with board := { w.board with point := some point } } = r at hwalk hp hseats ⊢
  have hmoves := hedit.trans hwalk.moves
  cases hr : r.result with
  | error p =>
    have hrange := hr ▸ hp.calls
    exact
      { moves := hmoves.tail (.note _ rfl)
        log := congrArg (_ :: ·) hwalk.log
        kinds := hwalk.kinds
        calls := hwalk.calls
        range := hrange
        points := hp.map_point
        responses := rfl
        seats := fun | .request => hseats | .response => rfl
        again := nofun }
  | ok outcome =>
    have hrange := hr ▸ hp.calls
    have hunpoint : Moves r.state.board { r.state.board with point := none } :=
      .single (.edit ⟨rfl, rfl, rfl, rfl, rfl, .inl rfl, id⟩)
    exact
      { moves := (hmoves.trans hunpoint).tail (.note _ rfl)
        log := congrArg (_ :: ·) hwalk.log
        kinds := hwalk.kinds
        calls := hwalk.calls
        range := hrange
        points := hp.map_point
        responses := rfl
        seats := fun | .request => hseats | .response => rfl
        again := by
          rintro q hq
          obtain rfl : outcome = .resumeAt q := Except.ok.inj hq
          exact ⟨rfl, hp.target nofun hr⟩ }

theorem passResponses_spec (point : ResponsePoint) (ho : w.board.owned = true) :
    ∃ new is, ResponsePass point start s w.board
      (passResponses β point start convert s w) new is := by
  obtain ⟨new, is, hwalk, hp⟩ := walk_pass point start convert
    (walked_callResponse β) (calls_callResponse β) s.responses w ho
  have hseats := hp.map_filter (g := Seated.seat) (seat_callResponse β)
  refine ⟨new, is, hwalk, ⟨hp.calls.rising, hp.calls.mem, fun n hn => hp.calls.stopped n ?_⟩,
    hp.map_point, rfl, fun | .request => rfl | .response => hseats⟩
  unfold passResponses at hn
  dsimp only at hn
  cases hr : (s.responses.pass point start convert (callResponse β) w).result with
  | error p => rw [hr] at hn; cases hn
  | ok outcome =>
    rw [hr] at hn
    cases outcome <;> first | exact hn | cases hn

end

end FilterSet

end FilterProxy

import FilterProxy.Proofs.Share

/-!
# Proofs/Commons — what all streams of a proxy have a part in

The streams of a proxy share its lists and its counters.  What a visit changes there is told by the
events of that visit, one after the other (`Proxy.commons_engage`), and **whose event comes first
makes no difference** (`Commons.bear_comm`).
-/

namespace FilterProxy

variable {σ ε : Type}

/-! ## What all streams have a part in -/

theorem Tally.value_raise (t : Tally) (c d : Counter) :
    (t.raise c).value d = t.value d + if c = d then 1 else 0 := by
  induction t with
  | nil => by_cases h : c = d <;> simp [raise, value, h]
  | cons x rest ih =>
    obtain ⟨x, n⟩ := x
    unfold value at ih ⊢
    by_cases hc : c = x
    · subst hc
      by_cases hd : c = d <;> simp [raise, hd]
    · by_cases hd : x = d
      · subst hd
        simp [raise, hc]
      · simpa [raise, hc, hd] using ih

/-- What all streams of a proxy have a part in: its lists and its counters. -/
@[ext]
structure Commons where
  active : Registry
  aside : Registry
  /-- How far each counter was raised. -/
  value : Counter → Nat

/-- The commons of a proxy. -/
def Proxy.commons (p : Proxy σ ε) : Commons := ⟨p.active, p.aside, p.tally.value⟩

/-- By how much an event raises a counter. -/
def Event.raises (meter : Option String) (c : Counter) : Event σ → Nat
  | .stat s => if meter.any fun name => s.counter name = c then 1 else 0
  | _ => 0

/-- Strike an identity off, if it is to be. -/
def Registry.eraseIf (r : Registry) (b : Bool) (id : StreamId) : Registry :=
  if b then r.erase id else r

namespace Commons

/-- What an event of a stream changes there. -/
def bear (meter : Option String) (listing : Listing) (id : StreamId) (s : Commons) (e : Event σ) :
    Commons where
  active := s.active.eraseIf (e.claim?.isSome && listing = .proxy) id
  aside := s.aside.eraseIf (e.claim?.isSome && listing = .aside) id
  value c := s.value c + e.raises meter c

theorem eraseIf_comm (r : Registry) (b b' : Bool) (id id' : StreamId) :
    (r.eraseIf b id).eraseIf b' id' = (r.eraseIf b' id').eraseIf b id := by
  cases b <;> cases b' <;> simp [Registry.eraseIf, Registry.erase, Bool.and_comm]

/-- **Whose event comes first makes no difference.** -/
theorem bear_comm (meter : Option String) (listing listing' : Listing) (id id' : StreamId)
    (s : Commons) (e e' : Event σ) : (s.bear meter listing id e).bear meter listing' id' e'
      = (s.bear meter listing' id' e').bear meter listing id e :=
  Commons.ext (eraseIf_comm ..) (eraseIf_comm ..) (funext fun _ => Nat.add_right_comm ..)

theorem foldl_bear_comm (meter : Option String) (listing listing' : Listing) (id id' : StreamId)
    (events events' : List (Event σ)) (s : Commons) :
    events'.foldl (bear meter listing' id') (events.foldl (bear meter listing id) s)
      = events.foldl (bear meter listing id) (events'.foldl (bear meter listing' id') s) := by
  refine List.foldl_hom (fun s => events.foldl (bear meter listing id) s) fun s e' => ?_
  exact (List.foldl_hom (bear meter listing' id' · e') fun s e => bear_comm ..).symm

/-- **A stream is struck off as it is claimed.** -/
theorem foldl_bear_active (meter : Option String) (listing : Listing) (id : StreamId)
    (events : List (Event σ)) (s : Commons) : (events.foldl (bear meter listing id) s).active
      = s.active.eraseIf (events.any (·.claim?.isSome) && listing = .proxy) id := by
  have twice (r : Registry) (b b' : Bool) : (r.eraseIf b id).eraseIf b' id
    = r.eraseIf (b || b') id := by
    cases b <;> cases b' <;> simp [Registry.eraseIf, Registry.erase]
  induction events generalizing s with
  | nil => rfl
  | cons e events ih =>
    rw [List.foldl_cons, ih, bear, twice, List.any_cons, Bool.and_or_distrib_right]

end Commons

namespace Share

/-- What a visit to the stream changes there. -/
def charge (s : Share σ) (f : Stream σ → Stream σ) (meter : Option String) (common : Commons) :
    Commons :=
  match s.member with
  | none => common
  | some m =>
    let x := f m.stream
    x.board.log.reverse.foldl (Commons.bear meter m.listing x.board.context.id) common

/-- What an errand to the stream changes there. -/
def bill (s : Share σ) (c : Surroundings σ ε) (env : ε) (e : Errand σ) (meter : Option String)
    (common : Commons) : Commons :=
  match s.draw e with
  | some s => s.charge (fun x => (e.work c ⟨x, env⟩).stream) meter common
  | none => common

theorem charge_comm (s s' : Share σ) (f f' : Stream σ → Stream σ) (meter : Option String)
    (common : Commons) :
    s'.charge f' meter (s.charge f meter common) = s.charge f meter
      (s'.charge f' meter common) := by
  unfold charge
  cases s.member <;> cases s'.member <;> first | rfl | exact Commons.foldl_bear_comm ..

theorem bill_comm (s s' : Share σ) (c : Surroundings σ ε) (env env' : ε) (e e' : Errand σ)
    (meter : Option String) (common : Commons) :
    s'.bill c env' e' meter (s.bill c env e meter common)
      = s.bill c env e meter (s'.bill c env' e' meter common) := by
  unfold bill
  cases s.draw e <;> cases s'.draw e' <;> first | rfl | exact charge_comm ..

end Share

namespace Proxy

section

variable (p : Proxy σ ε) (ref : Nat)

/-- What taking an event in leaves alone. -/
theorem obey_spec (listing : Listing) (id : StreamId) (e : Event σ) :
    ∃ active aside pool handovers tally,
      p.obey ref listing id e = { p with active, aside, pool, handovers, tally } := by
  unfold obey
  split
  case h_3 => cases listing <;> exact ⟨_, _, _, _, _, rfl⟩
  case h_5 => split <;> exact ⟨_, _, _, _, _, rfl⟩
  all_goals exact ⟨_, _, _, _, _, rfl⟩

theorem absorb_frame (listing : Listing) (id : StreamId) (events : List (Event σ)) :
    ∃ active aside pool handovers tally log,
      p.absorb ref listing id events = { p with active, aside, pool, handovers, tally, log } := by
  induction events generalizing p with
  | nil => exact ⟨_, _, _, _, _, _, rfl⟩
  | cons e events ih =>
    obtain ⟨_, _, _, _, _, hobey⟩ := obey_spec p ref listing id e
    obtain ⟨_, _, _, _, _, _, hrest⟩ := ih { p.obey ref listing id e with log := (ref, e) :: p.log }
    exact ⟨_, _, _, _, _, _, hrest.trans (by rw [hobey])⟩

/-- **What a visit leaves alone.** -/
theorem engage_frame (g : Turn σ ε → Turn σ ε) :
    ∃ env streams active aside pool handovers tally log,
    p.engage ref g = { p with env, streams, active, aside, pool, handovers, tally, log } ∧
      streams.size = p.streams.size := by
  unfold engage visit
  dsimp only
  cases p.streams[ref]? with
  | none => exact ⟨_, _, _, _, _, _, _, _, rfl, rfl⟩
  | some m =>
    obtain ⟨_, _, _, _, _, _, habsorb⟩ := absorb_frame { p with
      streams := p.streams.setIfInBounds ref { m with stream := _ }, env := _ } ref m.listing _ _
    exact ⟨_, _, _, _, _, _, _, _, habsorb, Array.size_setIfInBounds⟩

/-- **What an errand leaves alone.** -/
theorem serve_frame (e : Errand σ) : ∃ env streams active aside pool handovers tally log,
    p.serve ref e = { p with env, streams, active, aside, pool, handovers, tally, log } := by
  rw [serve_eq]
  cases hq : p.draw ref e with
  | none => exact ⟨_, _, _, _, _, _, _, _, rfl⟩
  | some q =>
    obtain ⟨pool, handovers, rfl⟩ := (drawn_of_draw hq).frame
    obtain ⟨_, _, _, _, _, _, _, _, hengage, -⟩ :=
      engage_frame { p with pool, handovers } ref (e.work p.surroundings)
    exact ⟨_, _, _, _, _, _, _, _, hengage⟩

theorem commons_obey (listing : Listing) (id : StreamId) (e : Event σ) :
    (p.obey ref listing id e).commons = p.commons.bear p.meter listing id e := by
  cases e with
  | claimed ending => cases listing <;> rfl
  | stat s =>
    refine Commons.ext ?_ ?_ (funext fun c => ?_)
    · unfold obey; dsimp only; split <;> rfl
    · unfold obey; dsimp only; split <;> rfl
    · cases hm : p.meter with
      | none => simp [obey, hm, commons, Commons.bear, Event.raises]
      | some name => simp [obey, hm, commons, Commons.bear, Event.raises, Tally.value_raise]
  | forwarded host m x =>
    obtain ⟨x, panic⟩ := x
    cases x <;> rfl
  | _ => rfl

theorem commons_absorb (listing : Listing) (id : StreamId) (events : List (Event σ)) :
    (p.absorb ref listing id events).commons
      = events.foldl (Commons.bear p.meter listing id) p.commons := by
  induction events generalizing p with
  | nil => rfl
  | cons e events ih =>
    obtain ⟨_, _, _, _, _, hobey⟩ := obey_spec p ref listing id e
    refine (ih { p.obey ref listing id e with log := (ref, e) :: p.log }).trans ?_
    rw [List.foldl_cons, ← commons_obey p ref, hobey]
    rfl

/-- **A visit changes the commons by the events of its stream.** -/
theorem commons_engage (g : Turn σ ε → Turn σ ε) : (p.engage ref g).commons
    = (p.share ref).charge (fun x => (g ⟨x, p.env⟩).stream) p.meter p.commons := by
  unfold engage visit Share.charge
  dsimp only [share]
  cases p.streams[ref]? with
  | none => rfl
  | some m => exact commons_absorb _ ref _ _ _

/-- **So does an errand.** -/
theorem commons_serve (e : Errand σ) : (p.serve ref e).commons
    = (p.share ref).bill p.surroundings p.env e p.meter p.commons := by
  rw [serve_eq, Share.bill]
  cases hq : p.draw ref e with
  | none => rw [draw_eq_none hq]
  | some q =>
    obtain ⟨⟨pool, handovers, rfl⟩, hown, -⟩ := drawn_of_draw hq
    rw [hown]
    exact commons_engage _ ref _

end

end Proxy

end FilterProxy

import FilterProxy.Proofs.Sparing

/-!
# Proofs/Rations — what jumps ration

Between two jumps the phases rise, and a pause is taken up behind the filter that stopped the pass.
So the router, the cluster manager and each request filter are called **at most once more than there
were jumps** (`Reached.rationed`): a phase calls what was ahead of it, and only a jump brings back
what is behind.
-/

namespace FilterProxy

variable {σ ε : Type}

open Board FilterSet FilterProxy.Stream Life

/-! ## Jumps and uses in logs -/

/-- What a stream calls on the way to the host. -/
inductive Resource where
  | router
  | chooser
  /-- The request filter at a position. -/
  | filter (index : Nat)

namespace Event

/-- The stream jumps. -/
def isJump : Event σ → Bool
  | .jumped _ => true
  | _ => false

/-- The filters of a phase wish to go back. -/
def isWish : Event σ → Bool
  | .passed _ (.ok (.resumeAt _)) => true
  | _ => false

/-- The resource is called. -/
def uses : Resource → Event σ → Bool
  | .router, .routed _ _ => true
  | .chooser, .chosen _ _ _ => true
  | .filter i, .called .request j _ _ _ => j = i
  | _, _ => false

/-- The event says nothing of jumps, and calls nothing that they bound. -/
def isIdle : Event σ → Bool
  | .jumped _ | .passed _ (.ok (.resumeAt _)) | .routed _ _ | .chosen _ _ _ => false
  | .called .request _ _ _ _ => false
  | _ => true

/-- What an idle event does not say. -/
structure Idle (e : Event σ) : Prop where
  jump : e.isJump = false
  wish : e.isWish = false
  uses : ∀ ρ, e.uses ρ = false

theorem idle_of_isIdle {e : Event σ} (h : e.isIdle = true) : e.Idle := by
  cases e with
  | passed point result =>
    rcases result with _ | _ | _ | _ | _
    case ok.resumeAt => cases h
    all_goals exact ⟨rfl, rfl, fun ρ => by cases ρ <;> rfl⟩
  | called side =>
    cases side with
    | request => cases h
    | response => exact ⟨rfl, rfl, fun ρ => by cases ρ <;> rfl⟩
  | jumped | routed | chosen => cases h
  | _ => exact ⟨rfl, rfl, fun ρ => by cases ρ <;> rfl⟩

theorem idle_of_isOutside {e : Event σ} (h : e.isOutside = true) : e.Idle :=
  idle_of_isIdle (by cases e <;> first | rfl | cases h)

theorem idle_of_isEnding {e : Event σ} (h : e.isEnding = true) : e.Idle :=
  idle_of_isIdle (by cases e <;> first | rfl | cases h)

theorem idle_of_pass {e : Event σ} (h : e.inPass .response = true ∨ e.byHandle = true) :
    e.Idle := by
  refine idle_of_isIdle ?_
  cases e with
  | called side =>
    rcases h with h | h
    · obtain rfl : side = .response := by simpa [inPass] using h
      rfl
    · cases h
  | _ => first | rfl | (rcases h with h | h <;> cases h)

theorem isWish_of_isNote {e : Event σ} (h : e.isNote = true) : e.isWish = false := by
  cases e with
  | passed point result => rcases result with _ | _ | _ | _ | _ <;> first | rfl | cases h
  | _ => rfl

theorem isJump_of_within {p : Phase} {e : Event σ} (h : e.Within p) : e.isJump = false := by
  cases e <;> first | rfl | cases h

end Event

/-- How often the stream jumped. -/
def jumps (log : List (Event σ)) : Nat := log.countP Event.isJump

/-- How often filters wished to go back. -/
def wishes (log : List (Event σ)) : Nat := log.countP Event.isWish

/-- How often the resource was called. -/
def uses (ρ : Resource) (log : List (Event σ)) : Nat := log.countP (Event.uses ρ)

section

variable {new : List (Event σ)} (log : List (Event σ))

theorem jumps_append (h : ∀ e ∈ new, e.isJump = false) : jumps (new ++ log) = jumps log := by
  rw [jumps, List.countP_append, List.countP_eq_zero.mpr fun e he => by simp [h e he], Nat.zero_add]
  rfl

theorem wishes_append (h : ∀ e ∈ new, e.isWish = false) : wishes (new ++ log) = wishes log := by
  rw [wishes, List.countP_append,
    List.countP_eq_zero.mpr fun e he => by simp [h e he], Nat.zero_add]
  rfl

theorem uses_append (ρ : Resource) (new log : List (Event σ)) :
    uses ρ (new ++ log) = uses ρ new + uses ρ log := List.countP_append

theorem uses_append_idle (h : ∀ e ∈ new, e.Idle) (ρ : Resource) :
    uses ρ (new ++ log) = uses ρ log := by
  rw [uses_append, uses, List.countP_eq_zero.mpr fun e he => by simp [(h e he).uses ρ],
    Nat.zero_add]

/-- A request filter is used as often as it is called. -/
theorem uses_filter (i : Nat) : uses (.filter i) log = (calls .request log).count i := by
  induction log with
  | nil => rfl
  | cons e log ih =>
    rw [calls_cons, List.count_append, ← ih, Nat.add_comm]
    refine List.countP_cons.trans (congrArg _ ?_)
    cases e with
    | called side j => cases side <;> simp [Event.uses, Event.call?, List.count_singleton]
    | _ => rfl

end

/-! ## Once more than there were jumps -/

namespace Resource

/-- The resource is one that phase `p` calls. -/
def Home (f : FilterSet σ) (p : Phase) : Resource → Prop
  | router => p = .matchRoute
  | chooser => p = .chooseHost
  | filter i => p.side? = some .request ∧ f.Bound p i

/-- Filters from `k` on include the resource, if it is one. -/
def From (k : Nat) : Resource → Prop
  | filter i => k ≤ i
  | _ => True

variable {f f' : FilterSet σ} {p q : Phase} {ρ : Resource}

theorem Home.unique (h : ρ.Home f p) (h' : ρ.Home f q) : p = q := by
  cases ρ with
  | router => exact Eq.trans h (Eq.symm h')
  | chooser => exact Eq.trans h (Eq.symm h')
  | filter i =>
    obtain ⟨hp, ⟨point, rfl, hi⟩ | ⟨rfl, -⟩⟩ := h
    case inr => cases hp
    obtain ⟨hq, ⟨point', rfl, hi'⟩ | ⟨rfl, -⟩⟩ := h'
    case inr => cases hq
    obtain rfl : point = point' := Option.some.inj (hi.symm.trans hi')
    rfl

/-- All is called before the request is forwarded. -/
theorem Home.lt_forward (h : ρ.Home f p) : p < .forward := by
  cases ρ with
  | router => exact (show p = .matchRoute from h) ▸ by decide
  | chooser => exact (show p = .chooseHost from h) ▸ by decide
  | filter i =>
    obtain ⟨point, rfl⟩ := Phase.exists_point h.1
    cases point <;> decide

theorem Home.of_fixed (h : ρ.Home f' p) (hf : f.Fixed f') : ρ.Home f p := by
  cases ρ with
  | filter i => exact h.imp_right hf.bound_iff.mp
  | _ => exact h

end Resource

/-- The phase `p` is ahead of the stream, as far as it calls the resource. -/
def Stream.Faces (start : Option Nat) (s : Stream σ) (ρ : Resource) (p : Phase) : Prop :=
  s.phase < p ∨ s.phase = p ∧ match start with
    | some k => ρ.From k
    | none => ∃ k, s.pausedBy = some k ∧ ρ.From (k + 1)

/-- **What jumps ration**: each resource is called once more at most than there were jumps, and not
once more if its phase is ahead. -/
structure Life.Rationed (start : Option Nat) (l : Life σ) : Prop where
  bound : ∀ ρ, uses ρ l.log ≤ jumps l.log + 1
  ahead : (start = none → l.stream.board.claimed = false) → ∀ ρ p,
    ρ.Home l.stream.filters p → l.stream.Faces start ρ p → uses ρ l.log ≤ jumps l.log

namespace Stream

variable {k : Nat} {s s' : Stream σ} {step : Step} {new : List (Event σ)} {is : List Nat}
  {ρ : Resource}

/-- What a phase calls is its own. -/
theorem Worked.home_of_uses (h : Worked k s s' new is) (hρ : 0 < uses ρ new) :
    ρ.Home s.filters s.phase ∧ ρ.From k ∧ ∀ i, ρ = .filter i → i ∈ is := by
  cases ρ with
  | router =>
    obtain ⟨e, he, hu⟩ := List.countP_pos_iff.mp hρ
    cases e with
    | routed => exact ⟨h.within _ he, trivial, nofun⟩
    | _ => cases hu
  | chooser =>
    obtain ⟨e, he, hu⟩ := List.countP_pos_iff.mp hρ
    cases e with
    | chosen => exact ⟨h.within _ he, trivial, nofun⟩
    | _ => cases hu
  | filter i =>
    rw [uses_filter, List.count_pos_iff, h.calls] at hρ
    split at hρ
    case isFalse => cases hρ
    case isTrue hside =>
      have hmem := List.mem_reverse.mp hρ
      obtain ⟨hle, hbound⟩ := h.bound i hmem
      exact ⟨⟨hside, hbound⟩, hle, by rintro _ ⟨⟩; exact hmem⟩

/-- A phase calls nothing twice. -/
theorem Worked.uses_le_one (h : Worked k s s' new is) (ρ : Resource) : uses ρ new ≤ 1 := by
  have outward (hu : ∀ e : Event σ, e.uses ρ = true → e.isOutward = true) : uses ρ new ≤ 1 :=
    Nat.le_trans (List.countP_mono_left fun e _ => hu e) h.once
  cases ρ with
  | router => exact outward fun e he => by cases e <;> first | rfl | cases he
  | chooser => exact outward fun e he => by cases e <;> first | rfl | cases he
  | filter i =>
    rw [uses_filter, h.calls]
    split
    case isFalse => simp
    case isTrue =>
      rw [List.count_reverse]
      exact List.nodup_iff_count.mp (h.rising.imp Nat.ne_of_lt) i

theorem Executed.jumps (h : Executed k s.entered step s' new is) :
    FilterProxy.jumps s'.board.log = FilterProxy.jumps s.board.log := by
  rw [h.worked.log, jumps_append _ fun e he => Event.isJump_of_within (h.worked.within e he)]
  rfl

theorem Executed.uses (h : Executed k s.entered step s' new is) (ρ : Resource) :
    FilterProxy.uses ρ s'.board.log = FilterProxy.uses ρ new + FilterProxy.uses ρ s.board.log := by
  rw [h.worked.log, uses_append]
  congr 1
  cases ρ <;> rfl

/-- Nothing is ahead of a stream that reached the response filters. -/
theorem Faces.not_late {start : Option Nat} {f : FilterSet σ} {p : Phase} (h : s.Faces start ρ p)
    (hp : ρ.Home f p) (hlate : s.phase = .filterResponse) : False := by
  have hlt : p.number < Phase.forward.number := hp.lt_forward
  rcases h with h | ⟨rfl, -⟩
  · have h : s.phase.number < p.number := h
    rw [hlate] at h
    exact absurd (Nat.lt_trans h hlt) (by decide)
  · rw [hlate] at hlt
    exact absurd hlt (by decide)

theorem Faces.lt_of_next {start : Option Nat} {p q : Phase} (h : s.Faces start ρ p)
    (hq : s.phase = q.next) (hd : q ≠ .done) : q < p := by
  have hle : s.phase.number ≤ p.number := by
    rcases h with h | ⟨rfl, -⟩
    · exact Nat.le_of_lt h
    · exact Nat.le_refl _
  rw [hq, Phase.number_next hd] at hle
  exact hle

/-- What is ahead of a stream that stays at its phase was ahead before, and was not called. -/
theorem Faces.of_stay {p : Phase} (hx : Executed k s.entered step s' new is)
    (hb : s.pausedBy = none) (hp : ρ.Home s.filters p) (h : s'.Faces none ρ p) :
    s.phase < p ∨ s.phase = p ∧ ρ.From k ∧ FilterProxy.uses ρ new = 0 := by
  have hphase : s'.phase = s.phase := hx.phase
  rw [Faces, hphase] at h
  rcases h with hlt | ⟨rfl, n, hn, hfrom⟩
  · exact .inl hlt
  refine .inr ⟨rfl, ?_⟩
  cases hx with
  | @pause _ _ _ n' hw hside hlast hpaused hgeneration hr hc =>
    obtain rfl : n' = n := Option.some.inj (hpaused.symm.trans hn)
    -- only filters pause streams
    obtain ⟨i, rfl⟩ : ∃ i, ρ = .filter i := by
      cases ρ with
      | filter i => exact ⟨i, rfl⟩
      | _ => rw [show s.entered.phase = _ from hp] at hside; cases hside
    refine ⟨Nat.le_trans (hw.bound n' hlast.1).1 (Nat.le_of_succ_le hfrom), ?_⟩
    refine Nat.eq_zero_of_not_pos fun hpos => ?_
    exact Nat.not_le.mpr hfrom (hlast.2 i ((hw.home_of_uses hpos).2.2 i rfl))
  | _ hw ha =>
    rw [ha.pausedBy, entered_pausedBy, hb] at hn
    cases hn

end Stream

namespace Life.Rationed

variable {start start' : Option Nat} {l l' : Life σ}

/-- Whatever calls no resource keeps to the rations. -/
theorem keep (h : l.Rationed start) (new : List (Event σ)) (hlog : l'.log = new ++ l.log)
    (hnew : ∀ e ∈ new, e.Idle) (hf : l.stream.filters.Fixed l'.stream.filters)
    (ha : (start' = none → l'.stream.board.claimed = false) →
      (start = none → l.stream.board.claimed = false) ∧ ∀ ρ p, ρ.Home l.stream.filters p →
        l'.stream.Faces start' ρ p → l.stream.Faces start ρ p) : l'.Rationed start' where
  bound ρ := by
    rw [hlog, uses_append_idle _ hnew, jumps_append _ fun e he => (hnew e he).jump]
    exact h.bound ρ
  ahead hc ρ p hp hfaces := by
    obtain ⟨hc, ha⟩ := ha hc
    rw [hlog, uses_append_idle _ hnew, jumps_append _ fun e he => (hnew e he).jump]
    exact h.ahead hc ρ p (hp.of_fixed hf) (ha ρ p (hp.of_fixed hf) hfaces)

/-- On a life somebody claimed nothing is ahead. -/
theorem keep_claimed (h : l.Rationed start) (new : List (Event σ)) (hlog : l'.log = new ++ l.log)
    (hnew : ∀ e ∈ new, e.Idle) (hf : l.stream.filters.Fixed l'.stream.filters)
    (hc : l'.stream.board.claimed = true) : l'.Rationed none := by
  refine h.keep new hlog hnew hf fun hc' => ?_
  rw [hc' rfl] at hc
  cases hc

/-- A filter that is added was not called yet. -/
theorem add (h : l.Rationed none) (hs : l.Sparing none) (r : Registration σ) :
    (l.become (l.stream.enlist r)).Rationed none where
  bound := h.bound
  ahead hc ρ p hp hfaces := by
    cases ρ with
    | filter i =>
      by_cases hlt : i < l.stream.filters.size .request
      · exact h.ahead hc _ p ⟨hp.1, hp.2.of_enlist hlt hp.1⟩ hfaces
      · have hunused : (calls .request l.log).count i
          = 0 := hs.beyond .request i (Nat.le_of_not_lt hlt)
        rw [become_log, uses_filter]
        exact Nat.le_trans (Nat.le_of_eq hunused) (Nat.zero_le _)
    | _ => exact h.ahead hc _ p hp hfaces

variable {k : Nat} {s : Stream σ} {step : Step} {new : List (Event σ)} {is : List Nat}

/-- **A phase calls what was ahead**, so it goes beyond the rations by one at most. -/
theorem spend (h : l.Rationed (some k)) (hx : Executed k l.stream.entered step s new is)
    (ρ : Resource) : uses ρ s.board.log ≤ jumps l.log + 1 := by
  rw [hx.uses]
  rcases Nat.eq_zero_or_pos (uses ρ new) with hzero | hpos
  · rw [hzero, Nat.zero_add]
    exact h.bound ρ
  · obtain ⟨hp, hfrom, -⟩ := hx.worked.home_of_uses hpos
    have hahead := h.ahead nofun ρ _ hp (.inr ⟨rfl, hfrom⟩)
    have hone := hx.worked.uses_le_one ρ
    change uses ρ l.stream.board.log ≤ _ at hahead
    omega

/-- What stays ahead was not called. -/
theorem spare (h : l.Rationed (some k)) (hx : Executed k l.stream.entered step s new is)
    {ρ : Resource} {p : Phase} (hp : ρ.Home l.stream.filters p)
    (ha : l.stream.phase < p ∨ l.stream.phase = p ∧ ρ.From k ∧ uses ρ new = 0) :
    uses ρ s.board.log ≤ jumps l.log := by
  have hzero : uses ρ new = 0 := by
    rcases ha with hlt | ⟨-, -, hzero⟩
    · refine Nat.eq_zero_of_not_pos fun hpos => ?_
      obtain rfl : l.stream.phase = p := (hx.worked.home_of_uses hpos).1.unique hp
      exact Nat.lt_irrefl _ hlt
    · exact hzero
  rw [hx.uses, hzero, Nat.zero_add]
  exact h.ahead nofun ρ p hp (ha.imp_right fun h => ⟨h.1, h.2.1⟩)

/-- **Executing a phase** keeps to the rations. -/
theorem executed (h : l.Rationed (some k)) (hx : Executed k l.stream.entered step s new is)
    (more : List (Event σ)) (hlog : l'.log = more ++ s.board.log) (hmore : ∀ e ∈ more, e.Idle)
    (hf : l'.stream.filters = s.filters)
    (ha : ∀ ρ p, ρ.Home l.stream.filters p → l'.stream.Faces start' ρ p →
      l.stream.phase < p ∨ l.stream.phase = p ∧ ρ.From k ∧ uses ρ new = 0) :
    l'.Rationed start' := by
  have huses (ρ) : uses ρ l'.log = uses ρ s.board.log := by rw [hlog, uses_append_idle _ hmore]
  have hjumps : jumps l'.log = jumps l.log := by
    rw [hlog, jumps_append _ fun e he => (hmore e he).jump]
    exact hx.jumps
  refine ⟨fun ρ => by rw [huses, hjumps]; exact h.spend hx ρ, fun _ ρ p hp hfaces => ?_⟩
  have hp : ρ.Home l.stream.filters p := (hf ▸ hp).of_fixed hx.worked.fixed
  rw [huses, hjumps]
  exact h.spare hx hp (ha ρ p hp hfaces)

end Life.Rationed

/-- **Every life keeps to the rations.** -/
theorem Reached.rationed {start : Option Nat} {l : Life σ} (h : Reached start l) :
    l.Rationed start := by
  induction h with
  | fresh id settings =>
    have hunused (ρ) : uses ρ (Life.fresh (σ := σ) id settings).log = 0 := by cases ρ <;> rfl
    exact ⟨fun ρ => by rw [hunused]; exact Nat.zero_le _,
      fun _ ρ _ _ _ => by rw [hunused]; exact Nat.zero_le _⟩
  | add h r ih => exact ih.add h.sparing r
  | outside new h hm hlog hnew ih =>
    exact ih.keep new hlog (fun e he => Event.idle_of_isOutside (hnew e he)) (.refl _) fun hc =>
      ⟨fun _ => hm.unclaimed (hc rfl), fun _ _ _ => id⟩
  | direct h hp m ih =>
    exact ih.keep _ hp.log (fun e he => Event.idle_of_pass (hp.kinds e he))
      hp.fixed fun hc =>
      ⟨fun _ => hp.moves.unclaimed (hc rfl), fun _ _ _ => id⟩
  | @finish l h β ending ih =>
    have ho := h.orderly.books.owned
    obtain ⟨new, hlog, hnew⟩ := finish_log β ending l.stream ho
    exact ih.keep_claimed new hlog (fun e he => Event.idle_of_isEnding (hnew e he))
      (finish_fixed β l.stream ending ho) (claimed_finish β ending ho)
  | take h hp hr ih =>
    exact ih.keep [] rfl (by simp) (.refl _) fun hc => ⟨hc, fun _ _ _ => id⟩
  | @release l p ending h hp hj β ih =>
    have hcondemned := h.orderly.condemned_due hp hj
    have ho := hcondemned.books.owned
    obtain ⟨new, hlog, hnew⟩ := release_log β ending l.stream ho
    exact ih.keep_claimed new hlog (fun e he => Event.idle_of_isEnding (hnew e he))
      (release_fixed β l.stream ending ho) (claimed_release β ending ho hcondemned.claimed)
  | @receive l h hc hp m ih =>
    refine ih.keep [] rfl (by simp) (.refl _) fun _ =>
      ⟨fun _ => hc, fun ρ p hhome hfaces => .inl ?_⟩
    rcases hfaces with hlt | ⟨rfl, -⟩
    · exact hlt
    · -- nothing is called at the start
      have hinit : l.stream.phase = .init := hp
      cases ρ with
      | filter i => rw [become_stream, hinit] at hhome; cases hhome.1
      | _ => exact absurd (hinit.symm.trans hhome) nofun
  | @resume l index h hc hp ih =>
    exact ih.keep [.published .running] rfl (by simpa using Event.idle_of_isIdle rfl)
      (.refl _) fun _ => ⟨fun _ => hc, fun ρ p _ hfaces =>
        hfaces.imp_right fun hhere => ⟨hhere.1, index, hp, hhere.2⟩⟩
  | reroute h hc hp hlt hr ih =>
    exact ih.keep [.published .running] rfl (by simpa using Event.idle_of_isIdle rfl) (.refl _)
      fun _ => ⟨fun _ => hc, fun _ _ hhome hfaces => (hfaces.not_late hhome rfl).elim⟩
  | response h hc hp m ih =>
    exact ih.keep [.stat (.phaseCompleted .awaitResponse)] rfl
      (by simpa using Event.idle_of_isIdle rfl) (.refl _)
      fun _ => ⟨fun _ => hc, fun _ _ hhome hfaces => (hfaces.not_late hhome rfl).elim⟩
  | halt h hc ih => exact ih.keep_claimed [] rfl (by simp) (.refl _) hc
  | stay h hl hx hlast ih =>
    exact ih.executed hx [] rfl (by simp) rfl fun _ _ hp hfaces => hfaces.of_stay hx h.poised.2 hp
  | @next start l s new is h hl hx ih =>
    exact ih.executed hx [.stat (.phaseCompleted s.phase)] rfl
      (by simpa using Event.idle_of_isIdle rfl) rfl fun _ _ _ hfaces =>
      .inl (hfaces.lt_of_next (congrArg Phase.next hx.phase) hl.notDone)
  | goto h hl hx ih =>
    refine ih.executed hx [] rfl (by simp) rfl fun _ _ hhome hfaces => ?_
    cases hx with
    | reply => exact (hfaces.not_late hhome rfl).elim
  | @jump start l q s new is rest h hl hx hj ih =>
    have hjumps : jumps (l.become (s.jumped q rest)).log = jumps l.log + 1 :=
      List.countP_cons.trans (congrArg (· + 1) hx.jumps)
    have huses (ρ) : uses ρ (l.become (s.jumped q rest)).log ≤ jumps l.log + 1 := by
      refine Nat.le_trans (Nat.le_of_eq ?_) (ih.spend hx ρ)
      refine List.countP_cons.trans ?_
      cases ρ <;> rfl
    refine ⟨fun ρ => ?_, fun _ ρ _ _ _ => ?_⟩
    · rw [hjumps]
      exact Nat.le_succ_of_le (huses ρ)
    · rw [hjumps]
      exact huses ρ

end FilterProxy

import FilterProxy.Proofs.Dealings
import FilterProxy.Proofs.Owed
import FilterProxy.Proofs.Silence
import Mathlib.Data.List.Nodup

/-!
# Proofs/Watchdog — a time limit ends its own pause and no other

Time limits are never called off, so those of past pauses come up as well.  Every pause has a number
of its own, and its limit is set once, right upon it (`Life.Watched`).  So the limit of the present
pause is due, and **a limit that has passed ends the stream iff the very pause for which it was set
still lasts** (`watchdog`).  A number of 64 bits does as well, for the first 2 ^ 64 - 1 pauses
(`Life.Watched.wide_iff`).
-/

namespace FilterProxy

variable {σ ε : Type}

open Board FilterSet FilterProxy.Stream Life

/-- The numbers of the pauses for which time limits were set. -/
def alarms (log : List (Event σ)) : List Nat := log.filterMap Event.alarm?

/-- A time limit that is set is a job put out. -/
theorem count_posted_timeout (g : Nat) (log : List (Event σ)) :
    (posted log).count ⟨.timeout g, false⟩ = (alarms log).count g := by
  induction log with
  | nil => rfl
  | cons e older ih =>
    rw [posted, alarms, filterMap_cons_toList, List.count_append, List.count_append, ih]
    congr 1
    cases e with
    | scheduled job =>
      cases job <;> simp [Event.posting?, Event.alarm?, List.count_singleton]
    | armed delay generation => simp [Event.posting?, Event.alarm?, List.count_singleton]
    | _ => rfl

/-- A time limit is set as the settings have it, **right after its pause was published**. -/
def Event.Alarmed (settings : Settings) (e : Event σ) (older : List (Event σ)) : Prop :=
  ∀ g, e.alarm? = some g → ∃ d p rest,
    e = .armed d g ∧ settings.stopTimeout = some d ∧ older = .published (.paused p) :: rest

/-! ## Phases and time limits -/

namespace Stream

/-- Nothing was done about time limits. -/
structure Untimed (s s' : Stream σ) : Prop where
  log : ∃ new, s'.board.log = new ++ s.board.log ∧ ∀ e ∈ new, e.alarm? = none
  settings : s'.settings = s.settings
  generation : s'.generation = s.generation
  pausedBy : s'.pausedBy = s.pausedBy

/-- **What a phase does about time limits**: nothing, but where a filter stops the stream. -/
inductive Times (s : Stream σ) : Step → Stream σ → Prop
  | plain {step s'} (h : s.Untimed s') : Times s step s'
  | pause {s'} (n) (h : s.Untimed s') (hc : s'.board.claimed = false) : Times s .rest (s'.pause n).2

namespace Untimed

variable {s s' : Stream σ}

theorem entered (s : Stream σ) : s.Untimed s.entered :=
  ⟨⟨[.entered s.phase], rfl, by simp [Event.alarm?]⟩, rfl, rfl, rfl⟩

theorem note (h : s.Untimed s') {e : Event σ} (he : e.alarm? = none) : s.Untimed (s'.note e) where
  log := by
    obtain ⟨new, hlog, hnew⟩ := h.log
    exact ⟨e :: new, congrArg (e :: ·) hlog, List.forall_mem_cons.mpr ⟨he, hnew⟩⟩
  settings := h.settings
  generation := h.generation
  pausedBy := h.pausedBy

theorem stays (h : s.Untimed s') {t : Stream σ} (hs : s'.Stays t) : s.Untimed t where
  log := by
    obtain ⟨new, hlog, hnew⟩ := h.log
    obtain ⟨new', hlog', hnew'⟩ := hs.board.log
    refine ⟨new' ++ new, by rw [hlog', hlog, List.append_assoc], fun e he => ?_⟩
    exact (List.mem_append.mp he).elim (fun he => (hnew' e he).alarm) (hnew e)
  settings := hs.settings.trans h.settings
  generation := hs.generation.trans h.generation
  pausedBy := hs.pausedBy.trans h.pausedBy

end Untimed

variable {s s' : Stream σ} {step : Step}

theorem Times.of_settles {t : Stream σ} (h : s.Untimed t) (hs : t.Settles step s') :
    s.Times step s' := by
  cases hs with
  | stays hs => exact .plain (h.stays hs)
  | pause n hs hc => exact .pause n (h.stays hs) hc

/-- **Every phase executed** does about time limits what phases do. -/
theorem Deals.times {c : Surroundings σ ε} {env : ε} {k : Nat} (h : s.Deals c env k step s')
    (ho : s.board.owned = true) : s.Times step s' := by
  have hentered := Untimed.entered s
  have called {e : Event σ} (he : e.alarm? = none) : s.Untimed (s.entered.note e) :=
    hentered.note he
  cases h with
  | apart _ h => exact .of_settles hentered h
  | lacking => exact .plain hentered
  | @filters _ _ point _ h =>
    have hpassed : s.Untimed (s.passed c.behaviour point k) :=
      ⟨((frame_passed c.behaviour point k ho).mono fun _ he => he.alarm).log, rfl, rfl, rfl⟩
    exact .of_settles hpassed h
  | routed => exact .plain ⟨(called rfl).log, rfl, rfl, rfl⟩
  | astray => exact .plain (called rfl)
  | chosen => exact .plain ⟨(called rfl).log, rfl, rfl, rfl⟩
  | refused => exact .plain (called rfl)
  | forwarded _ _ h => exact .plain (Untimed.stays (called rfl) h)
  | written _ h => exact .plain ((called rfl).stays h)

end Stream

/-! ## The books on time limits -/

/-- **The books on the time limits** of a stream nobody claimed. -/
structure Life.Watched (settings : Settings) (l : Life σ) : Prop where
  same : l.stream.settings = settings
  /-- Every pause has its limit, if there is one at all. -/
  alarms : alarms l.log =
    if settings.stopTimeout.isSome then (List.range' 1 l.stream.generation).reverse else []
  alarmed : Throughout (Event.Alarmed settings) l.log
  /-- A pause lasts as long as no status is published after its own. -/
  lasting : ∀ newer d older, l.log = newer ++ .armed d l.stream.generation :: older →
    ((∀ e ∈ newer, e.status? = none) ↔ l.stream.pausedBy.isSome)
  unfired : l.stream.pausedBy.isSome → l.ran.count ⟨.timeout l.stream.generation, false⟩ = 0
  numbered : l.stream.pausedBy.isSome → 0 < l.stream.generation

namespace Life.Watched

variable {settings : Settings} {l l' : Life σ}

/-- Only numbers of pauses are found among the alarms. -/
theorem le_of_mem (h : l.Watched settings) {g : Nat} (hg : g ∈ FilterProxy.alarms l.log) :
    g ≤ l.stream.generation := by
  rw [h.alarms] at hg
  split at hg
  · rw [List.mem_reverse, List.mem_range'_1] at hg
    omega
  · cases hg

/-- **Counted in 64 bits** the pauses are told apart by their numbers as well, as long as fewer
limits than 2 ^ 64 were set. -/
theorem wide_iff (h : l.Watched settings)
    (hfew : (FilterProxy.alarms l.log).length < UInt64.size) {g : Nat}
    (hg : g ∈ FilterProxy.alarms l.log) :
    UInt64.ofNat l.stream.generation = UInt64.ofNat g ↔ l.stream.generation = g := by
  have hle := h.le_of_mem hg
  have hcount : (FilterProxy.alarms l.log).length = l.stream.generation := by
    have halarms := h.alarms
    split at halarms
    · rw [halarms, List.length_reverse, List.length_range']
    · rw [halarms] at hg
      cases hg
  refine ⟨fun heq => ?_, congrArg UInt64.ofNat⟩
  have hmod := congrArg UInt64.toNat heq
  rwa [UInt64.toNat_ofNat_of_lt' (by omega), UInt64.toNat_ofNat_of_lt' (by omega)] at hmod

/-- **Whatever sets no time limit keeps the books.** -/
theorem keep (h : l.Watched settings) (new : List (Event σ)) (hlog : l'.log = new ++ l.log)
    (hnew : ∀ e ∈ new, e.alarm? = none) (hs : l'.stream.settings = l.stream.settings)
    (hg : l'.stream.generation = l.stream.generation)
    (hlasting : (∀ e ∈ new, e.status? = none) ∧ l.stream.pausedBy.isSome ↔
      l'.stream.pausedBy.isSome)
    (hran : l'.stream.pausedBy.isSome → l.stream.pausedBy.isSome →
      l'.ran.count ⟨.timeout l.stream.generation, false⟩
        = l.ran.count ⟨.timeout l.stream.generation, false⟩) : l'.Watched settings where
  same := hs.trans h.same
  alarms := by
    rw [hg, ← h.alarms, hlog, FilterProxy.alarms, List.filterMap_append,
      List.filterMap_eq_nil_iff.mpr hnew]
    rfl
  alarmed := by
    rw [hlog]
    refine h.alarmed.append fun newer e added hsplit g halarm => ?_
    rw [hnew e (hsplit ▸ List.mem_append_cons_self)] at halarm
    cases halarm
  lasting newer d older hsplit := by
    rw [hg, hlog] at hsplit
    obtain ⟨newer', rfl, hsplit'⟩ := exists_of_append_eq hsplit fun hmem => nomatch hnew _ hmem
    rw [List.forall_mem_append, h.lasting newer' d older hsplit']
    exact hlasting
  unfired hp := by
    have hp' := (hlasting.mpr hp).2
    rw [hg, hran hp hp']
    exact h.unfired hp'
  numbered hp := hg ▸ h.numbered (hlasting.mpr hp).2

theorem fresh (id : StreamId) : (Life.fresh (σ := σ) id settings).Watched settings where
  same := rfl
  alarms := by split <;> rfl
  alarmed := Throughout.cons_iff.mpr ⟨nofun, .nil⟩
  lasting newer d older hsplit := by
    have hmem : .armed d 0 ∈ (Life.fresh (σ := σ) id settings).log :=
      hsplit ▸ List.mem_append_cons_self
    cases List.mem_singleton.mp hmem
  unfired := nofun
  numbered := nofun

/-- A stream that stays where it stands stays in its pause. -/
theorem stays (h : l.Watched settings) (hs : l.stream.Stays l'.stream) (hran : l'.ran = l.ran) :
    l'.Watched settings := by
  obtain ⟨new, hlog, hnew⟩ := hs.board.log
  refine h.keep new hlog (fun e he => (hnew e he).alarm) hs.settings hs.generation ?_
    fun _ _ => by rw [hran]
  rw [hs.pausedBy]
  exact and_iff_right fun e he => (hnew e he).status

/-- A job that does not concern the stream is not the limit of its pause. -/
theorem ignored (h : l.Watched settings) {p : Posting} (hi : l.stream.Ignores p.job) :
    Watched settings { l with ran := p :: l.ran } := by
  refine h.keep [] rfl (by simp) rfl rfl (and_iff_right (by simp)) fun hp _ => ?_
  refine List.count_cons_of_ne fun heq => ?_
  rw [heq] at hi
  rcases hi with hi | hi
  · rw [show l.stream.pausedBy = none from hi] at hp
    cases hp
  · exact hi rfl

/-- **A job that drives the stream** ends the pause, if there is one. -/
theorem opened (h : l.Watched settings) {p : Posting} {k : Nat} {s : Stream σ}
    (ho : l.stream.Opens p.job k s) :
      Watched settings { l with stream := s, ran := p :: l.ran } := by
  have hcount (hp : ∀ g, p.job ≠ .timeout g) (g : Nat) :
      (p :: l.ran).count ⟨.timeout g, false⟩ = l.ran.count ⟨.timeout g, false⟩ :=
    List.count_cons_of_ne fun heq => hp g (by rw [heq])
  generalize hjob : p.job = job at ho
  cases ho with
  | receive =>
    exact h.keep [] rfl (by simp) rfl rfl (and_iff_right (by simp))
      fun _ _ => hcount (by simp [hjob]) _
  | response =>
    exact h.keep [.stat (.phaseCompleted .awaitResponse)] rfl (by simp [Event.alarm?]) rfl rfl
      (and_iff_right (by simp [Event.status?])) fun _ _ => hcount (by simp [hjob]) _
  | resume =>
    exact h.keep [.published .running] rfl (by simp [Event.alarm?]) rfl rfl
      (by simp [Event.status?, woken]) (by simp [woken])
  | reroute =>
    exact h.keep [.published .running] rfl (by simp [Event.alarm?]) rfl rfl
      (by simp [Event.status?, woken, rerouted]) (by simp [woken, rerouted])

/-- A phase that sets no time limit does not begin a pause either. -/
theorem untimed (h : l.Watched settings) {s : Stream σ} (hs : l.stream.Untimed s)
    (hawake : l.stream.pausedBy = none) : (l.become s).Watched settings := by
  obtain ⟨new, hlog, hnew⟩ := hs.log
  refine h.keep new hlog hnew hs.settings hs.generation ?_ fun _ _ => rfl
  rw [become_stream, hs.pausedBy, hawake]
  simp

/-- **A pause is one more**, and its time limit is new. -/
theorem pause (h : l.Watched settings) (n : Nat) (hc : l.stream.board.claimed = false)
    (hran : ∀ g, l.ran.count ⟨.timeout g, false⟩ ≤ (posted l.log).count ⟨.timeout g, false⟩) :
    (l.become (l.stream.pause n).2).Watched settings := by
  have hnew : l.stream.generation + 1 ∉ FilterProxy.alarms l.log := fun hmem => by
    have := h.le_of_mem hmem
    omega
  have hunfired : l.ran.count ⟨.timeout (l.stream.generation + 1), false⟩ = 0 := by
    refine Nat.eq_zero_of_le_zero (Nat.le_trans (hran _) (Nat.le_of_eq ?_))
    rw [count_posted_timeout]
    exact List.count_eq_zero.mpr hnew
  have halarms := h.alarms
  -- no time limit with the new number was set before
  have hfresh {newer older : List (Event σ)} {d : UInt64}
      (hsplit : (l.become (l.stream.halted n)).log
        = newer ++ .armed d (l.stream.generation + 1) :: older) : False :=
    hnew (List.mem_filterMap.mpr ⟨_, hsplit ▸ List.mem_append_cons_self, rfl⟩ :
      _ ∈ FilterProxy.alarms (l.become (l.stream.halted n)).log)
  rw [pause_of_unclaimed n hc, h.same]
  cases hlimit : settings.stopTimeout with
  | none =>
    rw [hlimit] at halarms
    exact ⟨h.same, by rw [hlimit]; exact halarms, Throughout.cons_iff.mpr ⟨nofun, h.alarmed⟩,
      fun newer d older hsplit => (hfresh hsplit).elim, fun _ => hunfired, fun _ => Nat.succ_pos _⟩
  | some d =>
    rw [hlimit] at halarms
    refine ⟨h.same, ?_, ?_, fun newer d' older hsplit => ?_, fun _ => hunfired,
      fun _ => Nat.succ_pos _⟩
    · rw [hlimit]
      change (l.stream.generation + 1) :: FilterProxy.alarms l.log
        = (List.range' 1 (l.stream.generation + 1)).reverse
      rw [halarms, List.range'_1_concat, List.reverse_append, Nat.add_comm]
      rfl
    · refine Throughout.cons_iff.mpr ⟨fun g hg => ?_, Throughout.cons_iff.mpr ⟨nofun, h.alarmed⟩⟩
      obtain rfl : l.stream.generation + 1 = g := Option.some.inj hg
      exact ⟨d, _, _, rfl, hlimit, rfl⟩
    · refine iff_of_true ?_ rfl
      rcases List.cons_eq_append_iff.mp hsplit with ⟨rfl, -⟩ | ⟨newer', rfl, hsplit'⟩
      · simp
      · exact (hfresh hsplit').elim

end Life.Watched

theorem Stream.Untimed.proceeds {s s' t : Stream σ} {step : Step} {start : Option Nat}
    (h : s.Untimed t) (hp : t.Proceeds step start s') : s.Untimed s' := by
  cases hp with
  | next => exact { h.note (e := .stat (.phaseCompleted t.phase)) rfl with }
  | goto => exact { h with }
  | @jump q rest => exact { h.note (e := .jumped q) rfl with }
  | stay => exact h

/-- **The books are kept** as long as nobody claims the stream. -/
theorem carries_watched (A : Surroundings σ ε → Nat → Turn σ ε → Prop) (settings : Settings) :
    Carries A settings fun _ l => l.stream.board.claimed = false → l.Watched settings where
  fresh id _ := .fresh id
  beside _ hl hb hran hc :=
    (hl (hb.board.unclaimed hc)).stays (hb.stays hc) hran
  spent {l s p} h hl _ hb hi hc := by
    rcases hi with hi | hclaimed
    · have hstays := hb.stays hc
      exact Life.Watched.stays ((hl (hb.board.unclaimed hc)).ignored hi) hstays rfl
    · rw [show s.board.claimed = false from hc] at hclaimed
      cases hclaimed
  opened _ hl _ ho _ := (hl ho.unclaimed).opened ho
  halt _ hl hclaimed hc := by
    rw [hclaimed] at hc
    cases hc
  executed {l c env k step t' start s} h hl hlive _ hx hs hc := by
    have hwatched := hl hlive.unclaimed
    have hawake : l.stream.pausedBy = none := h.poised.2
    have ho := h.orderly.books.owned
    have htimes := (Turn.deals_execute c k (t := ⟨l.stream, env⟩) ho).times ho
    rw [hx] at htimes
    dsimp only at htimes
    generalize t'.stream = s' at htimes hs
    cases htimes with
    | plain hu => exact hwatched.untimed (hu.proceeds hs) hawake
    | @pause s' n hu hn =>
      cases hs with
      | stay =>
        refine (hwatched.untimed hu hawake).pause n hn fun g => ?_
        obtain ⟨new, hlog, -⟩ := hu.log
        rw [become_log, hlog]
        exact Nat.le_trans (h.ran_le _) (count_posted_le new l.log _)

/-! ## The watchdog -/

/-- The stream is live and **still in the pause** it was in before the part `newer` of its log: no
status was published since. -/
structure Life.StillIn (l : Life σ) (newer : List (Event σ)) : Prop where
  live : l.stream.claimed = false
  lasts : ∀ e ∈ newer, e.status? = none

namespace Life.Watched

variable {settings : Settings} {l : Life σ}

/-- **The limit of the present pause** was set right upon it. -/
theorem exists_armed (h : l.Watched settings) {delay : UInt64}
    (hlimit : settings.stopTimeout = some delay) (hp : l.stream.pausedBy.isSome) :
    ∃ newer p older, l.log
        = newer ++ .armed delay l.stream.generation :: .published (.paused p) :: older ∧
      (∀ e ∈ newer, e.status? = none) ∧
      (FilterProxy.alarms l.log).count l.stream.generation = 1 := by
  have halarms := h.alarms
  rw [hlimit] at halarms
  have hnodup : (FilterProxy.alarms l.log).Nodup := by
    rw [halarms]
    exact List.nodup_reverse.mpr List.nodup_range'
  have hmem : l.stream.generation ∈ FilterProxy.alarms l.log := by
    have hpos := h.numbered hp
    rw [halarms]
    exact List.mem_reverse.mpr (List.mem_range'_1.mpr (by omega))
  obtain ⟨e, he, halarm⟩ := List.mem_filterMap.mp hmem
  obtain ⟨newer, older, hsplit⟩ := List.append_of_mem he
  obtain ⟨d, p, rest, rfl, hd, rfl⟩ := h.alarmed newer e older hsplit _ halarm
  obtain rfl : d = delay := Option.some.inj (hd.symm.trans hlimit)
  exact ⟨newer, p, rest, hsplit, (h.lasting newer d _ hsplit).mpr hp,
    Nat.le_antisymm (List.nodup_iff_count.mp hnodup _) (List.count_pos_iff.mpr hmem)⟩

/-- **A limit set for an earlier pause** is followed by the status of a later one. -/
theorem not_lasting (h : l.Watched settings) {newer older : List (Event σ)} {d : UInt64} {g : Nat}
    (hsplit : l.log = newer ++ .armed d g :: older) (hg : g ≠ l.stream.generation) :
    ∃ e ∈ newer, e.status? ≠ none := by
  have halarms := h.alarms
  have hmem : g ∈ FilterProxy.alarms l.log :=
    List.mem_filterMap.mpr ⟨_, hsplit ▸ List.mem_append_cons_self, rfl⟩
  have hlt : g < l.stream.generation := Nat.lt_of_le_of_ne (h.le_of_mem hmem) hg
  split at halarms
  case isFalse => rw [halarms] at hmem; cases hmem
  have hlast : l.stream.generation ∈ FilterProxy.alarms l.log := by
    rw [halarms]
    exact List.mem_reverse.mpr (List.mem_range'_1.mpr (by omega))
  have hfalling : (FilterProxy.alarms l.log).Pairwise (· > ·) := by
    rw [halarms, List.pairwise_reverse]
    exact List.pairwise_lt_range'
  -- the latest number stands before `g`, so its limit was set later
  have hlater : l.stream.generation ∈ FilterProxy.alarms newer := by
    rw [hsplit, FilterProxy.alarms, List.filterMap_append] at hlast hfalling
    rcases List.mem_append.mp hlast with hlast | hlast
    · exact hlast
    · rcases List.mem_cons.mp hlast with heq | hlast
      · exact absurd heq.symm hg
      · have := List.rel_of_pairwise_cons (List.pairwise_append.mp hfalling).2.1 hlast
        omega
  obtain ⟨e, he, halarm⟩ := List.mem_filterMap.mp hlater
  obtain ⟨latest, between, rfl⟩ := List.append_of_mem he
  rw [List.append_assoc, List.cons_append] at hsplit
  obtain ⟨-, p, rest, -, -, hpublished⟩ := h.alarmed latest e _ hsplit _ halarm
  cases between with
  | nil => cases hpublished
  | cons f between =>
    obtain rfl : f = .published (.paused p) := (List.cons.inj hpublished).1
    exact ⟨.published (.paused p), by simp, by simp [Event.status?]⟩

/-- **The number of a pause tells whether it still lasts.** -/
theorem lasts_iff (h : l.Watched settings) {newer older : List (Event σ)} {d : UInt64} {g : Nat}
    (hsplit : l.log = newer ++ .armed d g :: older) :
    (∀ e ∈ newer, e.status? = none) ↔ l.stream.pausedBy.isSome ∧ l.stream.generation = g := by
  by_cases hg : g = l.stream.generation
  · subst hg
    rw [h.lasting newer d older hsplit]
    exact (and_iff_left rfl).symm
  · obtain ⟨e, he, hstatus⟩ := h.not_lasting hsplit hg
    exact iff_of_false (fun hlasts => hstatus (hlasts e he)) fun hnow => hg hnow.2.symm

end Life.Watched

namespace Reached

variable {l : Life σ} (c : Surroundings σ ε) (env : ε)

/-- A limit whose pause is over, or that comes upon a claimed stream, changes nothing. -/
theorem stale_run {g : Nat} (hp : l.Due ⟨.timeout g, false⟩)
    (h : l.stream.board.claimed = true ∨ l.stream.pausedBy = none ∨ l.stream.generation ≠ g) :
    (l.next (.run ⟨.timeout g, false⟩ c env)).stream = l.stream := by
  rw [Life.next, if_pos hp]
  rcases h with hc | hover
  · have hidle : Turn.exec c (.timeout g) ⟨l.stream, env⟩ = (none, ⟨l.stream, env⟩) :=
      Turn.exec_of_claimed c hc (by simp)
    rw [hidle]
    rfl
  · have hidle : Turn.exec c (.timeout g) ⟨l.stream, env⟩ = (none, ⟨l.stream, env⟩) :=
      if_pos (hover.imp_left Option.isNone_iff_eq_none.mpr)
    rw [hidle]
    rfl

/-- **The limit of the present pause ends the stream.** -/
theorem ended_run (h : Reached none l) (hp : l.Due ⟨.timeout l.stream.generation, false⟩)
    (hc : l.stream.board.claimed = false) (hpaused : l.stream.pausedBy.isSome) :
    let l' := l.next (.run ⟨.timeout l.stream.generation, false⟩ c env)
    l.Ended l' .stopTimeout ∧ (l'.stream.board.status = .finished .stopTimeout ↔
      l.stream.filters.AllCalm c.behaviour (l.stream.board.claim .stopTimeout).2) := by
  have hexec : Turn.exec c (.timeout l.stream.generation) ⟨l.stream, env⟩
      = Turn.alone ⟨l.stream, env⟩ (·.finish c.behaviour .stopTimeout) := by
    refine if_neg ?_
    simpa using fun hn => by simp [hn] at hpaused
  refine Ended.of_finish (h.orderly.books.unclaimed hc) h hc c.behaviour .stopTimeout ?_
  simp only [Life.next, if_pos hp, hexec]
  rfl

end Reached

/-- **The watchdog of a pause ends that pause and no other.**  While a stream rests in a pause under
a time limit, the limit of this very pause was set right upon it, was put out once and did not pass
yet.  And whenever a limit passes, of whichever pause, it ends the stream iff that pause still
lasts, and changes nothing about the stream otherwise; the ending is published iff no filter panics
when it is told. -/
theorem watchdog (id : StreamId) (settings : Settings) (deeds : List (Deed σ ε)) :
    let l := Life.after id settings deeds
    (∀ delay, settings.stopTimeout = some delay → l.stream.claimed = false →
      l.stream.pausedBy.isSome →
        (∃ newer p older, l.log
            = newer ++ .armed delay l.stream.generation :: .published (.paused p) :: older ∧
          l.StillIn newer) ∧
        (posted l.log).count ⟨.timeout l.stream.generation, false⟩ = 1 ∧
        l.ran.count ⟨.timeout l.stream.generation, false⟩ = 0) ∧
    ∀ newer d g older, l.log = newer ++ .armed d g :: older → l.Due ⟨.timeout g, false⟩ →
      ∀ (c : Surroundings σ ε) (env : ε),
        let l' := l.next (.run ⟨.timeout g, false⟩ c env)
        (l.Ended l' .stopTimeout ↔ l.StillIn newer) ∧
        (¬ l.StillIn newer → l'.stream = l.stream) ∧
        (l.StillIn newer → (l'.stream.board.status = .finished .stopTimeout ↔
          l.stream.filters.AllCalm c.behaviour (l.stream.board.claim .stopTimeout).2)) := by
  intro l
  have h : Reached none l := reached_after id settings deeds
  have hwatched : l.stream.claimed = false → l.Watched settings :=
    (carries_watched _ settings).after
  refine ⟨fun delay hlimit hc hp => ?_, fun newer d g older hsplit hdue c env => ?_⟩
  · obtain ⟨newer, p, older, hsplit, hlasts, honce⟩ := (hwatched hc).exists_armed hlimit hp
    exact ⟨⟨newer, p, older, hsplit, hc, hlasts⟩, (count_posted_timeout _ _).trans honce,
      (hwatched hc).unfired hp⟩
  intro l'
  by_cases hstill : l.StillIn newer
  case pos =>
    obtain ⟨hpaused, rfl⟩ := ((hwatched hstill.live).lasts_iff hsplit).mp hstill.lasts
    obtain ⟨hended, hstatus⟩ := h.ended_run c env hdue hstill.live hpaused
    exact ⟨iff_of_true hended hstill, fun hover => absurd hstill hover, fun _ => hstatus⟩
  case neg =>
    have hstale : l'.stream = l.stream := by
      refine Reached.stale_run c env hdue ?_
      cases hc : l.stream.board.claimed with
      | true => exact .inl rfl
      | false =>
        refine .inr (or_iff_not_imp_left.mpr fun hpaused hg => hstill ⟨hc, ?_⟩)
        exact ((hwatched hc).lasts_iff hsplit).mpr ⟨Option.isSome_iff_ne_none.mpr hpaused, hg⟩
    refine ⟨iff_of_false (fun hended => ?_) hstill, fun _ => hstale, fun hin => absurd hin hstill⟩
    -- a stream that stays as it is was not claimed meanwhile
    have hclaims := hended.claims
    rw [Life.log, hstale] at hclaims
    cases hended.before.symm.trans hclaims

/-! ## Two pauses of one filter -/

/-- There is always a route. -/
def wellRouted : Surroundings (List Verdict) Unit :=
  { Surroundings.secluded foreseen with routing := ⟨some fun _ => .ok (some default)⟩ }

/-- A filter stops the stream, and does so again when the next one asks for another route. -/
def pausedTwice : List (Deed (List Verdict) Unit) :=
  [.add foreseen (.request [.stop, .stop] .afterRoute),
    .add foreseen (.request [.rematch] .afterRoute),
    .receive {}, .run ⟨.receive {}, false⟩ wellRouted (), .resume,
      .run ⟨.resume none, false⟩ wellRouted ()]

/-- The limit of the first pause passes in the second, which has a limit of its own. -/
example :
    let l := Life.after ⟨1⟩ {} pausedTwice
    let first := l.next (.run ⟨.timeout 1, false⟩ wellRouted ())
    let second := first.next (.run ⟨.timeout 2, false⟩ wellRouted ())
    l.stream.pausedBy = some 0 ∧ first.stream.pausedBy = some 0 ∧
      first.stream.board.status = .paused .filterRouted ∧
      second.stream.board.status = .finished .stopTimeout := by
  decide +kernel

end FilterProxy

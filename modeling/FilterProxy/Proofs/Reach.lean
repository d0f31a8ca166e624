import FilterProxy.Proofs.Life
import FilterProxy.Proofs.Drive

/-!
# Proofs/Reach — lives by small steps

A job drives a stream through many phases.  `Reached` cuts that into **small steps**: a life is
either at rest between two of them or about to execute its phase with the filters from some position
on.  What the small steps keep holds of every life; the first such fact is that **every life is
orderly**.
-/

namespace FilterProxy

variable {σ ε : Type}

/-- How often direct runs called the filter at a position. -/
def Life.byDirect (l : Life σ) : Side → Nat → Nat
  | .request, _ => 0
  | .response, i => l.direct i

/-- The life once a pass over the response filters was made directly, calling those at `is`. -/
def Life.directly (l : Life σ) (r : SetPassed σ) (m : Message) (is : List Nat) : Life σ where
  stream := { l.stream with filters := r.filters, board := r.bench.board, response := m }
  ran := l.ran
  direct i := l.direct i + is.count i

theorem calls_append {new : List (Event σ)} {side : Side} (h : ∀ e ∈ new, e.call? side = none)
    (log : List (Event σ)) : calls side (new ++ log) = calls side log := by
  rw [calls, List.filterMap_append, List.filterMap_eq_nil_iff.mpr h]
  rfl

/-- **A direct run's calls are told apart.** -/
theorem Life.calls_directly {l : Life σ} {r : SetPassed σ} {new is}
    (hp : FilterSet.ResponsePass .beforeSend 0 l.stream.filters l.stream.board r new is)
    (m : Message) (side : Side) (i : Nat) :
    (calls side (l.directly r m is).log).count i + l.byDirect side i
      = (calls side l.log).count i + (l.directly r m is).byDirect side i := by
  rw [Life.log, show (l.directly r m is).stream.board.log = _ from hp.log]
  cases side with
  | request =>
    rw [calls_append fun e he => Event.call?_of_pass (by decide) (hp.kinds e he)]
    rfl
  | response =>
    rw [calls, List.filterMap_append, ← calls, ← calls, hp.calls, List.count_append,
      List.count_reverse]
    change _ + (calls .response l.log).count i + l.direct i = _ + (l.direct i + is.count i)
    omega

open Board FilterSet FilterProxy.Stream in
/-- **The small steps.**  A life is reached at rest (`none`), or about to execute its phase with the
filters from a position on. -/
inductive Reached : Option Nat → Life σ → Prop
  | fresh (id settings) : Reached none (.fresh id settings)
  | add {l} (h : Reached none l) (r) : Reached none (l.become (l.stream.enlist r))
  /-- Something happens to the board alone. -/
  | outside {l b} (new) (h : Reached none l) (hm : Moves l.stream.board b)
      (hlog : b.log = new ++ l.log) (hnew : ∀ e ∈ new, e.isOutside = true) :
      Reached none (l.become { l.stream with board := b })
  | direct {l r new is} (h : Reached none l)
      (hp : ResponsePass .beforeSend 0 l.stream.filters l.stream.board r new is) (m) :
      Reached none (l.directly r m is)
  | finish {l} (h : Reached none l) (β : Behaviour σ) (ending) :
      Reached none (l.become (l.stream.finish β ending).2)
  /-- A job other than a release is taken from the pool. -/
  | take {l p} (h : Reached none l) (hp : l.Due p) (hr : ∀ ending, p.job ≠ .release ending) :
      Reached none { l with ran := p :: l.ran }
  | release {l p ending} (h : Reached none l) (hp : l.Due p) (hj : p.job = .release ending)
      (β : Behaviour σ) :
      Reached none { l with stream := (l.stream.release β ending).2, ran := p :: l.ran }
  | receive {l} (h : Reached none l) (hc : l.stream.board.claimed = false)
      (hp : l.stream.phase = .init) (m) :
      Reached (some 0) (l.become { l.stream with request := m })
  | resume {l index} (h : Reached none l) (hc : l.stream.board.claimed = false)
      (hp : l.stream.pausedBy = some index) : Reached (some (index + 1)) (l.become l.stream.woken)
  | reroute {l index reply} (h : Reached none l) (hc : l.stream.board.claimed = false)
      (hp : l.stream.pausedBy = some index) (hlt : l.stream.phase < .filterResponse)
      (hr : l.stream.board.reply = some reply) :
      Reached (some 0) (l.become (l.stream.rerouted reply))
  | response {l} (h : Reached none l) (hc : l.stream.board.claimed = false)
      (hp : l.stream.phase = .awaitResponse) (m) :
      Reached (some 0) (l.become (l.stream.responded m))
  /-- The stream was claimed before its phase could be executed. -/
  | halt {start l} (h : Reached (some start) l) (hc : l.stream.board.claimed = true) :
      Reached none l
  /-- The phase is executed, and the stream stays there. -/
  | stay {start l step s new is} (h : Reached (some start) l) (hl : l.stream.Live)
      (hx : Executed start l.stream.entered step s new is) (hlast : step.isLast) :
      Reached none (l.become s)
  | next {start l s new is} (h : Reached (some start) l) (hl : l.stream.Live)
      (hx : Executed start l.stream.entered .next s new is) : Reached (some 0) (l.become s.advanced)
  | goto {start l q s new is} (h : Reached (some start) l) (hl : l.stream.Live)
      (hx : Executed start l.stream.entered (.goto q) s new is) :
      Reached (some 0) (l.become { s with phase := q })
  | jump {start l q s new is rest} (h : Reached (some start) l) (hl : l.stream.Live)
      (hx : Executed start l.stream.entered (.jump q) s new is) (hj : s.jumpsLeft = rest + 1) :
      Reached (some 0) (l.become (s.jumped q rest))

/-- **A pause is one of a filter phase**, and a stream about to execute its phase is awake. -/
def Stream.Poised : Option Nat → Stream σ → Prop
  | none, s => ∀ i, s.pausedBy = some i → s.phase.side?.isSome
  | some _, s => s.phase ≠ .done ∧ s.pausedBy = none

namespace Stream

open Board FilterSet

theorem finish_pausedBy (β : Behaviour σ) (s : Stream σ) (ending : Ending) :
    (s.finish β ending).2 = s ∨ (s.finish β ending).2.pausedBy = none := by
  cases hc : s.board.claimed with
  | true => exact .inl (by rw [finish_of_claimed β hc])
  | false => exact .inr (by rw [finish_of_unclaimed β hc, release_eq]; rfl)

theorem Poised.awake {s : Stream σ} (h : s.Poised none) (hp : s.phase.side? = none) :
    s.pausedBy = none := by
  cases hi : s.pausedBy with
  | none => rfl
  | some i => rw [Poised] at h; have := h i hi; simp [hp] at this

end Stream

namespace Reached

open Board FilterSet FilterProxy.Stream Life

theorem poised {start : Option Nat} {l : Life σ} (h : Reached start l) :
    l.stream.Poised start := by
  induction h with
  | fresh id settings => nofun
  | add h r ih => exact ih
  | outside new h hm hlog hnew ih => exact ih
  | direct h hp m ih => exact ih
  | @finish l h β ending ih =>
    rw [become_stream]
    rcases l.stream.finish_pausedBy β ending with hs | hs
    · rw [hs]; exact ih
    · intro i hi; rw [hs] at hi; cases hi
  | take h hp hr ih => exact ih
  | release h hp hj β ih => rw [release_eq]; nofun
  | @receive l h hc hp m ih =>
    refine ⟨fun hd => ?_, ih.awake (by rw [hp]; rfl)⟩
    rw [show l.stream.phase = .done from hd] at hp
    cases hp
  | @resume l index h hc hp ih =>
    refine ⟨fun hd => ?_, rfl⟩
    have hside := ih index hp
    rw [show l.stream.phase = .done from hd] at hside
    cases hside
  | reroute h hc hp hlt hr ih => exact ⟨nofun, rfl⟩
  | response h hc hp m ih => exact ⟨nofun, ih.awake (by rw [hp]; rfl)⟩
  | halt h hc ih => intro i hi; rw [ih.2] at hi; cases hi
  | stay h hl hx hlast ih =>
    rw [become_stream]
    intro i hi
    cases hx with
    | pause hw hp => rw [hw.phase]; exact hp
    | _ hw ha => rw [ha.pausedBy, entered_pausedBy, ih.2] at hi; cases hi
  | @next start l s new is h hl hx ih =>
    cases hx with
    | next hw ha hp =>
      refine ⟨?_, ha.pausedBy.trans ih.2⟩
      rw [become_stream, advanced_phase, hw.phase]
      exact Phase.next_ne_done hp
  | @goto start l q s new is h hl hx ih =>
    cases hx with
    | reply hw ha hp hr => exact ⟨nofun, ha.pausedBy.trans ih.2⟩
  | @jump start l q s new is rest h hl hx hj ih =>
    cases hx with
    | jump hw ha hp hq hr =>
      refine ⟨?_, ha.pausedBy.trans ih.2⟩
      rcases hq with rfl | rfl <;> nofun

end Reached

/-! ## The books of a life -/

/-- An event that neither says farewell nor publishes a last status. -/
structure Event.Mild (e : Event σ) : Prop where
  farewell : ∀ side, e.farewell? side = none
  status : ∀ r, e.status? ≠ some (.finished r)

theorem Event.mild_of_within {phase : Phase} {e : Event σ} (h : e.Within phase) : e.Mild := by
  cases e with
  | published s => exact ⟨fun _ => rfl, fun r hr => by
      have := (Option.some.inj hr).symm.trans h.1
      cases this⟩
  | destroyed => cases h
  | _ => exact ⟨fun _ => rfl, by simp [status?]⟩

theorem Event.mild_running : (.published .running : Event σ).Mild :=
  ⟨fun _ => rfl, by simp [status?]⟩

theorem Event.mild_completed (p : Phase) : (.stat (.phaseCompleted p) : Event σ).Mild :=
  ⟨fun _ => rfl, by simp [status?]⟩

theorem Event.mild_of_isOutside {e : Event σ} (h : e.isOutside = true) : e.Mild := by
  cases e with
  | published | destroyed => cases h
  | _ => exact ⟨fun _ => rfl, by simp [status?]⟩

theorem Event.mild_of_pass {side : Side} {e : Event σ}
    (h : e.inPass side = true ∨ e.byHandle = true) : e.Mild := by
  cases e with
  | published | destroyed => rcases h with h | h <;> cases h
  | _ => exact ⟨fun _ => rfl, by simp [status?]⟩

theorem farewells_append {new log : List (Event σ)} (h : ∀ e ∈ new, e.Mild) (side : Side) :
    farewells side (new ++ log) = farewells side log := by
  rw [farewells, List.filterMap_append,
    List.filterMap_eq_nil_iff.mpr fun e he => (h e he).farewell side]
  rfl

theorem mem_statuses_append {new log : List (Event σ)} (h : ∀ e ∈ new, e.Mild) {r : Ending}
    (hr : .finished r ∈ statuses (new ++ log)) : .finished r ∈ statuses log := by
  rw [statuses, List.filterMap_append, List.mem_append] at hr
  rcases hr with hr | hr
  · obtain ⟨e, he, hs⟩ := List.mem_filterMap.mp hr
    exact absurd hs ((h e he).status r)
  · exact hr

/-- Only a resumption is marked as coming with a reply. -/
theorem job_of_byReply {log : List (Event σ)} {p : Posting} (hp : p ∈ posted log)
    (h : p.byReply = true) : p.job = .resume none := by
  induction log with
  | nil => cases hp
  | cons e older ih =>
    rcases List.mem_append.mp hp with hp | hp
    · cases e with
      | scheduled job =>
        obtain rfl : p = ⟨job, _⟩ := List.mem_singleton.mp hp
        simp only [Bool.and_eq_true, decide_eq_true_eq] at h
        exact h.1
      | armed delay generation =>
        obtain rfl : p = ⟨_, _⟩ := List.mem_singleton.mp hp
        cases h
      | _ => cases hp
    · exact ih hp

/-- Any other job is put out by itself. -/
theorem eq_of_job {log : List (Event σ)} {p : Posting} {job : Job} (hp : p ∈ posted log)
    (hj : p.job = job) (hjob : job ≠ .resume none) : p = ⟨job, false⟩ := by
  obtain ⟨job', byReply⟩ := p
  obtain rfl : job' = job := hj
  have hb : byReply = false := Bool.eq_false_iff.mpr fun hb => hjob (job_of_byReply hp hb)
  rw [hb]

/-- A job that was put out was scheduled, unless it is a timeout. -/
theorem mem_of_posted {log : List (Event σ)} {p : Posting} {job : Job} (hp : p ∈ posted log)
    (hj : p.job = job) (hjob : ∀ generation, job ≠ .timeout generation) : .scheduled job ∈ log := by
  induction log with
  | nil => cases hp
  | cons e older ih =>
    rcases List.mem_append.mp hp with hp | hp
    · cases e with
      | scheduled job' =>
        obtain rfl : p = ⟨job', _⟩ := List.mem_singleton.mp hp
        obtain rfl : job' = job := hj
        exact List.mem_cons_self
      | armed delay generation =>
        obtain rfl : p = ⟨_, _⟩ := List.mem_singleton.mp hp
        exact absurd hj.symm (hjob generation)
      | _ => cases hp
    · exact List.mem_cons_of_mem e (ih hp)

/-- What is due was put out. -/
theorem Life.Due.mem_posted {l : Life σ} {p : Posting} (h : l.Due p) : p ∈ posted l.log :=
  List.count_pos_iff.mp (Nat.lt_of_le_of_lt (Nat.zero_le _) h)

/-- Releases are put out as often as they are logged. -/
theorem count_posted_release (r : Ending) (log : List (Event σ)) :
    (posted log).count ⟨.release r, false⟩ = (releases log).count r := by
  induction log with
  | nil => rfl
  | cons e older ih =>
    rw [posted, releases_cons, List.count_append, List.count_append, ih]
    congr 1
    cases e with
    | scheduled job => cases job <;> simp [Event.posting?, Event.release?, List.count_singleton]
    | armed delay generation => simp [Event.posting?, Event.release?]
    | _ => rfl

/-- A release that is due is the claimed one. -/
theorem mem_releases_of_due {l : Life σ} {p : Posting} {r : Ending} (h : l.Due p)
    (hj : p.job = .release r) : p = ⟨.release r, false⟩ ∧ r ∈ releases l.log := by
  obtain rfl : p = ⟨.release r, false⟩ := eq_of_job h.mem_posted hj nofun
  have hcount := List.count_pos_iff.mpr h.mem_posted
  rw [count_posted_release] at hcount
  exact ⟨rfl, List.count_pos_iff.mp hcount⟩

/-- **What holds of every life**: its books are in order, nobody was told anything before the
release, nobody was told twice, and after the release no other is due. -/
structure Orderly (l : Life σ) : Prop where
  books : l.stream.board.Books
  untold : l.stream.phase ≠ .done →
    (∀ side, farewells side l.log = []) ∧ ∀ r, .finished r ∉ statuses l.log
  once : ∀ side i, (farewells side l.log).count i ≤ 1
  released : l.stream.phase = .done →
    l.stream.board.claimed = true ∧ ∀ p r, p.job = .release r → ¬ l.Due p

/-- The stream is claimed for `r`, and nobody was told so. -/
structure Stream.Condemned (s : Stream σ) (r : Ending) : Prop where
  books : s.board.Books
  claimed : s.board.claimed = true
  claims : claims s.board.log = [r]
  farewells : ∀ side, farewells side s.board.log = []
  statuses : ∀ e, .finished e ∉ statuses s.board.log

namespace Stream

open Board FilterSet

/-- **What a release leaves**, if it is the first and for the claim. -/
theorem Condemned.release {s : Stream σ} {r : Ending} (h : s.Condemned r) (β : Behaviour σ) :
    let s' := (s.release β r).2
    s'.board.Books ∧ s'.board.claimed = true ∧ FilterProxy.claims s'.board.log = [r] ∧
      releases s'.board.log = releases s.board.log ∧
      ∀ side i, (FilterProxy.farewells side s'.board.log).count i ≤ 1 := by
  obtain ⟨count, hp⟩ := parting_destroy β s.filters s.board h.books.owned
  have hfrozen := hp.moves.frozen h.claimed
  have hclaims := hfrozen.claims.trans h.claims
  have hbooks := hp.moves.books h.books
  have honce (side i) :
      (FilterProxy.farewells side (destroy β s.filters s.board).2.2.log).count i ≤ 1 := by
    rw [hp.farewells, h.farewells, List.append_nil, List.count_reverse]
    exact List.nodup_iff_count.mp List.nodup_range i
  intro s'
  rw [show s' = _ from congrArg Prod.snd (release_eq β r s)]
  cases hpanic : (destroy β s.filters s.board).1 with
  | some p => exact ⟨hbooks, hp.moves.claimed h.claimed, hclaims, hfrozen.releases, honce⟩
  | none =>
    refine ⟨hbooks.publish ?_ ?_, hp.moves.claimed h.claimed, hclaims, hfrozen.releases, honce⟩
    · intro e he
      rw [hclaims, Status.finished.inj he]
    · rw [hfrozen.statuses]
      exact h.statuses

end Stream

namespace Orderly

open Board

variable {l l' : Life σ}

/-- Mild events and moves keep the order, as long as no release is made or forgotten. -/
theorem extend (h : Orderly l) (new : List (Event σ)) (hm : Moves l.stream.board l'.stream.board)
    (hlog : l'.log = new ++ l.log) (hnew : ∀ e ∈ new, e.Mild)
    (hphase : l'.stream.phase = .done ↔ l.stream.phase = .done)
    (hran : ∀ p, l.ran.count p ≤ l'.ran.count p) : Orderly l' where
  books := hm.books h.books
  untold hd := by
    obtain ⟨hf, hs⟩ := h.untold fun hd' => hd (hphase.mpr hd')
    rw [hlog]
    exact ⟨fun side => by rw [farewells_append hnew, hf side],
      fun r hr => hs r (mem_statuses_append hnew hr)⟩
  once side i := by rw [hlog, farewells_append hnew]; exact h.once side i
  released hd := by
    obtain ⟨hc, hdue⟩ := h.released (hphase.mp hd)
    refine ⟨hm.claimed hc, fun p r hj hp => ?_⟩
    obtain ⟨rfl, -⟩ := mem_releases_of_due hp hj
    refine hdue _ r rfl (Nat.lt_of_le_of_lt (hran _) (Nat.lt_of_lt_of_eq hp ?_))
    rw [count_posted_release, count_posted_release]
    exact congrArg (List.count r) (hm.frozen hc).releases

theorem fresh (id : StreamId) (settings : Settings) : Orderly (σ := σ) (.fresh id settings) where
  books :=
    { owned := rfl, unclaimed := fun _ => rfl, claimed := nofun, terminations := rfl
      cleanings := rfl, releases := .inl rfl, status := rfl, finished := nofun
      final := Throughout.cons_iff.mpr ⟨nofun, .nil⟩, signed := nofun }
  untold _ := ⟨fun _ => rfl, fun _ => List.not_mem_nil⟩
  once _ _ := Nat.zero_le _
  released := nofun

/-- Nobody released a stream that nobody claimed. -/
theorem not_done (h : Orderly l) (hc : l.stream.board.claimed = false) :
    l.stream.phase ≠ .done := by
  intro hd
  rw [(h.released hd).1] at hc
  cases hc

theorem releases_of_unclaimed (h : Orderly l) (hc : l.stream.board.claimed = false) :
    releases l.log = [] := by
  rcases h.books.releases with hr | hr
  · exact hr
  · exact hr.trans (h.books.unclaimed hc)

/-- The first to claim a stream condemns it. -/
theorem condemned_claim (h : Orderly l) (hc : l.stream.board.claimed = false) (ending : Ending) :
    ({ l.stream with board := (l.stream.board.claim ending).2 } : Stream σ).Condemned ending := by
  obtain ⟨hf, hs⟩ := h.untold (h.not_done hc)
  have hlog : (l.stream.board.claim ending).2.log = claimEvents ending ++ l.log := by
    rw [claim_of_unclaimed hc]; rfl
  have hmild : ∀ e ∈ claimEvents (σ := σ) ending, e.Mild := fun e he => by
    rcases mem_claimEvents he with rfl | rfl | rfl <;> exact Event.mild_of_isOutside rfl
  exact
    { books := h.books.claim ending
      claimed := by simp [claim_of_unclaimed hc]
      claims := by
        rw [hlog, claims_claimEvents, show claims l.log = [] from h.books.unclaimed hc]
      farewells := fun side => by rw [hlog, farewells_append hmild, hf side]
      statuses := fun r hr => hs r (mem_statuses_append hmild (hlog ▸ hr)) }

/-- A stream whose release is due is condemned. -/
theorem condemned_due (h : Orderly l) {p : Posting} {r : Ending} (hp : l.Due p)
    (hj : p.job = .release r) : l.stream.Condemned r := by
  obtain ⟨rfl, hmem⟩ := mem_releases_of_due hp hj
  have hd : l.stream.phase ≠ .done := fun hd => (h.released hd).2 _ r rfl hp
  obtain ⟨hf, hs⟩ := h.untold hd
  have hc : l.stream.board.claimed = true := by
    cases hc : l.stream.board.claimed with
    | true => rfl
    | false => rw [h.releases_of_unclaimed hc] at hmem; cases hmem
  obtain ⟨e, he⟩ := h.books.claimed hc
  have hr : r ∈ [e] := by
    rw [← he]
    rcases h.books.releases with hr | hr
    · rw [show releases l.log = [] from hr] at hmem; cases hmem
    · exact hr ▸ hmem
  obtain rfl : r = e := List.mem_singleton.mp hr
  exact ⟨h.books, hc, he, hf, hs⟩

/-- **A release at once**, by the first to claim: no other was or will be due. -/
theorem finish (h : Orderly l) (β : Behaviour σ) (ending : Ending) :
    Orderly (l.become (l.stream.finish β ending).2) := by
  cases hc : l.stream.board.claimed with
  | true => rw [Stream.finish_of_claimed β hc]; exact h
  | false =>
    obtain ⟨hbooks, hclaimed, -, hreleases, honce⟩ := (h.condemned_claim hc ending).release β
    rw [Stream.finish_of_unclaimed β hc]
    refine ⟨hbooks, fun hd => absurd ?_ hd, honce, fun _ => ⟨hclaimed, fun p r hj hp => ?_⟩⟩
    · rw [Life.become_stream, Stream.release_eq]; rfl
    · have hmem := (mem_releases_of_due hp hj).2
      have hlog : (l.stream.board.claim ending).2.log = claimEvents ending ++ l.log := by
        rw [claim_of_unclaimed hc]; rfl
      rw [Life.become_log, hreleases, hlog, releases_claimEvents,
        h.releases_of_unclaimed hc] at hmem
      cases hmem

/-- **A release that was put out** is the only one. -/
theorem release (h : Orderly l) {p : Posting} {r : Ending} (hp : l.Due p) (hj : p.job = .release r)
    (β : Behaviour σ) :
    Orderly { l with stream := (l.stream.release β r).2, ran := p :: l.ran } := by
  have hcondemned := h.condemned_due hp hj
  obtain ⟨hbooks, hclaimed, -, hreleases, honce⟩ := hcondemned.release β
  obtain ⟨rfl, hmem⟩ := mem_releases_of_due hp hj
  have hr : releases l.log = [r] := by
    rcases h.books.releases with hr | hr
    · rw [show releases l.log = [] from hr] at hmem; cases hmem
    · exact hr.trans hcondemned.claims
  refine ⟨hbooks, fun hd => absurd ?_ hd, honce, fun _ => ⟨hclaimed, fun q r' hj' hq => ?_⟩⟩
  · rw [Stream.release_eq]; rfl
  · obtain ⟨rfl, hmem'⟩ := mem_releases_of_due hq hj'
    have hlog : releases (Life.log { l with
        stream := (l.stream.release β r).2, ran := ⟨.release r, false⟩ :: l.ran }) = [r] :=
      hreleases.trans hr
    obtain rfl : r' = r := by rw [hlog] at hmem'; exact List.mem_singleton.mp hmem'
    unfold Life.Due at hq
    rw [count_posted_release, hlog] at hq
    simp at hq

end Orderly

theorem Stream.Executed.mild {start : Nat} {s s' : Stream σ} {step : Step} {new : List (Event σ)}
    {is : List Nat} (h : Executed start s.entered step s' new is) :
    ∀ e ∈ new ++ [.entered s.phase], e.Mild := by
  intro e he
  rcases List.mem_append.mp he with he | he
  · exact Event.mild_of_within (h.worked.within e he)
  · obtain rfl := List.mem_singleton.mp he
    exact ⟨fun _ => rfl, by simp [Event.status?]⟩

open Board Event in
/-- **Every life is orderly.** -/
theorem Reached.orderly {start : Option Nat} {l : Life σ} (h : Reached start l) : Orderly l := by
  have hpoised := h.poised
  induction h with
  | fresh id settings => exact .fresh id settings
  | add h r ih => exact (ih h.poised).extend [] .refl rfl (by simp) .rfl fun _ => Nat.le_refl _
  | outside new h hm hlog hnew ih =>
    exact (ih h.poised).extend new hm hlog (fun e he => Event.mild_of_isOutside (hnew e he)) .rfl
      fun _ => Nat.le_refl _
  | direct h hp m ih =>
    exact (ih h.poised).extend _ hp.moves hp.log
      (fun e he => Event.mild_of_pass (hp.kinds e he)) .rfl
      fun _ => Nat.le_refl _
  | finish h β ending ih => exact (ih h.poised).finish β ending
  | take h hp hr ih =>
    exact (ih h.poised).extend [] .refl rfl (by simp) .rfl
      fun q => List.count_le_count_cons
  | release h hp hj β ih => exact (ih h.poised).release hp hj β
  | receive h hc hp m ih =>
    exact (ih h.poised).extend [] .refl rfl (by simp) .rfl fun _ => Nat.le_refl _
  | resume h hc hp ih =>
    exact (ih h.poised).extend [.published .running] (.single (.publish _ nofun hc)) rfl
      (by simpa using mild_running) .rfl fun _ => Nat.le_refl _
  | @reroute l _ _ h hc hp hlt hr ih =>
    have hd := (ih h.poised).not_done hc
    exact (ih h.poised).extend [.published .running]
      (.tail (.single (.publish l.stream.board (s := .running) nofun hc))
        (.edit ⟨rfl, rfl, rfl, rfl, rfl, .inr rfl, id⟩))
      rfl (by simpa using mild_running)
      ⟨nofun, fun hd' => absurd hd' hd⟩ fun _ => Nat.le_refl _
  | @response l h hc hp m ih =>
    have hd := (ih h.poised).not_done hc
    exact (ih h.poised).extend [.stat (.phaseCompleted .awaitResponse)]
      (.tail (.single (.edit ⟨rfl, rfl, rfl, rfl, rfl, .inr rfl, fun _ => rfl⟩ :
          Move l.stream.board l.stream.board.closeReply.2))
        (.note _ (e := .stat (.phaseCompleted .awaitResponse)) rfl))
      rfl (by simpa using mild_completed _)
      ⟨nofun, fun hd' => absurd hd' hd⟩ fun _ => Nat.le_refl _
  | halt h hc ih => exact ih h.poised
  | stay h hl hx hlast ih =>
    exact (ih h.poised).extend _ (hx.moves hl) hx.log hx.mild (by rw [Life.become_stream, hx.phase])
      fun _ => Nat.le_refl _
  | @next start l s new is h hl hx ih =>
    refine (ih h.poised).extend (.stat (.phaseCompleted s.phase)
      :: (new ++ [.entered l.stream.phase]))
      ((hx.moves hl).tail (.note _ rfl)) (congrArg (List.cons _) hx.log) ?_
      ⟨fun hd => absurd hd hpoised.1, fun hd => absurd hd hl.notDone⟩ fun _ => Nat.le_refl _
    exact List.forall_mem_cons.mpr ⟨mild_completed _, hx.mild⟩
  | goto h hl hx ih =>
    exact (ih h.poised).extend _ (hx.moves hl) hx.log hx.mild
      ⟨fun hd => absurd hd hpoised.1, fun hd => absurd hd hl.notDone⟩ fun _ => Nat.le_refl _
  | @jump start l q s new is rest h hl hx hj ih =>
    refine (ih h.poised).extend (.jumped q :: (new ++ [.entered l.stream.phase]))
      ((hx.moves hl).tail (.note _ rfl)) (congrArg (List.cons _) hx.log) ?_
      ⟨fun hd => absurd hd hpoised.1, fun hd => absurd hd hl.notDone⟩ fun _ => Nat.le_refl _
    exact List.forall_mem_cons.mpr ⟨⟨fun _ => rfl, by simp [Event.status?]⟩, hx.mild⟩

open FilterSet FilterProxy.Stream in
/-- **In every life every filter speaks for the place it is at.** -/
theorem Reached.inPlace {start : Option Nat} {l : Life σ} (h : Reached start l) :
    l.stream.filters.InPlace := by
  induction h with
  | fresh id settings => exact fun side => by cases side <;> rfl
  | add h r ih => exact ih.enlist r
  | outside _ _ _ _ _ ih | take _ _ _ ih | receive _ _ _ _ ih | resume _ _ _ ih
  | reroute _ _ _ _ _ ih
  | response _ _ _ _ ih | halt _ _ ih => exact ih
  | direct _ hp _ ih => exact ih.fixed hp.fixed
  | @finish l h β ending ih => exact ih.fixed (finish_fixed β l.stream ending h.orderly.books.owned)
  | @release l p ending h hp hj β ih =>
    exact ih.fixed (release_fixed β l.stream ending h.orderly.books.owned)
  | stay _ _ hx _ ih | next _ _ hx ih | goto _ _ hx ih | jump _ _ hx _ ih =>
    exact ih.fixed hx.worked.fixed

end FilterProxy

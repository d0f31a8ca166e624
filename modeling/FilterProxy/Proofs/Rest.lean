import FilterProxy.Proofs.Lived

/-!
# Proofs/Rest — the three ways to rest

A stream that nobody claimed and that nothing broke off rests **before its request came, in a pause,
or while it waits for the host** (`Lived.stands`).  What it publishes tells which, and a pause names
a filter that its phase runs.
-/

namespace FilterProxy

variable {σ ε : Type}

open Board FilterSet FilterProxy.Stream Life

/-- A job broke off. -/
def Event.isEscape : Event σ → Bool
  | .escaped _ => true
  | _ => false

namespace Life

/-- Nobody claimed the stream, and none of its jobs broke off. -/
structure Hale (l : Life σ) : Prop where
  unclaimed : l.stream.board.claimed = false
  whole : ∀ e ∈ l.log, e.isEscape = false

/-- **Nothing has started**: no request was accepted. -/
structure Unstarted (l : Life σ) : Prop where
  phase : l.stream.phase = .init
  awake : l.stream.pausedBy = none
  status : l.stream.board.status = .running
  entries : entries l.log = []
  received : ∀ p ∈ l.ran, ∀ m, p.job ≠ .receive m

/-- **The stream is paused** by the filter at `index`, which is one of its phase. -/
structure PausedAt (l : Life σ) (index : Nat) : Prop where
  pausedBy : l.stream.pausedBy = some index
  status : l.stream.board.status = .paused l.stream.phase
  bound : l.stream.filters.Bound l.stream.phase index

/-- **The stream waits** for the host. -/
structure Waits (l : Life σ) : Prop where
  phase : l.stream.phase = .awaitResponse
  awake : l.stream.pausedBy = none
  status : l.stream.board.status = .running

/-- How a life stands: at rest in one of three ways, or at work. -/
def Stands : Option Nat → Life σ → Prop
  | some _, l => l.stream.board.status = .running
  | none, l => l.Unstarted ∨ (∃ i, l.PausedAt i) ∨ l.Waits

variable {l l' : Life σ}

/-- What is hale was hale before. -/
theorem Hale.of_suffix (h : l'.Hale)
    (hc : l'.stream.board.claimed = false → l.stream.board.claimed = false)
    (hs : l.log <:+ l'.log) : l.Hale :=
  ⟨hc h.unclaimed, fun e he => h.whole e (hs.subset he)⟩

theorem Hale.not_claimed (h : l.Hale) (hc : l.stream.board.claimed = true) : False := by
  rw [h.unclaimed] at hc
  cases hc

/-- An awake stream at rest is at work, as far as others are told. -/
theorem Stands.running (h : l.Stands none) (hb : l.stream.pausedBy = none) :
    l.stream.board.status = .running := by
  rcases h with h | ⟨i, h⟩ | h
  · exact h.status
  · exact absurd (h.pausedBy.symm.trans hb) nofun
  · exact h.status

/-- Only one way to rest leaves the stream in the wait. -/
theorem Stands.waits (h : l.Stands none) (hp : l.stream.phase = .awaitResponse) : l.Waits := by
  rcases h with h | ⟨i, h⟩ | h
  · exact absurd (h.phase.symm.trans hp) nofun
  · have hbound := h.bound
    rw [hp] at hbound
    rcases hbound with ⟨point, hpoint, -⟩ | ⟨hpoint, -⟩
    · cases point <;> cases hpoint
    · cases hpoint
  · exact h

/-- Whatever leaves phase, pause and status alone leaves the way to rest alone. -/
theorem Stands.keep (h : l.Stands none) (new : List (Event σ)) (hlog : l'.log = new ++ l.log)
    (hnew : ∀ e ∈ new, e.enters? = none) (hran : l'.ran = l.ran)
    (hp : l'.stream.phase = l.stream.phase) (hb : l'.stream.pausedBy = l.stream.pausedBy)
    (hs : l'.stream.board.status = l.stream.board.status)
    (hf : ∀ i, l.stream.filters.Bound l.stream.phase i →
      l'.stream.filters.Bound l.stream.phase i) : l'.Stands none := by
  rcases h with h | ⟨i, h⟩ | h
  · refine .inl ⟨hp.trans h.phase, hb.trans h.awake, hs.trans h.status, ?_, hran ▸ h.received⟩
    rw [hlog, entries_append hnew]
    exact h.entries
  · exact .inr (.inl ⟨i, hb.trans h.pausedBy, by rw [hs, h.status, hp], hp ▸ hf i h.bound⟩)
  · exact .inr (.inr ⟨hp.trans h.phase, hb.trans h.awake, hs.trans h.status⟩)

end Life

namespace FilterSet

theorem Bound.enlist {s : FilterSet σ} {p : Phase} {i : Nat} (h : s.Bound p i)
    (r : Registration σ) :
    (s.enlist r).Bound p i := by
  rcases h with ⟨point, hp, hi⟩ | ⟨hp, hi⟩
  · refine .inl ⟨point, hp, ?_⟩
    cases r with
    | request f q =>
      rw [FilterSet.enlist, List.map_append, List.getElem?_append_left]
      · exact hi
      · exact (List.getElem?_eq_some_iff.mp hi).1
    | response f q => exact hi
  · refine .inr ⟨hp, ?_⟩
    cases r with
    | request f q => exact hi
    | response f q => simpa [FilterSet.enlist] using Nat.lt_succ_of_lt hi

end FilterSet

/-! ## The steps of hale lives -/

/-- No answer publishes a status. -/
theorem Turn.status_answer {s : Stream σ} (ho : s.board.owned = true) (x : Handover) :
    (Turn.answer s x).board.status = s.board.status := by
  cases x with
  | kept => rfl
  | dropped => rfl
  | responded m => rw [Turn.answer_responded ho]; rfl
  | failed failure => exact (stirred_terminate ho _).constant.2.1

/-- **What the small steps of hale lives uphold.**  No step back leads from a stream that is
claimed, or broken off, to one that is not. -/
structure Lived.Upheld (settings : Settings) (Answers : Handover → Prop)
    (P : Option Nat → Life σ → Prop) : Prop where
  fresh : ∀ id, P none (.fresh id settings)
  add : ∀ {l}, P none l → ∀ r, P none (l.become (l.stream.enlist r))
  outside : ∀ {l b new}, P none l → b.status = l.stream.board.status → b.log = new ++ l.log →
    (∀ e ∈ new, e.isOutside = true) → P none (l.become { l.stream with board := b })
  direct : ∀ {l r new is}, P none l → r.bench.board.status = l.stream.board.status →
    ResponsePass .beforeSend 0 l.stream.filters l.stream.board r new is → ∀ m,
      P none (l.directly r m is)
  take : ∀ {l p}, l.Hale → P none l →
    (l.stream.Ignores p.job ∨ ∃ generation, p.job = .timeout generation) →
      P none { l with ran := p :: l.ran }
  opened : ∀ {l p k s}, Lived settings Answers none l → P none l → l.Due p →
    l.stream.Opens p.job k s → P (some k) { l with stream := s, ran := p :: l.ran }
  next : ∀ {k l s new is}, Lived settings Answers (some k) l → P (some k) l → l.stream.Live →
    l.stream.Traced k .next s new is → P (some 0) (l.become s.advanced)
  goto : ∀ {k l q s new is}, Lived settings Answers (some k) l → P (some k) l → l.stream.Live →
    l.stream.Traced k (.goto q) s new is → P (some 0) (l.become { s with phase := q })
  jump : ∀ {k l q s new is rest}, Lived settings Answers (some k) l → P (some k) l →
    l.stream.Live → l.stream.Traced k (.jump q) s new is → s.jumpsLeft = rest + 1 →
      P (some 0) (l.become (s.jumped q rest))
  rest : ∀ {k l s new is}, Lived settings Answers (some k) l → P (some k) l → l.stream.Live →
    l.stream.Traced k .rest s new is → s.board.claimed = false → P none (l.become s)

/-- **What the steps uphold holds of every hale life.** -/
theorem Lived.Upheld.holds {settings : Settings} {Answers : Handover → Prop}
    {P : Option Nat → Life σ → Prop} (hP : Upheld settings Answers P) {start : Option Nat}
    {l : Life σ} (h : Lived settings Answers start l) (hale : l.Hale) : P start l := by
  induction h with
  | fresh id => exact hP.fresh id
  | add h r ih => exact hP.add (ih ⟨hale.unclaimed, hale.whole⟩) r
  | stir new h hs hm hlog hnew ih =>
    exact hP.outside (ih (hale.of_suffix hs.unclaimed hm.suffix)) hs.constant.2.1 hlog hnew
  | @answer l x h hx ih =>
    obtain ⟨new, hlog, hnew, hm, heq⟩ := Turn.answer_spec l.stream x h.owned
    rw [heq]
    exact hP.outside (ih (hale.of_suffix hm.unclaimed hm.suffix)) (Turn.status_answer h.owned x)
      hlog hnew
  | direct h hp hs m ih =>
    exact hP.direct (ih (hale.of_suffix hs.unclaimed hp.moves.suffix)) hs.constant.2.1 hp m
  | finish h β ending ih => exact (hale.not_claimed (claimed_finish β ending h.owned)).elim
  | @take l p h hp hi ih =>
    have hl : l.Hale := ⟨hale.unclaimed, hale.whole⟩
    exact hP.take hl (ih hl) hi
  | release h hp hj β ih =>
    have hcondemned := h.reached.orderly.condemned_due hp hj
    exact (hale.not_claimed (claimed_release β _ h.owned hcondemned.claimed)).elim
  | opened h hp ho ih =>
    have hsuffix := ho.log.imp fun _ hnew => hnew.1.symm
    exact hP.opened h (ih (hale.of_suffix (fun _ => ho.unclaimed) hsuffix)) hp ho
  | halt h hc ih => exact (hale.not_claimed hc).elim
  | next h hl hx ih =>
    have hm := (hx.executed.moves hl).suffix
    have hl' := hale.of_suffix (fun _ => hl.unclaimed) (hm.trans (List.suffix_cons _ _))
    exact hP.next h (ih hl') hl hx
  | goto h hl hx ih =>
    have hm := (hx.executed.moves hl).suffix
    exact hP.goto h (ih (hale.of_suffix (fun _ => hl.unclaimed) hm)) hl hx
  | jump h hl hx hj ih =>
    have hm := (hx.executed.moves hl).suffix
    have hl' := hale.of_suffix (fun _ => hl.unclaimed) (hm.trans (List.suffix_cons _ _))
    exact hP.jump h (ih hl') hl hx hj
  | rest h hl hx ih =>
    have hm := (hx.executed.moves hl).suffix
    exact hP.rest h (ih (hale.of_suffix (fun _ => hl.unclaimed) hm)) hl hx hale.unclaimed
  | ended h hl hx β ih =>
    have ho := (hx.executed.moves hl).owned.trans h.owned
    exact (hale.not_claimed (claimed_finish β _ ho)).elim
  | overrun h hl hx hj β ih =>
    have ho := (hx.executed.moves hl).owned.trans h.owned
    exact (hale.not_claimed ((Reached.claimed_survive _ _).trans (claimed_finish β _ ho))).elim
  | escape h hl hx ih => exact absurd (hale.whole _ List.mem_cons_self) nofun

/-! ## Every life stands -/

theorem Stream.Readies.status {s : Stream σ} {b : Board σ} (h : s.Readies b)
    (ho : s.board.owned = true) : b.status = s.board.status := by
  cases h with
  | plain => rfl
  | closed => rfl
  | handedOver hp host f =>
    exact Turn.status_answer (s := s.entered.note (.forwarded host s.request f)) ho f.handover

namespace Lived

variable {settings : Settings} {Answers : Handover → Prop} {l : Life σ}

/-- **A job that drives a stream** publishes that it is at work, or found it so. -/
theorem stands_opened (h : Lived settings Answers none l) (hs : l.Stands none) {p : Posting}
    {k : Nat} {s : Stream σ} (ho : l.stream.Opens p.job k s) :
    Life.Stands (some k) { l with stream := s, ran := p :: l.ran } := by
  generalize p.job = job at ho
  cases ho with
  | receive hc hp => exact hs.running (h.reached.poised.awake (by rw [hp]; rfl))
  | resume => rfl
  | reroute => rfl
  | response hc hp => exact hs.running (h.reached.poised.awake (by rw [hp]; rfl))

/-- A phase that leads on publishes nothing. -/
theorem status_of_leads {k : Nat} (h : Lived settings Answers (some k) l) {step : Step}
    {s : Stream σ} {new is} (hx : l.stream.Traced k step s new is) (hrest : step ≠ .rest) :
    s.board.status = l.stream.board.status := by
  cases hx.sequel with
  | next hb hs => exact hs.constant.2.1.trans (hb.status h.owned)
  | reply hb hs hr hboard => rw [hboard]; exact hs.constant.2.1.trans (hb.status h.owned)
  | jump hb hs hboard => rw [hboard]; exact hs.constant.2.1.trans (hb.status h.owned)
  | pause => exact absurd rfl hrest
  | rest => exact absurd rfl hrest
  | finish hb hs => exact hs.constant.2.1.trans (hb.status h.owned)
  | escape hb hs => exact hs.constant.2.1.trans (hb.status h.owned)

/-- **A phase that leads nowhere** pauses the stream, or waits. -/
theorem stands_rest {k : Nat} (h : Lived settings Answers (some k) l) (hs : l.Stands (some k))
    {s : Stream σ} {new is} (hx : l.stream.Traced k .rest s new is)
    (hc : s.board.claimed = false) : (l.become s).Stands none := by
  have hphase : s.phase = l.stream.phase := hx.executed.phase
  have hawake := h.reached.poised.2
  cases hx.sequel with
  | @pause _ _ _ i hb hs hn hboard hi =>
    refine .inr (.inl ⟨i, hi, ?_, ?_⟩)
    · rw [become_stream, hphase]
      exact hboard.constant.2.1
    · cases hx.executed with
      | @pause _ _ _ n hw hside hlast hpaused =>
        obtain rfl : n = i := Option.some.inj (hpaused.symm.trans hi)
        rw [become_stream, hphase]
        exact hw.fixed.bound_iff.mpr (hw.bound n hlast.1).2
      | rest hw ha => rw [ha.pausedBy, entered_pausedBy, hawake] at hi; cases hi
  | rest hb hstir hi hwhy =>
    rcases hwhy with hp | hclaimed
    · exact .inr (.inr ⟨hphase.trans hp, hi.trans hawake,
        hstir.constant.2.1.trans ((hb.status h.owned).trans hs)⟩)
    · rw [hc] at hclaimed
      cases hclaimed

/-- A hale life stands after each step, as it stood before. -/
theorem upheld_stands : Upheld settings Answers (Life.Stands (σ := σ)) where
  fresh id := .inl ⟨rfl, rfl, rfl, rfl, by simp [Life.fresh]⟩
  add hs r := hs.keep [] rfl (by simp) rfl rfl rfl rfl fun i hi => hi.enlist r
  outside hs hstatus hlog hnew :=
    hs.keep _ hlog (fun e he => (Event.tame_of_isOutside (hnew e he)).enters) rfl rfl rfl hstatus
      fun _ => id
  direct hs hstatus hp m := by
    exact hs.keep _ hp.log (fun e he => (Event.tame_of_pass (hp.kinds e he)).enters) rfl rfl rfl
      hstatus fun i hi => hp.fixed.bound_iff.mpr hi
  take hale hs hi := by
    rcases hs with hs | ⟨i, hs⟩ | hs
    · refine .inl { hs with received := List.forall_mem_cons.mpr ⟨fun m hm => ?_, hs.received⟩ }
      rcases hi with hi | ⟨generation, hi⟩
      · rw [hm] at hi
        rcases hi with hi | hi
        · exact hale.not_claimed hi
        · exact hi hs.phase
      · cases hm.symm.trans hi
    · exact .inr (.inl ⟨i, hs.pausedBy, hs.status, hs.bound⟩)
    · exact .inr (.inr ⟨hs.phase, hs.awake, hs.status⟩)
  opened h hs _ ho := h.stands_opened hs ho
  next h hs _ hx := (h.status_of_leads hx nofun).trans hs
  goto h hs _ hx := (h.status_of_leads hx nofun).trans hs
  jump h hs _ hx _ := (h.status_of_leads hx nofun).trans hs
  rest h hs _ hx hc := h.stands_rest hs hx hc

/-- **Every hale life stands in one of the ways there are.** -/
theorem stands {start : Option Nat} (h : Lived settings Answers start l) (hale : l.Hale) :
    l.Stands start :=
  upheld_stands.holds h hale

/-- **A stream that is neither claimed nor paused was published to be at work.** -/
theorem running {start : Option Nat} (h : Lived settings Answers start l)
    (hc : l.stream.board.claimed = false) (hb : l.stream.pausedBy = none) :
      l.stream.board.status = .running := by
  have ended {P : Prop} {b : Bool} (hc : b = false) (hc' : b = true) : P := by
    rw [hc] at hc'
    cases hc'
  induction h with
  | fresh id => rfl
  | add h r ih => exact ih hc hb
  | stir new h hs hm hlog hnew ih => exact hs.constant.2.1.trans (ih (hs.unclaimed hc) hb)
  | @answer l x h hx ih =>
    obtain ⟨new, -, -, hm, heq⟩ := Turn.answer_spec l.stream x h.owned
    rw [heq] at hb
    exact (Turn.status_answer h.owned x).trans (ih (hm.unclaimed hc) hb)
  | direct h hp hs m ih => exact hs.constant.2.1.trans (ih (hs.unclaimed hc) hb)
  | finish h β ending ih => exact ended hc (claimed_finish β ending h.owned)
  | take h hp hi ih => exact ih hc hb
  | release h hp hj β ih =>
    exact ended hc (claimed_release β _ h.owned (h.reached.orderly.condemned_due hp hj).claimed)
  | @opened l p k s h hp ho ih =>
    generalize p.job = job at ho
    cases ho with
    | receive hc hp => exact ih hc (h.reached.poised.awake (by rw [hp]; rfl))
    | resume => rfl
    | reroute => rfl
    | response hc hp => exact ih hc (h.reached.poised.awake (by rw [hp]; rfl))
  | halt h hc' ih => exact ended hc hc'
  | next h hl hx ih => exact (h.status_of_leads hx nofun).trans (ih hl.unclaimed h.reached.poised.2)
  | goto h hl hx ih => exact (h.status_of_leads hx nofun).trans (ih hl.unclaimed h.reached.poised.2)
  | jump h hl hx hj ih =>
    exact (h.status_of_leads hx nofun).trans (ih hl.unclaimed h.reached.poised.2)
  | rest h hl hx ih =>
    cases hx.sequel with
    | pause _ _ _ _ hi => exact absurd (hi.symm.trans hb) nofun
    | rest hready hs hi hwhy =>
      exact hs.constant.2.1.trans
        ((hready.status h.owned).trans (ih hl.unclaimed h.reached.poised.2))
  | ended h hl hx β ih =>
    exact ended hc (claimed_finish β _ ((hx.executed.moves hl).owned.trans h.owned))
  | overrun h hl hx hj β ih =>
    exact ended hc ((Reached.claimed_survive _ _).trans
      (claimed_finish β _ ((hx.executed.moves hl).owned.trans h.owned)))
  | escape h hl hx ih =>
    exact (h.status_of_leads hx nofun).trans (ih hl.unclaimed h.reached.poised.2)

end Lived

end FilterProxy

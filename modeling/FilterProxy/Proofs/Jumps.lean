import Mathlib.Algebra.Group.Nat.Defs
import FilterProxy.Proofs.Lived
import FilterProxy.Proofs.Rations
import FilterProxy.Proofs.Silence

/-!
# Proofs/Jumps — the budget of jumps

A jump spends one of those that are left, and grants the wish of a pass.  So **the wish that finds
none left comes after as many as were allowed**, and it ends the stream on the spot
(`Lived.budgeted`).  A counter of the jumps made, in 32 bits, comes to the same until it is full
(`exceeds_iff`): what is said of a stream under any settings is said of it until then, and that is
for ever unless 2 ^ 32 - 1 jumps are allowed.
-/

namespace FilterProxy

variable {σ ε : Type}

open Board FilterSet FilterProxy.Stream Life

/-! ## Wishes and the jumps left -/

/-- The part `newer` of the log followed upon a wish that found no jump left, and nobody had claimed
the stream. -/
def Overdue (m : Nat) (newer log : List (Event σ)) : Prop :=
  ∃ point q older, log = newer ++ .passed point (.ok (.resumeAt q)) :: older ∧ claims older = [] ∧
    wishes older = m

namespace Overdue

variable {m : Nat} {newer new log : List (Event σ)}

/-- A wish that is not among the events added was there before. -/
theorem of_append (h : Overdue m newer (new ++ log)) (hnew : ∀ e ∈ new, e.isWish = false) :
    ∃ newer', newer = new ++ newer' ∧ Overdue m newer' log := by
  obtain ⟨point, q, older, hlog, hrest⟩ := h
  obtain ⟨newer', rfl, hlog'⟩ := exists_of_append_eq hlog fun hmem => nomatch hnew _ hmem
  exact ⟨newer', rfl, point, q, older, hlog', hrest⟩

/-- The wish is the one made last, or it was there before. -/
theorem of_wish {point : RequestPoint} {q : Phase}
    (h : Overdue m newer (.passed point (.ok (.resumeAt q)) :: log)) :
    newer = [] ∧ claims log = [] ∧ wishes log = m ∨ ∃ newer', Overdue m newer' log := by
  obtain ⟨point', q', older, hsplit, hrest⟩ := h
  cases newer with
  | nil =>
    obtain ⟨-, rfl⟩ := List.cons.inj hsplit
    exact .inl ⟨rfl, hrest⟩
  | cons f newer => exact .inr ⟨newer, point', q', older, (List.cons.inj hsplit).2, hrest⟩

end Overdue

/-- **What becomes of a stream whose filters wished to go back once too often.** -/
structure Life.Overran (newer : List (Event σ)) (l : Life σ) : Prop where
  claimed : ∃ more, newer = more ++ [.claimed .tooManyJumps]
  done : l.stream.phase = .done
  status : (∀ p, .escaped p ∉ l.log) → l.stream.board.status = .finished .tooManyJumps

/-- **The budget of jumps**: what is left of it, that every wish was granted so far, and what a wish
comes to for which nothing is left. -/
structure Life.Budgeted (m : Nat) (start : Option Nat) (l : Life σ) : Prop where
  left : jumps l.log + l.stream.jumpsLeft = m
  granted : l.stream.board.claimed = false → wishes l.log = jumps l.log
  overdue : ∀ newer, Overdue m newer l.log → start = none ∧ l.Overran newer

/-! ### The wish of a phase -/

theorem Board.Stirred.wishes {b b' : Board σ} (h : Stirred b b') :
    FilterProxy.wishes b'.log = FilterProxy.wishes b.log := by
  refine h.keeps (K := fun b' => FilterProxy.wishes b'.log = FilterProxy.wishes b.log)
    (fun b₁ b₂ hs hb => ?_) rfl
  rw [← hb]
  cases hs with
  | edit => rfl
  | raise code headers => unfold Board.raise; split <;> rfl
  | claim ending =>
    cases hc : b₁.claimed with
    | true => rw [claim_of_claimed hc]
    | false =>
      rw [claim_of_unclaimed hc]
      refine wishes_append _ fun e he => ?_
      rcases mem_claimEvents he with rfl | rfl | rfl <;> rfl
  | @note e he => exact List.countP_cons_of_neg (by simp [Event.isWish_of_isNote he])

namespace Stream

variable {k : Nat} {s s' : Stream σ} {step : Step} {new : List (Event σ)} {is : List Nat}

theorem Readies.wishes {b : Board σ} (h : s.Readies b) (ho : s.board.owned = true) :
    FilterProxy.wishes b.log = FilterProxy.wishes s.board.log := by
  cases h with
  | plain => rfl
  | closed => rfl
  | handedOver hp host f =>
    obtain ⟨new, hlog, hnew, -⟩ :=
      Turn.answer_spec (s.entered.note (.forwarded host s.request f)) f.handover ho
    refine (congrArg FilterProxy.wishes hlog).trans ?_
    exact wishes_append _ fun e he => (Event.idle_of_isOutside (hnew e he)).wish

theorem not_wish_of_wishes (log : List (Event σ))
    (h : FilterProxy.wishes (new ++ log) = FilterProxy.wishes log) :
    ∀ e ∈ new, e.isWish = false := by
  have hzero : new.countP Event.isWish = 0 := by
    rw [FilterProxy.wishes, List.countP_append] at h
    change _ + FilterProxy.wishes log = _ at h
    omega
  exact fun e he => by simpa using List.countP_eq_zero.mp hzero e he

/-- **No phase makes a wish** but one that jumps. -/
theorem Traced.not_wish (h : s.Traced k step s' new is) (ho : s.board.owned = true)
    (hstep : ∀ q, step ≠ .jump q) : ∀ e ∈ new ++ [.entered s.phase], e.isWish = false := by
  refine not_wish_of_wishes s.board.log ?_
  rw [← h.executed.log]
  have hsequel := h.sequel
  cases hsequel with
  | next hb hs => exact hs.wishes.trans (hb.wishes ho)
  | reply hb hs hr hboard => rw [hboard]; exact hs.wishes.trans (hb.wishes ho)
  | jump => exact absurd rfl (hstep _)
  | pause hb hs hc hboard => exact hboard.wishes.trans (hs.wishes.trans (hb.wishes ho))
  | rest hb hs => exact hs.wishes.trans (hb.wishes ho)
  | finish hb hs => exact hs.wishes.trans (hb.wishes ho)
  | escape hb hs => exact hs.wishes.trans (hb.wishes ho)

/-- **A phase that jumps makes one wish**, at its end. -/
theorem Traced.wish {q : Phase} (h : s.Traced k (.jump q) s' new is) (ho : s.board.owned = true) :
    ∃ point new', s'.board.log = .passed point (.ok (.resumeAt q)) :: (new' ++ s.board.log) ∧
      ∀ e ∈ new', e.isWish = false := by
  have hlog := h.executed.log
  cases h.sequel with
  | @jump b b' _ _ point hb hs hboard =>
    have hwishes : FilterProxy.wishes b'.log = FilterProxy.wishes s.board.log :=
      hs.wishes.trans (hb.wishes ho)
    rw [hboard] at hlog
    cases new with
    | nil => cases (List.cons.inj hlog).1
    | cons e new =>
      obtain ⟨-, hb'⟩ := List.cons.inj hlog
      have hb' : b'.log = (new ++ [.entered s.phase]) ++ s.board.log := hb'
      refine ⟨point, new ++ [.entered s.phase], ?_, not_wish_of_wishes _ (hb' ▸ hwishes)⟩
      rw [hboard, ← hb']
      rfl

/-- The claim comes first among its events. -/
theorem exists_claimEvents (ending : Ending) :
    ∃ more : List (Event σ), claimEvents ending = more ++ [.claimed ending] := by
  unfold claimEvents
  split
  · exact ⟨[.stat .cleaned, .stat (.terminated ending)], rfl⟩
  · exact ⟨[.stat .cleaned], rfl⟩

/-- **What the first claim leaves behind**, the panic of a farewell noted. -/
theorem finish_first {s : Stream σ} (β : Behaviour σ) (ending : Ending)
    (hc : s.board.claimed = false) (ho : s.board.owned = true) :
    let s' := survive (s.finish β ending).1 (s.finish β ending).2
    (∃ more, s'.board.log = (more ++ [.claimed ending]) ++ s.board.log ∧ ∀ e ∈ more, e.Idle) ∧
      s'.phase = .done ∧ s'.jumpsLeft = s.jumpsLeft ∧
      ((∀ p, .escaped p ∉ s'.board.log) → s'.board.status = .finished ending) := by
  have ho' : (s.board.claim ending).2.owned = true := (Move.claim _ _).owned.trans ho
  obtain ⟨new, hlog, hnew⟩ := release_log β ending { s with board := (s.board.claim ending).2 } ho'
  have hfirst := finish_of_unclaimed β hc ending
  generalize s.finish β ending = r at hfirst
  subst hfirst
  obtain ⟨noted, hnoted, houtside⟩ := Reached.survive_log
    (release β ending { s with board := (s.board.claim ending).2 }).1
    (release β ending { s with board := (s.board.claim ending).2 }).2
  obtain ⟨pre, hpre⟩ := exists_claimEvents (σ := σ) ending
  refine ⟨⟨noted ++ (new ++ pre), ?_, fun e he => ?_⟩, ?_⟩
  · rw [hnoted, hlog, claim_of_unclaimed hc]
    simp only [hpre, List.append_assoc]
  · rcases List.mem_append.mp he with he | he
    · exact Event.idle_of_isOutside (houtside e he)
    rcases List.mem_append.mp he with he | he
    · exact Event.idle_of_isEnding (hnew e he)
    · have hmem : e ∈ claimEvents ending := hpre ▸ List.mem_append_left _ he
      rcases mem_claimEvents hmem with rfl | rfl | rfl <;> exact Event.idle_of_isIdle rfl
  · rw [release_eq]
    cases (s.filters.destroy β (s.board.claim ending).2).1 with
    | some p => exact ⟨rfl, rfl, fun h => absurd List.mem_cons_self (h p)⟩
    | none => exact ⟨rfl, rfl, fun _ => rfl⟩

theorem finish_jumpsLeft (β : Behaviour σ) (ending : Ending) (s : Stream σ) :
    (s.finish β ending).2.jumpsLeft = s.jumpsLeft := by
  cases hc : s.board.claimed with
  | true => rw [finish_of_claimed β hc]
  | false => rw [finish_of_unclaimed β hc, release_eq]; rfl

end Stream

/-! ### The budget of a life -/

namespace Life.Budgeted

variable {m : Nat} {start start' : Option Nat} {l l' : Life σ}

/-- **Idle events** cost nothing. -/
theorem keep (h : l.Budgeted m none) (new : List (Event σ)) (hlog : l'.log = new ++ l.log)
    (hnew : ∀ e ∈ new, e.Idle) (hj : l'.stream.jumpsLeft = l.stream.jumpsLeft)
    (hc : l'.stream.board.claimed = false → l.stream.board.claimed = false)
    (hd : l.stream.phase = .done → l'.stream.phase = .done ∧
      l'.stream.board.status = l.stream.board.status) : l'.Budgeted m none where
  left := by
    rw [hlog, jumps_append _ fun e he => (hnew e he).jump, hj]
    exact h.left
  granted hc' := by
    rw [hlog, jumps_append _ fun e he => (hnew e he).jump,
      wishes_append _ fun e he => (hnew e he).wish]
    exact h.granted (hc hc')
  overdue newer hover := by
    rw [hlog] at hover
    obtain ⟨newer', rfl, hover'⟩ := hover.of_append fun e he => (hnew e he).wish
    obtain ⟨-, ⟨more, rfl⟩, hdone, hstatus⟩ := h.overdue newer' hover'
    obtain ⟨hdone', hstatus'⟩ := hd hdone
    refine ⟨rfl, ⟨new ++ more, by rw [List.append_assoc]⟩, hdone', fun hescaped => ?_⟩
    refine hstatus'.trans (hstatus fun p hp => hescaped p ?_)
    rw [hlog]
    exact List.mem_append_right _ hp

/-- **A stream that nobody claimed** never wished too much. -/
theorem onward (h : l.Budgeted m start) (hc : l.stream.board.claimed = false)
    (hd : l.stream.phase ≠ .done) (new : List (Event σ)) (hlog : l'.log = new ++ l.log)
    (hnew : ∀ e ∈ new, e.isWish = false) (hjumps : jumps l'.log = jumps l.log)
    (hj : l'.stream.jumpsLeft = l.stream.jumpsLeft) : l'.Budgeted m start' where
  left := by rw [hjumps, hj]; exact h.left
  granted _ := by
    rw [hjumps, ← h.granted hc, hlog]
    exact wishes_append _ hnew
  overdue newer hover := by
    obtain ⟨newer, -, hover⟩ := (hlog ▸ hover).of_append hnew
    exact absurd (h.overdue newer hover).2.done hd

variable {k : Nat} {s : Stream σ} {step : Step} {new : List (Event σ)} {is : List Nat}

/-- A stream at work has made no wish too many. -/
theorem not_overdue (h : l.Budgeted m (some k)) (hnew : ∀ e ∈ new, e.isWish = false)
    {newer : List (Event σ)} : ¬ Overdue m newer (new ++ l.log) := fun hover => by
  obtain ⟨newer', -, hover'⟩ := hover.of_append hnew
  exact absurd (h.overdue newer' hover').1 nofun

/-- **A phase that does not jump** costs nothing. -/
theorem executed (h : l.Budgeted m (some k)) (hl : l.stream.Live)
    (ho : l.stream.board.owned = true) (hx : l.stream.Traced k step s new is)
    (hstep : ∀ q, step ≠ .jump q) (more : List (Event σ)) (hlog : l'.log = more ++ s.board.log)
    (hmore : ∀ e ∈ more, e.Idle) (hj : l'.stream.jumpsLeft = s.jumpsLeft) :
    l'.Budgeted m start' := by
  have hx' := hx.executed
  refine h.onward hl.unclaimed hl.notDone (more ++ (new ++ [.entered l.stream.phase])) ?_ ?_ ?_ ?_
  · rw [hlog, hx'.log, ← List.append_assoc]
    rfl
  · intro e he
    rcases List.mem_append.mp he with he | he
    · exact (hmore e he).wish
    · exact hx.not_wish ho hstep e he
  · rw [hlog, jumps_append _ fun e he => (hmore e he).jump]
    exact hx'.jumps
  · exact hj.trans hx'.worked.jumpsLeft

/-- **A jump** costs one of those left, and grants the wish. -/
theorem jump (h : l.Budgeted m (some k)) (hl : l.stream.Live) (ho : l.stream.board.owned = true)
    {q : Phase} {rest : Nat} (hx : l.stream.Traced k (.jump q) s new is)
    (hj : s.jumpsLeft = rest + 1) : (l.become (s.jumped q rest)).Budgeted m (some 0) := by
  obtain ⟨point, new', hlog, hnew⟩ := hx.wish ho
  have hleft := h.left
  have hgranted := h.granted hl.unclaimed
  have hjumpsLeft : l.stream.jumpsLeft = rest + 1 := hx.executed.worked.jumpsLeft.symm.trans hj
  have hjumps : jumps (.jumped q :: s.board.log) = jumps l.log + 1 :=
    List.countP_cons.trans (congrArg (· + 1) hx.executed.jumps)
  have hwishes : wishes (new' ++ l.stream.board.log) = wishes l.log := wishes_append _ hnew
  refine ⟨?_, fun _ => ?_, fun newer hover => ?_⟩
  · rw [become_log, become_stream]
    change jumps (.jumped q :: s.board.log) + rest = m
    omega
  · change wishes (.jumped q :: s.board.log) = jumps (.jumped q :: s.board.log)
    rw [hjumps, ← hgranted, ← hwishes, hlog, wishes,
      List.countP_cons_of_neg (by simp [Event.isWish]),
      List.countP_cons_of_pos rfl]
    rfl
  · have hover : Overdue m newer ([.jumped q] ++ s.board.log) := hover
    obtain ⟨newer', -, hover'⟩ := hover.of_append (by simp [Event.isWish])
    rw [hlog] at hover'
    rcases hover'.of_wish with ⟨-, -, hm⟩ | ⟨newer', hover'⟩
    · omega
    · exact absurd hover' (h.not_overdue hnew)

/-- **Somebody else ended the stream** during the pass that made the wish. -/
theorem overrun_of_claimed (h : l.Budgeted m (some k)) (hl : l.stream.Live)
    (hb : l.stream.board.Books) {q : Phase} (hx : l.stream.Traced k (.jump q) s new is)
    (hc : s.board.claimed = true) : (l.become s).Budgeted m none := by
  obtain ⟨point, new', hlog, hnew⟩ := hx.wish hb.owned
  have hjumps : jumps s.board.log = jumps l.log := hx.executed.jumps
  have hjumpsLeft : s.jumpsLeft = l.stream.jumpsLeft := hx.executed.worked.jumpsLeft
  refine ⟨?_, fun hc' => ?_, fun newer hover => ?_⟩
  · rw [become_log, become_stream, hjumps, hjumpsLeft]
    exact h.left
  · exact absurd (hc'.symm.trans hc) nofun
  · rw [become_log, hlog] at hover
    rcases hover.of_wish with ⟨-, hclaims, -⟩ | ⟨newer, hover⟩
    · obtain ⟨e, he⟩ := ((hx.executed.moves hl).books hb).claimed hc
      rw [hlog] at he
      exact absurd (hclaims.symm.trans he) nofun
    · exact absurd hover (h.not_overdue hnew)

/-- **A wish that finds no jump left** ends the stream. -/
theorem overrun_of_unclaimed (h : l.Budgeted m (some k)) (hl : l.stream.Live)
    (hb : l.stream.board.Books) {q : Phase} (hx : l.stream.Traced k (.jump q) s new is)
    (hc : s.board.claimed = false) (β : Behaviour σ) :
    (l.become (survive (s.finish β .tooManyJumps).1 (s.finish β .tooManyJumps).2)).Budgeted m
      none := by
  obtain ⟨point, new', hlog, hnew⟩ := hx.wish hb.owned
  have hjumps : jumps s.board.log = jumps l.log := hx.executed.jumps
  have hjumpsLeft : s.jumpsLeft = l.stream.jumpsLeft := hx.executed.worked.jumpsLeft
  have ho := (hx.executed.moves hl).owned.trans hb.owned
  obtain ⟨⟨more, hmore, hidle⟩, hdone, hj, hstatus⟩ := finish_first β .tooManyJumps hc ho
  have hclaimed := (Reached.claimed_survive (s.finish β .tooManyJumps).1 _).trans
    (claimed_finish β .tooManyJumps ho)
  generalize survive (s.finish β .tooManyJumps).1 (s.finish β .tooManyJumps).2 = s' at *
  have hidle : ∀ e ∈ more ++ [.claimed .tooManyJumps], e.Idle := fun e he => by
    rcases List.mem_append.mp he with he | he
    · exact hidle e he
    · obtain rfl := List.mem_singleton.mp he
      exact Event.idle_of_isIdle rfl
  refine ⟨?_, fun hc' => ?_, fun newer hover => ?_⟩
  · rw [become_log, hmore, jumps_append _ fun e he => (hidle e he).jump]
    rw [become_stream, hj, hjumps, hjumpsLeft]
    exact h.left
  · exact absurd (hc'.symm.trans hclaimed) nofun
  · rw [become_log, hmore, hlog] at hover
    obtain ⟨newer', rfl, hover'⟩ := hover.of_append fun e he => (hidle e he).wish
    rcases hover'.of_wish with ⟨rfl, -, -⟩ | ⟨newer'', hover''⟩
    · exact ⟨rfl, ⟨more, List.append_nil _⟩, hdone, hstatus⟩
    · exact absurd hover'' (h.not_overdue hnew)

end Life.Budgeted

/-- **Every life keeps to its budget of jumps.** -/
theorem Lived.budgeted {settings : Settings} {Answers : Handover → Prop} {start : Option Nat}
    {l : Life σ} (h : Lived settings Answers start l) :
    l.Budgeted settings.maxJumps.toNat start := by
  induction h with
  | fresh id =>
    refine ⟨Nat.zero_add _, fun _ => rfl, fun newer hover => ?_⟩
    obtain ⟨point, q, older, hlog, -⟩ := hover
    cases newer <;> simp [Life.fresh, Stream.create, Life.log] at hlog
  | add h r ih => exact ih.keep [] rfl (by simp) rfl id fun hd => ⟨hd, rfl⟩
  | stir new h hs hm hlog hnew ih =>
    refine ih.keep new hlog (fun e he => Event.idle_of_isOutside (hnew e he)) rfl hs.unclaimed
      fun hd => ⟨hd, hs.constant.2.1⟩
  | @answer l x h hx ih =>
    obtain ⟨new, hlog, hnew, hm, heq⟩ := Turn.answer_spec l.stream x h.owned
    refine ih.keep new hlog (fun e he => Event.idle_of_isOutside (hnew e he)) ?_ hm.unclaimed
      fun hd => ⟨?_, (hm.frozen (h.reached.orderly.released hd).1).status⟩
    · rw [become_stream, heq]
    · rw [become_stream, heq]; exact hd
  | direct h hp hs m ih =>
    exact ih.keep _ hp.log (fun e he => Event.idle_of_pass (hp.kinds e he)) rfl hs.unclaimed
      fun hd => ⟨hd, hs.constant.2.1⟩
  | @finish l h β ending ih =>
    obtain ⟨new, hlog, hnew⟩ := finish_log β ending l.stream h.owned
    refine ih.keep new hlog (fun e he => Event.idle_of_isEnding (hnew e he))
      (finish_jumpsLeft β ending l.stream) (fun hc => ?_) fun hd => ?_
    · exact absurd (hc.symm.trans (claimed_finish β ending h.owned)) Bool.false_ne_true
    · rw [become_stream, finish_of_claimed β (h.reached.orderly.released hd).1]
      exact ⟨hd, rfl⟩
  | take h hp hi ih => exact ih.keep [] rfl (by simp) rfl id fun hd => ⟨hd, rfl⟩
  | @release l p ending h hp hj β ih =>
    have hcondemned := h.reached.orderly.condemned_due hp hj
    obtain ⟨new, hlog, hnew⟩ := release_log β ending l.stream h.owned
    refine ih.keep new hlog (fun e he => Event.idle_of_isEnding (hnew e he)) ?_ (fun hc => ?_)
      fun hd => absurd hp ((h.reached.orderly.released hd).2 p ending hj)
    · rw [release_eq]; rfl
    · exact absurd (hc.symm.trans (claimed_release β ending h.owned hcondemned.claimed))
        Bool.false_ne_true
  | @opened l p k s h hp ho ih =>
    have hd := h.reached.orderly.not_done ho.unclaimed
    generalize p.job = job at ho
    cases ho with
    | receive hc => exact ih.onward hc hd [] rfl (by simp) rfl rfl
    | resume hc => exact ih.onward hc hd [.published .running] rfl (by simp [Event.isWish]) rfl rfl
    | reroute hc => exact ih.onward hc hd [.published .running] rfl (by simp [Event.isWish]) rfl rfl
    | response hc =>
      exact ih.onward hc hd [.stat (.phaseCompleted .awaitResponse)] rfl (by simp [Event.isWish])
        rfl rfl
  | halt h hc ih =>
    refine ⟨ih.left, ih.granted, fun newer hover =>
      absurd (ih.overdue newer hover).1 (Option.some_ne_none _)⟩
  | next h hl hx ih =>
    exact ih.executed hl h.owned hx (by simp) [_] rfl (by simpa using Event.idle_of_isIdle rfl) rfl
  | goto h hl hx ih => exact ih.executed hl h.owned hx (by simp) [] rfl (by simp) rfl
  | jump h hl hx hj ih => exact ih.jump hl h.owned hx hj
  | rest h hl hx ih => exact ih.executed hl h.owned hx (by simp) [] rfl (by simp) rfl
  | @ended k l s new is ending h hl hx β ih =>
    obtain ⟨more, hlog, hmore⟩ := finish_log β ending s ((hx.executed.moves hl).owned.trans h.owned)
    exact ih.executed hl h.owned hx (by simp) more hlog
      (fun e he => Event.idle_of_isEnding (hmore e he)) (finish_jumpsLeft β ending s)
  | @overrun k l q s new is h hl hx hj β ih =>
    have hb := h.reached.orderly.books
    cases hc : s.board.claimed with
    | true =>
      rw [finish_of_claimed β hc]
      exact ih.overrun_of_claimed hl hb hx hc
    | false => exact ih.overrun_of_unclaimed hl hb hx hc β
  | escape h hl hx ih =>
    exact ih.executed hl h.owned hx (by simp) [_] rfl (by simpa using Event.idle_of_isIdle rfl) rfl

/-- **The wish made once too often is the last thing that has an effect**: it claims the stream, and
what follows a claim is hushed. -/
theorem Life.Overran.hushed {l : Life σ} {m : Nat} {newer : List (Event σ)} (h : l.Overran newer)
    (hl : Reached none l) (hover : Overdue m newer l.log) :
    (∀ e ∈ newer, e.isEffect = false) ∧ claims l.log = [.tooManyJumps] := by
  obtain ⟨point, q, older, hlog, -⟩ := hover
  obtain ⟨more, rfl⟩ := h.claimed
  have hclaims (log : List (Event σ)) : .tooManyJumps ∈ claims (.claimed .tooManyJumps :: log) :=
    List.mem_cons_self
  refine ⟨fun e he => ?_, ?_⟩
  · rcases List.mem_append.mp he with he | he
    · obtain ⟨latest, between, rfl⟩ := List.append_of_mem he
      refine (hl.hushed latest e (between ++ .claimed .tooManyJumps ::
        .passed point (.ok (.resumeAt q)) :: older) ?_).effect ?_
      · rw [show l.log = _ from hlog]
        simp only [List.append_assoc, List.cons_append, List.nil_append]
      · refine List.ne_nil_of_mem (a := .tooManyJumps) ?_
        rw [claims, List.filterMap_append]
        exact List.mem_append_right _ (hclaims _)
    · obtain rfl := List.mem_singleton.mp he
      rfl
  · have hmem : .tooManyJumps ∈ claims l.log := by
      rw [hlog, List.append_assoc, claims, List.filterMap_append]
      exact List.mem_append_right _ (hclaims _)
    obtain ⟨r, hr⟩ := hl.orderly.books.claimed (hl.orderly.released h.done).1
    rw [show claims l.log = _ from hr] at hmem ⊢
    rw [List.mem_singleton.mp hmem]

/-- **Counted up in 32 bits**, the next jump exceeds the allowance exactly when none is left, until
the counter is full. -/
theorem exceeds_iff {allowed : UInt32} {spent left : Nat} (hleft : spent + left = allowed.toNat)
    (h : spent < 2 ^ 32 - 1) : allowed < UInt32.ofNat spent + 1 ↔ left = 0 := by
  have hnext : (UInt32.ofNat spent + 1).toNat = spent + 1 := by
    rw [UInt32.toNat_add, UInt32.toNat_ofNat]
    change (spent % 2 ^ 32 + 1) % 2 ^ 32 = _
    omega
  rw [UInt32.lt_iff_toNat_lt, hnext]
  omega

open Event Life in
/-- **Everything is bounded by the jumps allowed.**  Every drive ends.  A stream jumps no more often
than it may; counted up in 32 bits, the next jump exceeds the allowance exactly when none is left.
The wish of a live stream that finds none left ends it as such, and nothing is called any more.  So
the router, the cluster manager and each request filter are called once more at most than jumps are
allowed. -/
theorem bounded_by_jumps (id : StreamId) (settings : Settings) (deeds : List (Deed σ ε))
    (hm : settings.maxJumps.toNat < 2 ^ 32 - 1) :
    let l := after id settings deeds
    (∀ (c : Surroundings σ ε) k t, t.stream.board.owned = true →
      Turn.Drives c (k, t) (t.drive c k)) ∧
    jumps l.log ≤ settings.maxJumps.toNat ∧
    (settings.maxJumps < UInt32.ofNat (jumps l.log) + 1 ↔ l.stream.jumpsLeft = 0) ∧
    (∀ newer, Overdue settings.maxJumps.toNat newer l.log →
      (∃ more, newer = more ++ [.claimed .tooManyJumps]) ∧ (∀ e ∈ newer, e.isEffect = false) ∧
        claims l.log = [.tooManyJumps] ∧ l.stream.phase = .done ∧
        ((∀ p, .escaped p ∉ l.log) → l.stream.board.status = .finished .tooManyJumps)) ∧
    ∀ ρ, uses ρ l.log ≤ settings.maxJumps.toNat + 1 := by
  intro l
  have h := lived_after id settings deeds
  have hbudget := h.budgeted
  have hleft : jumps l.log + l.stream.jumpsLeft = settings.maxJumps.toNat := hbudget.left
  refine ⟨fun c k t => Turn.drives_drive c k t, by omega, exceeds_iff hleft (by omega),
    fun newer hover => ?_, fun ρ => ?_⟩
  · have hoverran := (hbudget.overdue newer hover).2
    obtain ⟨hsilent, hclaims⟩ := hoverran.hushed h.reached hover
    exact ⟨hoverran.claimed, hsilent, hclaims, hoverran.done, hoverran.status⟩
  · have hbound := h.reached.rationed.bound ρ
    change uses ρ l.log ≤ jumps l.log + 1 at hbound
    omega

/-! ## A filter that never has enough -/

/-- A filter asks for another route whenever it is called. -/
def rematching : Behaviour Unit :=
  { passing with onRequest := fun _ _ parts => .done ⟨(), parts, .ok .rematch⟩ }

/-- It is called once the route is known, and there is always a route. -/
def rematchForever : List (Deed Unit Unit) :=
  [.add rematching (.request () .afterRoute), .receive {},
    .run ⟨.receive {}, false⟩
      { Surroundings.secluded rematching with routing := ⟨some fun _ => .ok (some default)⟩ } ()]

/-- It gets its one jump, and another call, and that is all. -/
theorem bounded_by_jumps_rematchForever :
    let settings : Settings := { maxJumps := 1 }
    let l := after ⟨1⟩ settings rematchForever
    settings.maxJumps.toNat < 2 ^ 32 - 1 ∧ wishes l.log = 2 ∧ jumps l.log = 1 ∧
      uses (.filter 0) l.log = 2 ∧ claims l.log = [.tooManyJumps] ∧
      ∀ ρ, uses ρ l.log ≤ 2 := by
  intro settings l
  have hm : settings.maxJumps.toNat < 2 ^ 32 - 1 := by decide
  obtain ⟨-, -, -, -, huses⟩ := bounded_by_jumps ⟨1⟩ settings rematchForever hm
  exact ⟨hm, by decide +kernel, by decide +kernel, by decide +kernel, by decide +kernel, huses⟩

end FilterProxy

import FilterProxy.Proofs.Unread
import FilterProxy.Proofs.Watchdog

/-!
# Proofs/Lag — a life that is one pause behind another

Two lives of one stream may differ by a pause that is over: the later one has some more behind it in
its log, and one pause more in its count (`Life.Lags`).  From then on **whatever happens to the one
happens to the other** (`Life.Lags.foldl`), if the time limits are renumbered (`Deed.sooner`); the
one of the extra pause, which comes up in the later life alone, changes nothing.
-/

namespace FilterProxy

variable {σ ε : Type}

open Board FilterProxy.Stream Life

/-- The job is a time limit. -/
def Job.isTimeout : Job → Bool
  | .timeout _ => true
  | _ => false

theorem Job.delayed_of_not_timeout {job : Job} (h : job.isTimeout = false) (n : Nat) :
    job.delayed n = job := by
  cases job <;> first | rfl | cases h

/-! ## Jobs put out -/

theorem Event.isReply_delayed (n : Nat) (e : Event σ) :
    (e.delayed n).isReply = e.isReply := by cases e <;> rfl

/-- What is put out does not depend on the numbers of pauses, but for the time limits. -/
theorem count_posting_delayed {p : Posting} (hp : p.job.isTimeout = false) (n : Nat)
    {older older' : List (Event σ)}
    (hhead : older'.head?.any Event.isReply = older.head?.any Event.isReply) (e : Event σ) :
    ((e.delayed n).posting? older').toList.count p = (e.posting? older).toList.count p := by
  cases e with
  | scheduled job => simp only [Event.delayed, Event.posting?, hhead]
  | armed delay generation =>
    have hne (m : Nat) : Posting.mk (.timeout m) false ≠ p := fun h => by rw [← h] at hp; cases hp
    simp [Event.delayed, Event.posting?, hne]
  | _ => rfl

/-- **What was put out since** is the same in both lives. -/
theorem count_posted_delayed {p : Posting} (hp : p.job.isTimeout = false) (n : Nat)
    {older older' : List (Event σ)}
    (hhead : older'.head?.any Event.isReply = older.head?.any Event.isReply)
    (later : List (Event σ)) :
    (posted (later.map (Event.delayed n) ++ older')).count p + (posted older).count p
      = (posted (later ++ older)).count p + (posted older').count p := by
  induction later with
  | nil => exact Nat.add_comm _ _
  | cons e later ih =>
    have hlatest : (later.map (Event.delayed n) ++ older').head?.any Event.isReply
        = (later ++ older).head?.any Event.isReply := by
      cases later with
      | nil => exact hhead
      | cons e' later => exact Event.isReply_delayed n e'
    rw [List.map_cons, List.cons_append, List.cons_append, posted, posted, List.count_append,
      List.count_append, count_posting_delayed hp n hlatest e]
    omega

/-! ## Lives whose time limits are on the books -/

namespace Life

/-- The life is reached, and its time limits are on the books as long as nobody claims the
stream. -/
structure Kept (settings : Settings) (l : Life σ) : Prop where
  reached : Reached none l
  watched : l.stream.board.claimed = false → l.Watched settings

theorem Kept.next {settings : Settings} {l : Life σ} (h : l.Kept settings) (d : Deed σ ε) :
    (l.next d).Kept settings :=
  ⟨h.reached.next_deed d,
    (carries_watched (fun (_ : Surroundings σ ε) _ _ => True) settings).next_deed h.reached
    h.watched d fun _ _ _ _ => trivial⟩

theorem kept_after (id : StreamId) (settings : Settings) (deeds : List (Deed σ ε)) :
    (after id settings deeds).Kept settings :=
  ⟨reached_after id settings deeds, (carries_watched _ settings).after⟩

/-- The time limit of pause `m` ends the stream if it comes up now. -/
structure Rings (settings : Settings) (l : Life σ) (m : Nat) : Prop where
  limited : settings.stopTimeout.isSome
  unclaimed : l.stream.board.claimed = false
  paused : l.stream.pausedBy.isSome
  number : l.stream.generation = m

namespace Kept

variable {settings : Settings} {l : Life σ}

/-- **The time limit of the present pause is due.** -/
theorem due (h : l.Kept settings) {m : Nat} (hr : l.Rings settings m) :
    l.Due ⟨.timeout m, false⟩ := by
  have hwatched := h.watched hr.unclaimed
  obtain ⟨delay, hlimit⟩ := Option.isSome_iff_exists.mp hr.limited
  obtain ⟨-, -, -, -, -, honce⟩ := hwatched.exists_armed hlimit hr.paused
  have hunfired := hwatched.unfired hr.paused
  rw [hr.number] at honce hunfired
  rw [Due, hunfired, count_posted_timeout, honce]
  exact Nat.zero_lt_one

/-- A time limit that came up ends the stream… -/
theorem run_rings (h : l.Kept settings) {m : Nat} (hr : l.Rings settings m)
    (c : Surroundings σ ε) (env : ε) :
    (l.next (.run ⟨.timeout m, false⟩ c env)).stream
      = survive (l.stream.finish c.behaviour .stopTimeout).1
        (l.stream.finish c.behaviour .stopTimeout).2 := by
  have hexec : Turn.exec c (.timeout m) ⟨l.stream, env⟩
      = Turn.alone ⟨l.stream, env⟩ (·.finish c.behaviour .stopTimeout) := by
    refine if_neg (not_or.mpr ⟨fun hn => ?_, not_not.mpr hr.number⟩)
    have hpaused := hr.paused
    rw [show l.stream.pausedBy = none from Option.isNone_iff_eq_none.mp hn] at hpaused
    cases hpaused
  rw [Life.next, if_pos (h.due hr), hexec]
  rfl

/-- …or changes nothing. -/
theorem run_not_rings (h : l.Kept settings) {m : Nat} {byReply : Bool}
    (hr : byReply = false → ¬ l.Rings settings m) (c : Surroundings σ ε) (env : ε) :
    (l.next (.run ⟨.timeout m, byReply⟩ c env)).stream = l.stream := by
  by_cases hdue : l.Due ⟨.timeout m, byReply⟩
  case neg => rw [Life.next, if_neg hdue]
  have hmem := hdue.mem_posted
  obtain rfl : byReply = false := congrArg Posting.byReply (eq_of_job hmem rfl (by simp))
  refine Reached.stale_run c env hdue ?_
  cases hc : l.stream.board.claimed with
  | true => exact .inl rfl
  | false =>
    refine .inr (or_iff_not_imp_left.mpr fun hpaused hnumber => hr rfl ?_)
    refine ⟨?_, hc, Option.isSome_iff_ne_none.mpr hpaused, hnumber⟩
    have halarms := (h.watched hc).alarms
    have hset : m ∈ alarms l.log := by
      rw [← List.count_pos_iff, ← count_posted_timeout]
      exact List.count_pos_iff.mpr hmem
    rw [halarms] at hset
    split at hset
    case isTrue hlimited => exact hlimited
    case isFalse => cases hset

end Kept

end Life

/-! ## One pause behind -/

/-- The deed as it happens to a life without the pause `g + 1`: the time limit of that pause comes
up in the other life only, and those of later pauses have a number less. -/
def Deed.sooner (g : Nat) : Deed σ ε → Option (Deed σ ε)
  | .run ⟨.timeout m, byReply⟩ c env =>
    if m = g + 1 then none else some (.run ⟨.timeout (if m ≤ g then m else m - 1), byReply⟩ c env)
  | d => some d

/-- **Nothing is left out**: whatever happens to the life without the pause is that for something in
the other. -/
theorem Deed.exists_sooner (g : Nat) (d : Deed σ ε) : ∃ d' : Deed σ ε, d'.sooner g = some d := by
  by_cases htimeout : ∃ m byReply c env, d = .run ⟨.timeout m, byReply⟩ c env
  case pos =>
    obtain ⟨m, byReply, c, env, rfl⟩ := htimeout
    by_cases hm : m ≤ g
    · exact ⟨.run ⟨.timeout m, byReply⟩ c env, by rw [sooner, if_neg (by omega), if_pos hm]⟩
    · exact ⟨.run ⟨.timeout (m + 1), byReply⟩ c
        env, by rw [sooner, if_neg (by omega), if_neg (by omega)]; rfl⟩
  case neg =>
    refine ⟨d, ?_⟩
    rcases d with - | - | - | - | - | - | - | ⟨⟨job, byReply⟩, c, env⟩
    case run =>
      cases job with
      | timeout m => exact absurd ⟨m, byReply, c, env, rfl⟩ htimeout
      | _ => rfl
    all_goals rfl

theorem Deed.exists_filterMap_sooner (g : Nat) (rest : List (Deed σ ε)) :
    ∃ more : List (Deed σ ε), more.filterMap (Deed.sooner g) = rest := by
  induction rest with
  | nil => exact ⟨[], rfl⟩
  | cons d rest ih =>
    obtain ⟨d', hd'⟩ := d.exists_sooner g
    obtain ⟨more, hmore⟩ := ih
    exact ⟨d' :: more, by rw [List.filterMap_cons_some hd', hmore]⟩

namespace Life

theorem survive_recast (panic : Option Panic) (n : Nat) (log : List (Event σ)) (y : Stream σ) :
    survive panic (y.recast n log) = (survive panic y).recast n log := by cases panic <;> rfl

/-- **What two logs have to differ by** for the streams on top of them to go on alike: in the second
the posting `q` was put out once more, and pause `g + 1` was there and is over. -/
structure Gap (settings : Settings) (g : Nat) (q : Posting)
    (older older' : List (Event σ)) : Prop where
  latest : older'.head?.any Event.isReply = older.head?.any Event.isReply
  posted : ∀ p, p.job.isTimeout = false → (posted older').count p
    = (posted older).count p + [q].count p
  ended : settings.stopTimeout.isSome → ∃ newer delay rest, older' = newer
    ++ .armed delay (g + 1) :: rest ∧
    ∃ e ∈ newer, e.status? ≠ none

/-- **The life `l'` is one pause behind `l`**: it has another log behind it, one pause more in its
count, and the posting `q` was run once more. -/
structure Lags (q : Posting) (older older' : List (Event σ)) (l l' : Life σ) : Prop where
  stream : ∃ y : Stream σ, l.stream = y.atop older ∧ l'.stream = y.recast 1 older'
  ran : ∀ p, p.job.isTimeout = false → l'.ran.count p = l.ran.count p + [q].count p

namespace Lags

variable {settings : Settings} {g : Nat} {q : Posting} {older older' : List (Event σ)}
  {l l' m m' : Life σ}

/-- Work that reads neither the log nor the count is done alike. -/
theorem map (h : Lags q older older' l l') {f : Stream σ → Stream σ}
    (hf : ∀ n log y, f (y.recast n log) = (f y).recast n log) (hm : m.stream = f l.stream)
    (hm' : m'.stream = f l'.stream) (hran : m.ran = l.ran) (hran' : m'.ran = l'.ran) :
    Lags q older older' m m' := by
  obtain ⟨y, hl, hl'⟩ := h.stream
  refine ⟨⟨f y, ?_, ?_⟩, ?_⟩
  · rw [hm, hl, ← Stream.recast_zero, hf, Stream.recast_zero]
  · rw [hm', hl', hf]
  · rw [hran, hran']
    exact h.ran

theorem due_iff (h : Lags q older older' l l') (hgap : Gap settings g q older older') {p : Posting}
    (hp : p.job.isTimeout = false) : l'.Due p ↔ l.Due p := by
  obtain ⟨y, hl, hl'⟩ := h.stream
  have hcount := count_posted_delayed hp 1 hgap.latest y.board.log
  have hlog : l.log = y.board.log ++ older := by
    rw [Life.log, hl]
    rfl
  have hlog' : l'.log = y.board.log.map (Event.delayed 1) ++ older' := by
    rw [Life.log, hl']
    rfl
  rw [Due, Due, hlog, hlog', h.ran p hp]
  have := hgap.posted p hp
  omega

/-- **A deed that runs no job** happens to both. -/
theorem next_beside (h : Lags q older older' l l') (d : Deed σ ε)
    (hd : ∀ p c env, d ≠ .run p c env) :
    Lags q older older' (l.next d) (l'.next d) := by
  -- what concerns the board alone
  have board (f : Board σ → Board σ) (hf : ∀ n log b, f (b.recast n log) = (f b).recast n log) :
      Lags q older older' (l.become { l.stream with board := f l.stream.board })
        (l'.become { l'.stream with board := f l'.stream.board }) :=
    h.map (f := fun s => { s with board := f s.board })
      (fun n log y => congrArg (fun b => { y.recast n log with board := b }) (hf n log y.board))
        rfl rfl rfl rfl
  cases d with
  | add β r =>
    exact h.map (f := (·.addFilter β r)) (fun n log y => addFilter_recast n log y β r)
      rfl rfl rfl rfl
  | receive request =>
    exact board (·.schedule (.receive request)) fun n log b => recast_schedule n log b _
  | resume => exact board (·.schedule (.resume none)) fun n log b => recast_schedule n log b _
  | terminate ending =>
    exact board (fun b => (b.terminate ending).2) fun n log b =>
      congrArg Prod.snd (recast_terminate n log b ending)
  | act side filter index program =>
    exact board (fun b => (program.run filter index b).2)
      fun n log b => congrArg Prod.snd (program.run_recast n log filter index b)
  | answer x =>
    exact h.map (f := fun s => Turn.answer s x) (fun n log y => answer_recast n log y x)
      rfl rfl rfl rfl
  | direct c message convert =>
    exact h.map (f := fun s => (s.runResponseFilters c.behaviour .beforeSend message convert).2)
      (fun n log y =>
        congrArg Prod.snd (runResponseFilters_recast n log y c.behaviour message convert))
      rfl rfl rfl rfl
  | run p c env => exact absurd rfl (hd p c env)

/-- **A job runs alike in both**, if it is no time limit. -/
theorem next_run (h : Lags q older older' l l') (hgap : Gap settings g q older older') {p : Posting}
    (hp : p.job.isTimeout = false) (c : Surroundings σ ε) (env : ε) :
    Lags q older older' (l.next (.run p c env)) (l'.next (.run p c env)) := by
  by_cases hdue : l.Due p
  case neg =>
    rw [Life.next, Life.next, if_neg hdue, if_neg (mt (h.due_iff hgap hp).mp hdue)]
    exact h
  rw [Life.next, Life.next, if_pos hdue, if_pos ((h.due_iff hgap hp).mpr hdue)]
  obtain ⟨y, hl, hl'⟩ := h.stream
  have hsame : Turn.Recast (· = ·) 0 older ⟨y, env⟩ ⟨l.stream, env⟩ :=
    ⟨by rw [hl, Stream.recast_zero], rfl⟩
  have hsame' : Turn.Recast (· = ·) 1 older' ⟨y, env⟩ ⟨l'.stream, env⟩ := ⟨hl', rfl⟩
  obtain ⟨hpanic, hstream, -⟩ := hsame.exec c.alike_eq p.job
  obtain ⟨hpanic', hstream', -⟩ := hsame'.exec c.alike_eq p.job
  rw [Job.delayed_of_not_timeout hp] at hpanic hstream hpanic' hstream'
  refine ⟨⟨survive (Turn.exec c p.job ⟨y, env⟩).1 (Turn.exec c p.job ⟨y, env⟩).2.stream, ?_, ?_⟩,
    fun p' hp' => ?_⟩
  · dsimp only
    rw [hpanic, hstream, survive_recast, Stream.recast_zero]
  · dsimp only
    rw [hpanic', hstream', survive_recast]
  · rw [List.count_cons, List.count_cons, h.ran p' hp']
    omega

/-- Both streams are ended alike. -/
theorem finished (h : Lags q older older' l l') (β : Behaviour σ) (ending : Ending)
    (hm : m.stream = survive (l.stream.finish β ending).1 (l.stream.finish β ending).2)
    (hm' : m'.stream = survive (l'.stream.finish β ending).1 (l'.stream.finish β ending).2)
    (hran : ∀ p, p.job.isTimeout = false → m'.ran.count p = m.ran.count p + [q].count p) :
    Lags q older older' m m' := by
  obtain ⟨y, hl, hl'⟩ := h.stream
  have ended (n : Nat) (log : List (Event σ)) :
      survive ((y.recast n log).finish β ending).1 ((y.recast n log).finish β ending).2
        = (survive (y.finish β ending).1 (y.finish β ending).2).recast n log := by
    rw [finish_recast]
    exact survive_recast _ n log _
  refine ⟨⟨survive (y.finish β ending).1 (y.finish β ending).2, ?_, ?_⟩, hran⟩
  · rw [hm, hl, ← Stream.recast_zero, ended, Stream.recast_zero]
  · rw [hm', hl', ended]

/-- **The extra pause is over**: its time limit ends nothing, and a pause that lasts has a later
number. -/
theorem number_gt (h : Lags q older older' l l') (hgap : Gap settings g q older older')
    (hkept : l'.Kept settings) {n : Nat} (hr : l'.Rings settings n) : g + 1 < n := by
  obtain ⟨newer, delay, rest, rfl, e, he, hstatus⟩ := hgap.ended hr.limited
  obtain ⟨y, -, hl'⟩ := h.stream
  have hlog : l'.log = (y.board.log.map (Event.delayed 1) ++ newer) ++ .armed delay (g + 1)
    :: rest := by
    rw [Life.log, hl', List.append_assoc]
    rfl
  have hwatched := hkept.watched hr.unclaimed
  have hle : g + 1 ≤ l'.stream.generation := hwatched.le_of_mem
    (List.mem_filterMap.mpr ⟨.armed delay (g + 1), hlog ▸ List.mem_append_cons_self, rfl⟩)
  have hover : ¬ l'.stream.generation = g + 1 := fun heq =>
    hstatus ((hwatched.lasts_iff hlog).mpr ⟨hr.paused, heq⟩ e (List.mem_append_right _ he))
  rw [hr.number] at hle hover
  omega

/-- A time limit ends the one life iff the renumbered one ends the other. -/
theorem rings_iff (h : Lags q older older' l l') (hgap : Gap settings g q older older')
    (hkept' : l'.Kept settings)
    {n : Nat} : l'.Rings settings n ↔ l.Rings settings (if n ≤ g then n else n - 1) := by
  have hnumber {n : Nat} (hr : l'.Rings settings n) : g + 1 < n := h.number_gt hgap hkept' hr
  obtain ⟨y, hl, hl'⟩ := h.stream
  have hclaimed : l'.stream.board.claimed = l.stream.board.claimed := by rw [hl, hl']; rfl
  have hpaused : l'.stream.pausedBy = l.stream.pausedBy := by rw [hl, hl']; rfl
  have hgeneration : l'.stream.generation = 1 + l.stream.generation := by rw [hl, hl']; rfl
  constructor
  · intro hr
    have hlt := hnumber hr
    refine ⟨hr.limited, hclaimed ▸ hr.unclaimed, hpaused ▸ hr.paused, ?_⟩
    have := hr.number
    split <;> omega
  · intro hr
    have hr' : l'.Rings settings (1 + l.stream.generation) :=
      ⟨hr.limited, hclaimed ▸ hr.unclaimed, hpaused ▸ hr.paused, hgeneration⟩
    have hlt := hnumber hr'
    have heq := hr.number
    have : 1 + l.stream.generation = n := by
      split at heq <;> omega
    exact this ▸ hr'

/-- A time limit that comes up counts as no other job. -/
theorem count_ran_timeout (l : Life σ) (n : Nat) (byReply : Bool) (c : Surroundings σ ε) (env : ε)
    {p : Posting} (hp : p.job.isTimeout = false) :
    (l.next (.run ⟨.timeout n, byReply⟩ c env)).ran.count p = l.ran.count p := by
  rw [Life.next]
  split
  · refine List.count_cons_of_ne fun heq => ?_
    rw [← heq] at hp
    cases hp
  · rfl

/-- **A time limit comes up in both**, but for the one of the extra pause. -/
theorem next_timeout (h : Lags q older older' l l') (hgap : Gap settings g q older older')
    (hkept : l.Kept settings)
    (hkept' : l'.Kept settings) (n : Nat) (byReply : Bool) (c : Surroundings σ ε) (env : ε) :
    Lags q older older' (((Deed.run ⟨.timeout n, byReply⟩ c env).sooner g).toList.foldl next l)
      (l'.next (.run ⟨.timeout n, byReply⟩ c env)) := by
  have hstill {l : Life σ} (hkept : l.Kept settings) {n : Nat}
    (hr : byReply = false → ¬ l.Rings settings n) :=
    hkept.run_not_rings hr c env
  rw [Deed.sooner]
  split
  case isTrue hn =>
    have hstale : byReply = false → ¬ l'.Rings settings n := fun _ hr => by
      have := h.number_gt hgap hkept' hr
      omega
    obtain ⟨y, hl, hl'⟩ := h.stream
    refine ⟨⟨y, hl, (hstill hkept' hstale).trans hl'⟩, fun p hp => ?_⟩
    rw [count_ran_timeout l' n byReply c env hp]
    exact h.ran p hp
  case isFalse =>
    have hiff := h.rings_iff hgap hkept' (n := n)
    rw [Option.toList_some, List.foldl_cons, List.foldl_nil]
    generalize (if n ≤ g then n else n - 1) = m at hiff
    have hran (p : Posting) (hp : p.job.isTimeout = false) :
        (l'.next (.run ⟨.timeout n, byReply⟩ c env)).ran.count p
          = (l.next (.run ⟨.timeout m, byReply⟩ c env)).ran.count p + [q].count p := by
      rw [count_ran_timeout l' n byReply c env hp, count_ran_timeout l m byReply c env hp]
      exact h.ran p hp
    by_cases hr : byReply = false ∧ l'.Rings settings n
    case pos =>
      obtain ⟨rfl, hr⟩ := hr
      exact h.finished c.behaviour .stopTimeout (hkept.run_rings (hiff.mp hr) c env)
        (hkept'.run_rings hr c env) hran
    case neg =>
      obtain ⟨y, hl, hl'⟩ := h.stream
      refine ⟨⟨y, (hstill hkept fun hb hm => hr ⟨hb, hiff.mpr hm⟩).trans hl,
        (hstill hkept' fun hb hn => hr ⟨hb, hn⟩).trans hl'⟩, hran⟩

/-- **Every deed happens to both.** -/
theorem next_deed (h : Lags q older older' l l') (hgap : Gap settings g q older older')
    (hkept : l.Kept settings) (hkept' : l'.Kept settings) (d : Deed σ ε) :
    Lags q older older' ((d.sooner g).toList.foldl next l) (l'.next d) := by
  by_cases hrun : ∃ p c env, d = .run p c env
  case neg =>
    have hsooner : d.sooner g = some d := by
      cases d <;> first | rfl | exact absurd ⟨_, _, _, rfl⟩ hrun
    rw [hsooner]
    exact h.next_beside d fun p c env hd => hrun ⟨p, c, env, hd⟩
  obtain ⟨⟨job, byReply⟩, c, env, rfl⟩ := hrun
  cases job with
  | timeout n => exact h.next_timeout hgap hkept hkept' n byReply c env
  | _ => exact h.next_run hgap rfl c env

/-- **Whatever happens to the one life happens to the other.** -/
theorem foldl (hgap : Gap settings g q older older') (more : List (Deed σ ε))
    (h : Lags q older older' l l') (hkept : l.Kept settings) (hkept' : l'.Kept settings) :
    Lags q older older' ((more.filterMap (Deed.sooner g)).foldl next l) (more.foldl next l') := by
  induction more generalizing l l' with
  | nil => exact h
  | cons d more ih =>
    have hstep : (((d :: more).filterMap (Deed.sooner g)).foldl next l)
        = (more.filterMap (Deed.sooner g)).foldl next ((d.sooner g).toList.foldl next l) := by
      rw [List.filterMap_cons]
      cases d.sooner g <;> rfl
    have hkept_step : ((d.sooner g).toList.foldl next l).Kept settings := by
      cases d.sooner g with
      | none => exact hkept
      | some d' => exact hkept.next d'
    rw [hstep, List.foldl_cons]
    exact ih (h.next_deed hgap hkept hkept' d) hkept_step (hkept'.next d)

end Lags

end Life

end FilterProxy

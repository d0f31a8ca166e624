import FilterProxy.Proofs.Drive
import FilterProxy.Proofs.Edges

/-!
# Proofs/Stride — a drive, phase by phase

A **stride** executes the phase a stream stands at and takes the stream to another phase.  Where no
stride is to be made, the drive **stops** (`Turn.Stops`).  Every stride leaves less work ahead
(`Stride.work_lt`): jumps are spent, and between two of them the phases rise.  So **every drive
ends**: it strides up to a stop (`Turn.drives_drive`), on the one way there is (`Stride.unique`).
-/

namespace FilterProxy

variable {σ ε : Type}

/-- A phase is not found among events that enter none. -/
theorem entered_suffix_append {new log older : List (Event σ)} {p : Phase}
    (hnew : ∀ e ∈ new, e.enters? = none) :
    .entered p :: older <:+ new ++ log ↔ .entered p :: older <:+ log := by
  induction new with
  | nil => rfl
  | cons e new ih =>
    obtain ⟨he, hnew⟩ := List.forall_mem_cons.mp hnew
    rw [List.cons_append, List.suffix_cons_iff, ih hnew]
    refine ⟨?_, .inr⟩
    rintro (heq | h)
    · rw [← (List.cons.inj heq).1] at he
      cases he
    · exact h

/-- **A phase is found in a log at one place only**, if nothing since entered one. -/
theorem eq_of_entered {new log older : List (Event σ)} {p q : Phase}
    (hnew : ∀ e ∈ new, e.enters? = none) (h : .entered q :: older <:+ new ++ .entered p :: log)
    (hs : log <:+ older) : q = p ∧ older = log := by
  rcases List.suffix_cons_iff.mp ((entered_suffix_append hnew).mp h) with heq | hlt
  · obtain ⟨hq, ho⟩ := List.cons.inj heq
    exact ⟨by injection hq, ho⟩
  · exact absurd hs (not_suffix_of_cons_suffix hlt)

namespace Turn

open Board FilterProxy.Stream

variable (c : Surroundings σ ε)

/-- Execute the phase the stream stands at, with the filters from position `k` on. -/
def execute (k : Nat) (t : Turn σ ε) : Step × Turn σ ε :=
  ({ t with stream := t.stream.entered } : Turn σ ε).step c k

/-- **A stride**: the phase is executed, with the filters from a position on, and leads on. -/
inductive Stride : Nat × Turn σ ε → Nat × Turn σ ε → Prop
  | next {k t t'} (hl : t.stream.Live) (h : t.execute c k = (.next, t')) :
      Stride (k, t) (0, t'.advance t.stream.phase)
  | goto {k t t' q} (hl : t.stream.Live) (h : t.execute c k = (.goto q, t')) :
      Stride (k, t) (0, t'.goto q)
  | jump {k t t' q rest} (hl : t.stream.Live) (h : t.execute c k = (.jump q, t'))
      (hj : t'.stream.jumpsLeft = rest + 1) : Stride (k, t) (0, t'.jump q rest)

/-- **The drive stops here**, and this is what it leaves. -/
inductive Stops : Nat × Turn σ ε → Option Panic × Turn σ ε → Prop
  /-- No phase is executed any more. -/
  | halt {k t} (h : t.stream.claimed ∨ t.stream.phase = .done) : Stops (k, t) (none, t)
  | rest {k t t'} (hl : t.stream.Live) (h : t.execute c k = (.rest, t')) : Stops (k, t) (none, t')
  | finish {k t t' ending} (hl : t.stream.Live) (h : t.execute c k = (.finish ending, t')) :
      Stops (k, t) (t'.alone (·.finish c.behaviour ending))
  /-- No jump is left for the one asked for. -/
  | overrun {k t t' q} (hl : t.stream.Live) (h : t.execute c k = (.jump q, t'))
      (hj : t'.stream.jumpsLeft = 0) : Stops (k, t) (t'.alone (·.finish c.behaviour .tooManyJumps))
  | escape {k t t' p} (hl : t.stream.Live) (h : t.execute c k = (.escape p, t')) :
      Stops (k, t) (some p, t')

/-- The drive makes some strides and stops. -/
def Drives (x : Nat × Turn σ ε) (r : Option Panic × Turn σ ε) : Prop :=
  ∃ y, Relation.ReflTransGen (Stride c) x y ∧ Stops c y r

variable {c}

/-- What executing a phase can do, it does. -/
theorem executed_execute {k : Nat} {t : Turn σ ε} (hl : t.stream.Live)
    (ho : t.stream.board.owned = true) {step : Step} {t' : Turn σ ε}
    (h : t.execute c k = (step, t')) :
    ∃ new is, Executed k t.stream.entered step t'.stream new is := by
  have hx := executed_step c k (t := { t with stream := t.stream.entered }) hl.notDone
    hl.unclaimed ho
  have hstep : ({ t with stream := t.stream.entered } : Turn σ ε).step c k = (step, t') := h
  rw [hstep] at hx
  exact hx

/-- A phase that is complete is the one the stream still stands at. -/
theorem advance_of_executed {k : Nat} {t t' : Turn σ ε} {step : Step} {new is}
    (h : Executed k t.stream.entered step t'.stream new is) :
    t'.advance t.stream.phase = { t' with stream := t'.stream.advanced } := by
  rw [← h.phase]
  rfl

namespace Stride

variable {x y : Nat × Turn σ ε}

theorem live (h : Stride c x y) : x.2.stream.Live := by
  cases h <;> assumption

/-- **Every stride leaves less work ahead.** -/
theorem work_lt (h : Stride c x y) (ho : x.2.stream.board.owned = true) :
    y.2.stream.work < x.2.stream.work := by
  cases h with
  | next hl h =>
    obtain ⟨new, is, hx⟩ := executed_execute hl ho h
    rw [advance_of_executed hx]
    exact work_advanced hx
  | goto hl h =>
    obtain ⟨new, is, hx⟩ := executed_execute hl ho h
    exact work_goto hx
  | jump hl h hj =>
    obtain ⟨new, is, hx⟩ := executed_execute hl ho h
    exact work_jumped hx hj

/-- What executing the phase logs stays in the log. -/
theorem suffix_execute (h : Stride c x y) :
    (x.2.execute c x.1).2.stream.board.log <:+ y.2.stream.board.log := by
  cases h with
  | next hl h => rw [h]; exact List.suffix_cons _ _
  | goto hl h => simpa only [h, Turn.goto] using List.suffix_refl _
  | jump hl h hj => rw [h]; exact List.suffix_cons _ _

/-- A stride moves the board. -/
theorem moves (h : Stride c x y) (ho : x.2.stream.board.owned = true) :
    Moves x.2.stream.board y.2.stream.board := by
  cases h with
  | next hl h =>
    obtain ⟨new, is, hx⟩ := executed_execute hl ho h
    exact (hx.moves hl).tail (.note _ rfl)
  | goto hl h =>
    obtain ⟨new, is, hx⟩ := executed_execute hl ho h
    exact hx.moves hl
  | jump hl h hj =>
    obtain ⟨new, is, hx⟩ := executed_execute hl ho h
    exact (hx.moves hl).tail (.note _ rfl)

/-- **A stride executes the phase the stream stands at**, and no other. -/
theorem log (h : Stride c x y) (ho : x.2.stream.board.owned = true) :
    ∃ new, y.2.stream.board.log = new ++ .entered x.2.stream.phase :: x.2.stream.board.log ∧
      ∀ e ∈ new, e.enters? = none := by
  have tame {p : Phase} {new : List (Event σ)} (h : ∀ e ∈ new, e.Within p) :
      ∀ e ∈ new, e.enters? = none := fun e he => Event.enters?_of_within (h e he)
  cases h with
  | next hl h =>
    obtain ⟨new, is, hx⟩ := executed_execute hl ho h
    exact ⟨_ :: new, congrArg (_ :: ·) hx.worked.log,
      List.forall_mem_cons.mpr ⟨rfl, tame hx.worked.within⟩⟩
  | goto hl h =>
    obtain ⟨new, is, hx⟩ := executed_execute hl ho h
    exact ⟨new, hx.worked.log, tame hx.worked.within⟩
  | jump hl h hj =>
    obtain ⟨new, is, hx⟩ := executed_execute hl ho h
    exact ⟨_ :: new, congrArg (_ :: ·) hx.worked.log,
      List.forall_mem_cons.mpr ⟨rfl, tame hx.worked.within⟩⟩

/-- **There is no choice** of strides. -/
theorem unique {z : Nat × Turn σ ε} (h : Stride c x y) (h' : Stride c x z) : y = z := by
  cases h <;> cases h' <;> simp_all

end Stride

namespace Stops

variable {x : Nat × Turn σ ε} {r : Option Panic × Turn σ ε}

/-- A drive that stops strides no more. -/
theorem not_stride (h : Stops c x r) (y : Nat × Turn σ ε) : ¬ Stride c x y := by
  intro h'
  cases h with
  | halt h =>
    rcases h with hc | hd
    · exact absurd (h'.live.unclaimed.symm.trans hc) nofun
    · exact h'.live.notDone hd
  | _ => cases h' <;> simp_all

/-- What executing the last phase logs stays in the log as well. -/
theorem suffix_execute (h : Stops c x r) (hl : x.2.stream.Live)
    (ho : x.2.stream.board.owned = true) :
    (x.2.execute c x.1).2.stream.board.log <:+ r.2.stream.board.log := by
  have ended {k : Nat} {t t' : Turn σ ε} {step : Step} (hl : t.stream.Live)
      (ho : t.stream.board.owned = true) (h : t.execute c k = (step, t')) (ending : Ending) :
      t'.stream.board.log <:+ (t'.stream.finish c.behaviour ending).2.board.log := by
    obtain ⟨new, is, hx⟩ := executed_execute hl ho h
    obtain ⟨more, hmore, -⟩ :=
      finish_log c.behaviour ending t'.stream ((hx.moves hl).owned.trans ho)
    exact ⟨more, hmore.symm⟩
  cases h with
  | halt h =>
    rcases h with hc | hd
    · exact absurd (hl.unclaimed.symm.trans hc) nofun
    · exact absurd hd hl.notDone
  | rest hl h => simpa only [h] using List.suffix_refl _
  | finish hl h => rw [h]; exact ended hl ho h _
  | overrun hl h hj => rw [h]; exact ended hl ho h _
  | escape hl h => simpa only [h] using List.suffix_refl _

/-- …and there is one way to stop. -/
theorem unique (h : Stops c x r) {r' : Option Panic × Turn σ ε} (h' : Stops c x r') : r = r' := by
  have not_live {t : Turn σ ε} (h : t.stream.claimed ∨ t.stream.phase = .done) : ¬ t.stream.Live :=
    fun hl => h.elim (fun hc => absurd (hl.unclaimed.symm.trans hc) nofun) hl.notDone
  cases h with
  | halt h =>
    cases h' with
    | halt => rfl
    | _ hl => exact absurd hl (not_live h)
  | _ hl =>
    cases h' with
    | halt h' => exact absurd hl (not_live h')
    | _ => simp_all

/-- **A stop executes the phase the stream stands at**, if any. -/
theorem log (h : Stops c x r) (ho : x.2.stream.board.owned = true) :
    (r.2 = x.2 ∧ ¬ x.2.stream.Live) ∨ ∃ new, x.2.stream.Live ∧ r.2.stream.board.log
      = new ++ .entered x.2.stream.phase :: x.2.stream.board.log ∧ ∀ e ∈ new, e.enters? = none := by
  have stayed {k : Nat} {t t' : Turn σ ε} {step : Step} (hl : t.stream.Live)
      (ho : t.stream.board.owned = true) (h : t.execute c k = (step, t')) :
      t'.stream.board.owned = true ∧ ∃ new,
        t'.stream.board.log = new ++ .entered t.stream.phase :: t.stream.board.log ∧
          ∀ e ∈ new, e.enters? = none := by
    obtain ⟨new, is, hx⟩ := executed_execute hl ho h
    exact ⟨(hx.moves hl).owned.trans ho, new, hx.worked.log, fun e he =>
      Event.enters?_of_within (hx.worked.within e he)⟩
  have ended {k : Nat} {t t' : Turn σ ε} {step : Step} (hl : t.stream.Live)
      (ho : t.stream.board.owned = true) (h : t.execute c k = (step, t')) (ending : Ending) :
      ∃ new, (t'.stream.finish c.behaviour ending).2.board.log
        = new ++ .entered t.stream.phase :: t.stream.board.log ∧ ∀ e ∈ new, e.enters? = none := by
    obtain ⟨ho', new, hlog, hnew⟩ := stayed hl ho h
    obtain ⟨more, hmore, hending⟩ := finish_log c.behaviour ending t'.stream ho'
    refine ⟨more ++ new, by rw [hmore, hlog, List.append_assoc], fun e he => ?_⟩
    rcases List.mem_append.mp he with he | he
    · exact (Event.tame_of_isEnding (hending e he)).enters
    · exact hnew e he
  cases h with
  | halt h =>
    refine .inl ⟨rfl, fun hl => ?_⟩
    rcases h with hc | hd
    · exact absurd (hl.unclaimed.symm.trans hc) nofun
    · exact hl.notDone hd
  | rest hl h => exact .inr ((stayed hl ho h).2.imp fun _ hnew => ⟨hl, hnew⟩)
  | finish hl h => exact .inr ((ended hl ho h _).imp fun _ hnew => ⟨hl, hnew⟩)
  | overrun hl h hj => exact .inr ((ended hl ho h _).imp fun _ hnew => ⟨hl, hnew⟩)
  | escape hl h => exact .inr ((stayed hl ho h).2.imp fun _ hnew => ⟨hl, hnew⟩)

end Stops

/-- Enough fuel takes a drive to its stop. -/
theorem drives_driveFor : ∀ (n k : Nat) (t : Turn σ ε), t.stream.board.owned = true →
    t.stream.work ≤ n → Drives c (k, t) (t.driveFor c n k)
  | 0, k, t, ho, hn => by
    -- without work ahead the stream is done
    have hd : t.stream.phase = .done := by
      rw [work] at hn
      revert hn
      cases t.stream.phase <;> first | exact fun _ => rfl | (simp only [Phase.number]; omega)
    exact ⟨_, .refl, .halt (.inr hd)⟩
  | n + 1, k, t, ho, hn => by
    rw [driveFor]
    split
    case isTrue h => exact ⟨_, .refl, .halt h⟩
    case isFalse h =>
      obtain ⟨hc, hd⟩ := not_or.mp h
      have hl : t.stream.Live := ⟨by simpa [Stream.claimed] using hc, hd⟩
      have onward {y : Nat × Turn σ ε} (hs : Stride c (k, t) y) :
          Drives c y (y.2.driveFor c n y.1) := by
        have hle := Nat.le_of_lt_succ (Nat.lt_of_lt_of_le (hs.work_lt ho) hn)
        exact drives_driveFor n y.1 y.2 ((hs.moves ho).owned.trans ho) hle
      have stride {y : Nat × Turn σ ε} {r} (hs : Stride c (k, t) y) (hr : Drives c y r) :
          Drives c (k, t) r := hr.imp fun _ hz => ⟨.head hs hz.1, hz.2⟩
      have hfold : ({ t with stream := t.stream.note (.entered t.stream.phase) } :
        Turn σ ε).step c k
          = t.execute c k := rfl
      simp only [hfold]
      rcases hr : t.execute c k with ⟨step, t'⟩
      cases step with
      | next => exact stride (.next hl hr) (onward (.next hl hr))
      | goto q => exact stride (.goto hl hr) (onward (.goto hl hr))
      | jump q =>
        cases hj : t'.stream.jumpsLeft with
        | zero => simpa only [hj] using ⟨_, .refl, .overrun hl hr hj⟩
        | succ rest => simpa only [hj] using stride (.jump hl hr hj) (onward (.jump hl hr hj))
      | rest => exact ⟨_, .refl, .rest hl hr⟩
      | finish ending => exact ⟨_, .refl, .finish hl hr⟩
      | escape p => exact ⟨_, .refl, .escape hl hr⟩

/-- **Every drive ends**: it strides up to where it stops, and leaves what the stop leaves. -/
theorem drives_drive (c : Surroundings σ ε) (k : Nat) (t : Turn σ ε)
    (ho : t.stream.board.owned = true) : Drives c (k, t) (t.drive c k) :=
  drives_driveFor _ k t ho (Nat.le_refl _)

/-! ## The phases a drive executes -/

namespace Stride

variable {x y : Nat × Turn σ ε}

theorem owned_strides (h : Relation.ReflTransGen (Stride c) x y)
    (ho : x.2.stream.board.owned = true) : y.2.stream.board.owned = true := by
  induction h with
  | refl => exact ho
  | tail _ h ih => exact (h.moves ih).owned.trans ih

theorem suffix_strides (h : Relation.ReflTransGen (Stride c) x y)
    (ho : x.2.stream.board.owned = true) : x.2.stream.board.log <:+ y.2.stream.board.log := by
  induction h with
  | refl => exact List.suffix_refl _
  | tail h' h ih => exact ih.trans (h.moves (owned_strides h' ho)).suffix

end Stride

namespace Drives

variable {x y : Nat × Turn σ ε} {r : Option Panic × Turn σ ε}

theorem suffix (h : Drives c x r) (ho : x.2.stream.board.owned = true) :
    x.2.stream.board.log <:+ r.2.stream.board.log := by
  obtain ⟨z, hz, hstop⟩ := h
  refine (Stride.suffix_strides hz ho).trans ?_
  rcases hstop.log (Stride.owned_strides hz ho) with ⟨heq, -⟩ | ⟨new, -, hlog, -⟩
  · exact heq.symm ▸ List.suffix_refl _
  · exact hlog.symm ▸ (List.suffix_cons _ _).trans (List.suffix_append _ _)

/-- **A live stream is driven by executing its phase first**, and what that logs stays in the
log. -/
theorem suffix_execute (h : Drives c x r) (ho : x.2.stream.board.owned = true)
    (hl : x.2.stream.Live) : (x.2.execute c x.1).2.stream.board.log <:+ r.2.stream.board.log := by
  obtain ⟨z, hz, hstop⟩ := h
  rcases Relation.ReflTransGen.cases_head hz with rfl | ⟨x', hx, hz'⟩
  · exact hstop.suffix_execute hl ho
  · have hrest : Drives c x' r := ⟨z, hz', hstop⟩
    exact hx.suffix_execute.trans (hrest.suffix ((hx.moves ho).owned.trans ho))

theorem entered (h : Drives c x r) (ho : x.2.stream.board.owned = true) (hl : x.2.stream.Live) :
    .entered x.2.stream.phase :: x.2.stream.board.log <:+ r.2.stream.board.log := by
  obtain ⟨new, is, hx⟩ := executed_execute hl ho (rfl : x.2.execute c x.1 = (_, _))
  have hlog : (x.2.execute c x.1).2.stream.board.log
      = new ++ .entered x.2.stream.phase :: x.2.stream.board.log := hx.worked.log
  refine List.IsSuffix.trans ?_ (h.suffix_execute ho hl)
  rw [hlog]
  exact List.suffix_append _ _

/-- Strides lead to the drive's one stop. -/
theorem of_strides (h : Drives c x r) (hy : Relation.ReflTransGen (Stride c) x y) :
    Drives c y r := by
  obtain ⟨z, hz, hstop⟩ := h
  have hunique : Relator.RightUnique (Stride c) := fun _ _ _ => Stride.unique
  rcases Relation.ReflTransGen.total_of_right_unique hunique hy hz with h | h
  · exact ⟨z, h, hstop⟩
  · rcases Relation.ReflTransGen.cases_head h with rfl | ⟨z', hz', -⟩
    · exact ⟨z, .refl, hstop⟩
    · exact absurd hz' (hstop.not_stride z')

/-- Where a drive stops at once, it leaves what the stop leaves. -/
theorem eq_of_stops (h : Drives c x r) {r' : Option Panic × Turn σ ε} (h' : Stops c x r') :
    r = r' := by
  obtain ⟨z, hz, hstop⟩ := h
  rcases Relation.ReflTransGen.cases_head hz with rfl | ⟨y, hy, -⟩
  · exact hstop.unique h'
  · exact absurd hy (h'.not_stride y)

/-- **The log tells the phases a drive executes**, each with the log it found. -/
theorem entered_iff (h : Drives c x r) (ho : x.2.stream.board.owned = true) (p : Phase)
    (older : List (Event σ)) :
    (.entered p :: older <:+ r.2.stream.board.log ∧ x.2.stream.board.log <:+ older) ↔
      ∃ y, Relation.ReflTransGen (Stride c) x y ∧ y.2.stream.Live ∧ y.2.stream.phase = p ∧
        y.2.stream.board.log = older := by
  constructor
  · rintro ⟨hin, hfrom⟩
    obtain ⟨z, hz, hstop⟩ := h
    induction hz using Relation.ReflTransGen.head_induction_on with
    | refl =>
      rcases hstop.log ho with ⟨heq, -⟩ | ⟨new, hl, hlog, hnew⟩
      · rw [heq] at hin
        exact absurd hfrom (not_suffix_of_cons_suffix hin)
      · obtain ⟨rfl, rfl⟩ := eq_of_entered hnew (hlog ▸ hin) hfrom
        exact ⟨z, .refl, hl, rfl, rfl⟩
    | @head x x' hx hz ih =>
      obtain ⟨new, hlog, hnew⟩ := hx.log ho
      have ho' := (hx.moves ho).owned.trans ho
      have hrest : Drives c x' r := ⟨z, hz, hstop⟩
      rcases suffix_or_of_cons_suffix hin (hrest.suffix ho') with hin' | hfrom'
      · obtain ⟨rfl, rfl⟩ := eq_of_entered hnew (hlog ▸ hin') hfrom
        exact ⟨x, .refl, hx.live, rfl, rfl⟩
      · obtain ⟨y, hy, hrest⟩ := ih ho' hfrom'
        exact ⟨y, .head hx hy, hrest⟩
  · rintro ⟨y, hy, hl, rfl, rfl⟩
    exact ⟨(h.of_strides hy).entered (Stride.owned_strides hy ho) hl, Stride.suffix_strides hy ho⟩

end Drives

end Turn

end FilterProxy

import FilterProxy.Proofs.Reply
import FilterProxy.Proofs.Rest
import Mathlib.Data.List.Basic

/-!
# Proofs/Owed — no response is lost

A request is forwarded once, and then the stream waits until a response is taken in.  No job with a
response is run in between but the one that ends the wait, so **a response that came since the
forwarding is still due** (`Lived.owing`), even if it came before the stream had begun to wait.
-/

namespace FilterProxy

variable {σ ε : Type}

open Board FilterSet FilterProxy.Stream Life

/-- The host's response is taken in. -/
def Event.isTaking : Event σ → Bool
  | .stat (.phaseCompleted .awaitResponse) => true
  | _ => false

/-! ## Jobs put out and run -/

theorem count_posted_le (new log : List (Event σ)) (p : Posting) :
    (posted log).count p ≤ (posted (new ++ log)).count p := by
  induction new with
  | nil => exact Nat.le_refl _
  | cons e new ih =>
    rw [List.cons_append, posted, List.count_append]
    omega

/-- A response that came is a job more. -/
theorem count_posted_lt {new : List (Event σ)} (log : List (Event σ)) {m : Message}
    (h : .scheduled (.response m) ∈ new) :
    (posted log).count ⟨.response m, false⟩ < (posted (new ++ log)).count ⟨.response m, false⟩ := by
  obtain ⟨latest, between, rfl⟩ := List.append_of_mem h
  have hbetween := count_posted_le between log ⟨.response m, false⟩
  have hlatest := count_posted_le latest (.scheduled (.response m) :: (between ++ log))
    ⟨.response m, false⟩
  have hone : (posted (.scheduled (.response m) :: (between ++ log))).count ⟨.response m, false⟩
      = 1 + (posted (between ++ log)).count ⟨.response m, false⟩ := by
    rw [posted, List.count_append]
    simp [Event.posting?]
  rw [List.append_assoc, List.cons_append]
  omega

/-- **No job is run more often than it was put out.** -/
theorem Reached.ran_le {start : Option Nat} {l : Life σ} (h : Reached start l) (p : Posting) :
    l.ran.count p ≤ (posted l.log).count p := by
  have grown {log log' : List (Event σ)} {n : Nat} (hs : log <:+ log')
      (hn : n ≤ (posted log).count p) : n ≤ (posted log').count p := by
    obtain ⟨new, rfl⟩ := hs
    exact Nat.le_trans hn (count_posted_le new log p)
  have taken {l : Life σ} {q : Posting} (hq : l.Due q)
      (hl : l.ran.count p ≤ (posted l.log).count p) :
      (q :: l.ran).count p ≤ (posted l.log).count p := by
    by_cases heq : q = p
    · subst heq
      rw [List.count_cons_self]
      exact hq
    · rw [List.count_cons_of_ne heq]
      exact hl
  induction h with
  | fresh => exact Nat.zero_le _
  | add h r ih => exact ih
  | outside new h hm hlog hnew ih => exact grown hm.suffix ih
  | direct h hp m ih => exact grown hp.moves.suffix ih
  | finish h β ending ih =>
    obtain ⟨new, hlog, -⟩ := finish_log β ending _ h.orderly.books.owned
    exact grown ⟨new, hlog.symm⟩ ih
  | take h hp hr ih => exact taken hp ih
  | release h hp hj β ih =>
    obtain ⟨new, hlog, -⟩ := release_log β _ _ h.orderly.books.owned
    exact grown ⟨new, hlog.symm⟩ (taken hp ih)
  | receive h hc hp m ih => exact ih
  | resume | reroute | response => exact grown (List.suffix_cons _ _) (by assumption)
  | halt h hc ih => exact ih
  | stay h hl hx hlast ih => exact grown (hx.moves hl).suffix ih
  | next h hl hx ih => exact grown ((hx.moves hl).suffix.trans (List.suffix_cons _ _)) ih
  | goto h hl hx ih => exact grown (hx.moves hl).suffix ih
  | jump h hl hx hj ih => exact grown ((hx.moves hl).suffix.trans (List.suffix_cons _ _)) ih

/-! ## What is owed -/

/-- The event neither forwards the request nor takes the response in. -/
structure Event.Aside (e : Event σ) : Prop where
  forwarding : e.isForwarding = false
  taking : e.isTaking = false

namespace Event

theorem aside_of_isOutside {e : Event σ} (h : e.isOutside = true) : e.Aside := by
  cases e with
  | stat s => cases s <;> first | exact ⟨rfl, rfl⟩ | cases h
  | _ => first | exact ⟨rfl, rfl⟩ | cases h

theorem aside_of_pass {side : Side} {e : Event σ} (h : e.inPass side = true ∨ e.byHandle = true) :
    e.Aside := by
  cases e with
  | stat s => cases s <;> first | exact ⟨rfl, rfl⟩ | (rcases h with h | h <;> cases h)
  | _ => first | exact ⟨rfl, rfl⟩ | (rcases h with h | h <;> cases h)

theorem aside_of_within {p : Phase} {e : Event σ} (h : e.Within p) (hp : p ≠ .forward) :
    e.Aside := by
  cases e with
  | forwarded => exact absurd h hp
  | stat s =>
    cases s with
    | phaseCompleted q => rw [h.1]; exact ⟨rfl, rfl⟩
    | _ => exact ⟨rfl, rfl⟩
  | _ => exact ⟨rfl, rfl⟩

end Event

/-- An answer given at once comes as a job. -/
theorem Turn.answer_log (s : Stream σ) (x : Handover) (ho : s.board.owned = true) :
    ∃ new, (Turn.answer s x).board.log = new ++ s.board.log ∧ (∀ e ∈ new, e.isOutside = true) ∧
      ∀ m, x = .responded m → .scheduled (.response m) ∈ new := by
  cases x with
  | responded m =>
    rw [Turn.answer_responded ho]
    exact ⟨[.scheduled (.response m)], rfl, by simp [Event.isOutside], by simp⟩
  | _ =>
    obtain ⟨new, hlog, hnew, -⟩ := Turn.answer_spec s _ ho
    exact ⟨new, hlog, hnew, by simp⟩

/-- The log of a forwarding, and of the answer given at once. -/
theorem Stream.Traced.forward_log {k : Nat} {s s' : Stream σ} {new : List (Event σ)} {is : List Nat}
    (hx : s.Traced k .next s' new is) (ho : s.board.owned = true) (hp : s.phase = .forward) :
    ∃ host f more, s'.advanced.board.log =
        more ++ .forwarded host s.request f :: .entered .forward :: s.board.log ∧
      (∀ e ∈ more, e.Aside) ∧
      ∀ m, f.handover = .responded m → .scheduled (.response m) ∈ more := by
  obtain ⟨host, f, hboard⟩ : ∃ host f, s'.board = (s.handedOver host f).board := by
    cases hx.sequel with
    | next hb hs hr hf => exact hf hp
  obtain ⟨answer, hlog, houtside, hcame⟩ :=
    Turn.answer_log (s.entered.note (.forwarded host s.request f)) f.handover ho
  refine ⟨host, f, .stat (.phaseCompleted .forward) :: answer, ?_, ?_, ?_⟩
  · change .stat (.phaseCompleted s'.phase) :: s'.board.log = _
    rw [hboard, handedOver, hlog, hx.executed.phase, hp, ← hp]
    rfl
  · exact List.forall_mem_cons.mpr
      ⟨⟨rfl, rfl⟩, fun e he => Event.aside_of_isOutside (houtside e he)⟩
  · exact fun m hm => List.mem_cons_of_mem _ (hcame m hm)

/-- **The books on the forwarded request.** -/
structure Life.Owing (l : Life σ) : Prop where
  untaken : l.stream.phase ≤ .awaitResponse → ∀ e ∈ l.log, e.isTaking = false
  /-- Once the request was forwarded, the stream waits, or it took a response in. -/
  sent : ∀ e ∈ l.log, e.isForwarding = true → l.stream.phase = .awaitResponse ∨
    .awaitResponse < l.stream.phase ∧ ∃ f ∈ l.log, f.isTaking = true
  handed : l.stream.phase = .awaitResponse → ∃ e ∈ l.log, e.isForwarding = true
  /-- While the stream waits, no job with a response was run but such as came before. -/
  owed : l.stream.phase = .awaitResponse → Throughout (fun e older => e.isForwarding = true → ∀ m,
    l.ran.count ⟨.response m, false⟩ ≤ (posted older).count ⟨.response m, false⟩) l.log
  /-- An answer given at once came as a job. -/
  answered : ∀ newer host request m panic older,
    l.log = newer ++ .forwarded host request ⟨.responded m, panic⟩ :: older →
      .scheduled (.response m) ∈ newer
  taken : ∀ e ∈ l.log, e.isTaking = true → ∃ m, ⟨.response m, false⟩ ∈ l.ran

namespace Life.Owing

variable {l l' : Life σ}

/-- Whatever does not lead into the wait or out of it keeps the books. -/
theorem keep (h : l.Owing) (new : List (Event σ)) (hlog : l'.log = new ++ l.log)
    (hnew : ∀ e ∈ new, e.Aside) (hsub : l.ran ⊆ l'.ran)
    (hran : l'.stream.phase = .awaitResponse → ∀ m,
      l'.ran.count ⟨.response m, false⟩ = l.ran.count ⟨.response m, false⟩)
    (hwait : l'.stream.phase = .awaitResponse ↔ l.stream.phase = .awaitResponse)
    (hlate : .awaitResponse < l.stream.phase → .awaitResponse < l'.stream.phase) : l'.Owing where
  untaken hp e he := by
    rcases List.mem_append.mp (hlog ▸ he) with he | he
    · exact (hnew e he).taking
    · exact h.untaken (Nat.le_of_not_lt fun hlt => Nat.not_lt.mpr hp (hlate hlt)) e he
  sent e he hf := by
    rcases List.mem_append.mp (hlog ▸ he) with he | he
    · exact absurd hf (by simp [(hnew e he).forwarding])
    · refine (h.sent e he hf).imp hwait.mpr fun hsent => ⟨hlate hsent.1, ?_⟩
      obtain ⟨f, hmem, hf⟩ := hsent.2
      exact ⟨f, hlog ▸ List.mem_append_right new hmem, hf⟩
  handed hp := by
    obtain ⟨e, he, hf⟩ := h.handed (hwait.mp hp)
    exact ⟨e, hlog ▸ List.mem_append_right new he, hf⟩
  owed hp := by
    rw [hlog]
    simp only [hran hp]
    refine (h.owed (hwait.mp hp)).append fun newer e added hsplit hf => ?_
    have hmem : e ∈ new := hsplit ▸ List.mem_append_cons_self
    rw [(hnew e hmem).forwarding] at hf
    cases hf
  answered newer host request m panic older hsplit := by
    rw [hlog] at hsplit
    obtain ⟨newer', rfl, hsplit'⟩ := exists_of_append_eq hsplit
      fun hmem => nomatch (hnew _ hmem).forwarding
    exact List.mem_append_right new (h.answered newer' host request m panic older hsplit')
  taken e he ht := by
    rcases List.mem_append.mp (hlog ▸ he) with he | he
    · exact absurd ht (by simp [(hnew e he).taking])
    · exact (h.taken e he ht).imp fun _ hmem => hsub hmem

/-- **A job that drives the stream**: only the response ends the wait. -/
theorem opened (h : l.Owing) (hl : Reached none l) {p : Posting} (hp : l.Due p) {k : Nat}
    {s : Stream σ} (ho : l.stream.Opens p.job k s) :
    Owing { l with stream := s, ran := p :: l.ran } := by
  have hsub : l.ran ⊆ p :: l.ran := List.subset_cons_self p l.ran
  have hlate : Phase.awaitResponse < .filterResponse := by decide
  generalize hjob : p.job = job at ho
  cases ho with
  | receive hc hinit =>
    refine h.keep [] rfl (by simp) hsub (fun hwait => ?_) .rfl id
    rw [show l.stream.phase = _ from hwait] at hinit
    cases hinit
  | @resume _ index hc hpaused =>
    refine h.keep [.published .running] rfl (by simpa using ⟨rfl, rfl⟩) hsub
      (fun hwait => ?_) .rfl id
    have hside := hl.poised index hpaused
    rw [show l.stream.phase = _ from hwait] at hside
    cases hside
  | @reroute _ index reply hc hpaused hcaller hlt =>
    have hside := hl.poised index hpaused
    refine h.keep [.published .running] rfl (by simpa using ⟨rfl, rfl⟩) hsub nofun
      ⟨nofun, fun hwait => ?_⟩ fun _ => hlate
    rw [hwait] at hside
    cases hside
  | @response m hc hwait =>
    obtain rfl : p = ⟨.response m, false⟩ := eq_of_job hp.mem_posted hjob nofun
    exact
      { untaken := fun hle => absurd hle (Nat.not_le.mpr hlate)
        sent := fun _ _ _ => .inr ⟨hlate, _, List.mem_cons_self, rfl⟩
        handed := nofun
        owed := nofun
        answered := fun newer host request m' panic older hsplit => by
          rcases List.cons_eq_append_iff.mp hsplit with ⟨-, hcons⟩ | ⟨newer', rfl, hsplit'⟩
          · cases hcons
          exact List.mem_cons_of_mem _ (h.answered newer' host request m' panic older hsplit')
        taken := fun _ _ _ => ⟨m, List.mem_cons_self⟩ }

variable {k : Nat} {s : Stream σ} {step : Step} {new : List (Event σ)} {is : List Nat}

/-- **Executing a phase** other than the forwarding. -/
theorem executed (h : l.Owing) (hx : Executed k l.stream.entered step s new is)
    (hp : l.stream.phase ≠ .forward) (more : List (Event σ)) (hlog : l'.log = more ++ s.board.log)
    (hmore : ∀ e ∈ more, e.Aside) (hran : l'.ran = l.ran)
    (hwait : l'.stream.phase = .awaitResponse ↔ l.stream.phase = .awaitResponse)
    (hlate : .awaitResponse < l.stream.phase → .awaitResponse < l'.stream.phase) : l'.Owing := by
  refine h.keep (more ++ (new ++ [.entered l.stream.phase])) ?_ (fun e he => ?_)
    (fun p hmem => hran ▸ hmem) (fun _ _ => by rw [hran]) hwait hlate
  · rw [hlog, hx.log, ← List.append_assoc]
    rfl
  · rcases List.mem_append.mp he with he | he
    · exact hmore e he
    rcases List.mem_append.mp he with he | he
    · exact Event.aside_of_within (hx.worked.within e he) hp
    · obtain rfl := List.mem_singleton.mp he
      exact ⟨rfl, rfl⟩

/-- **Request filters** lead anywhere but into the wait. -/
theorem filtered (h : l.Owing) (hx : Executed k l.stream.entered step s new is)
    {point : RequestPoint} (hp : l.stream.phase = point.phase) (more : List (Event σ))
    (hlog : l'.log = more ++ s.board.log) (hmore : ∀ e ∈ more, e.Aside) (hran : l'.ran = l.ran)
    (hq : l'.stream.phase ≠ .awaitResponse) : l'.Owing := by
  have hearly : point.phase ≠ .forward ∧ point.phase < .awaitResponse := by cases point <;> decide
  rw [← hp] at hearly
  refine h.executed hx hearly.1 more hlog hmore hran ⟨fun hwait => absurd hwait hq, fun hwait => ?_⟩
    fun hlate => absurd hlate (Nat.not_lt.mpr (Nat.le_of_lt hearly.2))
  rw [hwait] at hearly
  exact absurd hearly.2 (Nat.lt_irrefl _)

/-- Before the forwarding nothing was forwarded or taken in. -/
theorem aside_of_forward (h : l.Owing) (hp : l.stream.phase = .forward) :
    ∀ e ∈ l.log, e.Aside := fun e he => by
  refine ⟨Bool.eq_false_iff.mpr fun hf => ?_, h.untaken (by rw [hp]; decide) e he⟩
  have hsent := h.sent e he hf
  rw [hp] at hsent
  rcases hsent with hsent | ⟨hsent, -⟩ <;> exact absurd hsent (by decide)

/-- **The forwarding** leads into the wait, with the answer given at once as a job. -/
theorem forwarded (h : l.Owing) (hl : Reached (some k) l) (hp : l.stream.phase = .forward)
    (hx : l.stream.Traced k .next s new is) : (l.become s.advanced).Owing := by
  obtain ⟨host, f, more, hlog, hmore, hcame⟩ := hx.forward_log hl.orderly.books.owned hp
  have hlog : (l.become s.advanced).log = _ := hlog
  have hphase : (l.become s.advanced).stream.phase = .awaitResponse := by
    rw [become_stream, advanced_phase, hx.executed.phase, hp]
    rfl
  have hbefore : ∀ e ∈ .entered .forward :: l.log, e.Aside :=
    List.forall_mem_cons.mpr ⟨⟨rfl, rfl⟩, h.aside_of_forward hp⟩
  have htaking : ∀ e ∈ (l.become s.advanced).log, e.isTaking = false := fun e he => by
    rw [hlog] at he
    rcases List.mem_append.mp he with he | he
    · exact (hmore e he).taking
    rcases List.mem_cons.mp he with rfl | he
    · rfl
    · exact (hbefore e he).taking
  -- this was the one forwarding
  have unique {newer e older} (hsplit : (l.become s.advanced).log = newer ++ e :: older)
      (hf : e.isForwarding = true) : more = newer ∧ .forwarded host l.stream.request f = e ∧
        .entered .forward :: l.log = older :=
    (List.append_cons_inj_of_notMem
      (fun hmem => by rw [(hmore e hmem).forwarding] at hf; cases hf)
      (fun hmem => by rw [(hbefore e hmem).forwarding] at hf; cases hf)).mp (hlog.symm.trans hsplit)
  refine ⟨fun _ => htaking, fun _ _ _ => .inl hphase, fun _ => ?_,
    fun _ newer e older hsplit hf m => ?_, fun newer host' request m panic older hsplit => ?_,
    fun e he ht => ?_⟩
  · exact ⟨_, hlog ▸ List.mem_append_cons_self, rfl⟩
  · obtain ⟨-, -, rfl⟩ := unique hsplit hf
    exact Nat.le_trans (hl.ran_le _) (count_posted_le [.entered .forward] l.log _)
  · obtain ⟨rfl, he, -⟩ := unique hsplit rfl
    injection he with _ _ hf
    exact hcame m (congrArg Forwarding.handover hf)
  · rw [htaking e he] at ht
    cases ht

/-- **A phase that is complete** leads into the wait if it was the forwarding. -/
theorem next (h : l.Owing) (hl : Reached (some k) l) (hx : l.stream.Traced k .next s new is) :
    (l.become s.advanced).Owing := by
  by_cases hp : l.stream.phase = .forward
  · exact h.forwarded hl hp hx
  have hphase : s.phase = l.stream.phase := hx.executed.phase
  have hnext : l.stream.phase ∉ [.awaitResponse, .respond, .done] := by
    cases hx.executed with
    | next hw ha hp => exact hp
  refine h.executed hx.executed hp [.stat (.phaseCompleted s.phase)] rfl ?_ rfl ?_ ?_
  · rw [hphase]
    refine List.forall_mem_singleton.mpr ⟨rfl, ?_⟩
    revert hnext
    cases l.stream.phase <;> first | exact fun _ => rfl | exact absurd List.mem_cons_self
  all_goals
    rw [become_stream, advanced_phase, hphase]
    revert hnext hp
    cases l.stream.phase <;> decide

/-- **A rest** leaves the stream where it is. -/
theorem rest (h : l.Owing) (hx : l.stream.Traced k .rest s new is) (hc : s.board.claimed = false) :
    (l.become s).Owing := by
  have hp : l.stream.phase ≠ .forward := by
    intro hp
    cases hx.executed with
    | pause hw hside => rw [entered_phase, hp] at hside; cases hside
    | rest hw ha hwhy =>
      rcases hwhy with hwait | hclaimed
      · exact absurd (hp.symm.trans hwait) nofun
      · rw [hc] at hclaimed; cases hclaimed
  have hphase : s.phase = l.stream.phase := hx.executed.phase
  exact h.executed hx.executed hp [] rfl (by simp) rfl (by rw [become_stream, hphase])
    fun hlate => by rw [become_stream, hphase]; exact hlate

/-- Of a fresh stream nothing was asked yet. -/
theorem fresh (id : StreamId) (settings : Settings) : Owing (.fresh (σ := σ) id settings) := by
  have hlog (e) (he : e ∈ (Life.fresh (σ := σ) id settings).log) : e = .stat .created :=
    List.mem_singleton.mp he
  exact
    { untaken := fun _ e he => by rw [hlog e he]; rfl
      sent := fun e he hf => by rw [hlog e he] at hf; cases hf
      handed := nofun
      owed := nofun
      answered := fun newer host request m panic older hsplit => by
        cases hlog _ (hsplit ▸ List.mem_append_cons_self)
      taken := fun e he ht => by rw [hlog e he] at ht; cases ht }

end Life.Owing

namespace Lived

variable {settings : Settings} {Answers : Handover → Prop} {l : Life σ}

/-- **The books on the forwarded request** are kept by each step of a hale life. -/
theorem upheld_owing : Upheld settings Answers fun _ (l : Life σ) => l.Owing where
  fresh id := .fresh id settings
  add h r := h.keep [] rfl (by simp) (List.Subset.refl _) (fun _ _ => rfl) .rfl id
  outside h _ hlog hnew :=
    h.keep _ hlog (fun e he => Event.aside_of_isOutside (hnew e he)) (List.Subset.refl _)
      (fun _ _ => rfl) .rfl id
  direct h _ hp m :=
    h.keep _ hp.log (fun e he => Event.aside_of_pass (hp.kinds e he)) (List.Subset.refl _)
      (fun _ _ => rfl) .rfl id
  take {l p} hale h hi := by
    refine h.keep [] rfl (by simp) (List.subset_cons_self p l.ran) (fun hwait m => ?_) .rfl id
    refine List.count_cons_of_ne fun hpm => ?_
    rcases hi with hi | ⟨generation, hi⟩
    · rw [hpm] at hi
      rcases hi with hi | hi
      · exact hale.not_claimed hi
      · exact hi hwait
    · rw [hpm] at hi
      cases hi
  opened h howing hp ho := howing.opened h.reached hp ho
  next h howing hl hx := howing.next h.reached hx
  goto h howing hl hx := by
    obtain ⟨point, hp, rfl⟩ := hx.executed.of_goto
    exact howing.filtered hx.executed hp [] rfl (by simp) rfl nofun
  jump h howing hl hx hj := by
    obtain ⟨point, hp, hq⟩ := hx.executed.of_jump
    refine howing.filtered hx.executed hp [.jumped _] rfl (by simpa using ⟨rfl, rfl⟩) rfl ?_
    rcases hq with rfl | rfl <;> nofun
  rest h howing hl hx hc := howing.rest hx hc

/-- **No hale life forgets what it owes.** -/
theorem owing {start : Option Nat} (h : Lived settings Answers start l) (hale : l.Hale) : l.Owing :=
  upheld_owing.holds h hale

end Lived

/-! ## The ways to rest -/

namespace Life

/-- **The stream waits for the host**, to whom it forwarded the request once.  No response was taken
in, and one that came is a job still due. -/
structure Awaiting (l : Life σ) : Prop extends Waits l where
  forwarded : l.log.countP Event.isForwarding = 1
  untaken : ∀ e ∈ l.log, e.isTaking = false
  owed : ∀ newer e older, l.log = newer ++ e :: older → e.isForwarding = true →
    ∀ m, .scheduled (.response m) ∈ newer → l.Due ⟨.response m, false⟩

variable {l : Life σ}

theorem Owing.awaiting (h : l.Owing) (hw : l.Waits) (hl : Throughout Event.Lawful l.log) :
    l.Awaiting where
  toWaits := hw
  forwarded := by
    refine Nat.le_antisymm (Event.Lawful.forwards_once hl).countP_le_one ?_
    exact List.countP_pos_iff.mpr (h.handed hw.phase)
  untaken := h.untaken (by rw [hw.phase]; exact Nat.le_refl _)
  owed newer e older hsplit hf m hm := by
    have howed := h.owed hw.phase newer e older hsplit hf m
    have hmore := count_posted_lt (e :: older) hm
    rw [Due, hsplit]
    exact Nat.lt_of_le_of_lt (Nat.le_trans howed (count_posted_le [e] older _)) hmore

/-- **A response that is due ends the wait** when its job is run. -/
theorem Waits.executes (hw : l.Waits) (hc : l.stream.board.claimed = false) {m : Message}
    (hdue : l.Due ⟨.response m, false⟩) (c : Surroundings σ ε) (env : ε) :
    l.Executes (.run ⟨.response m, false⟩ c env) 0 (l.stream.responded m) :=
  .intro (t := ⟨l.stream.responded m, env⟩) hdue (.response hc hw.phase) .refl ⟨hc, nofun⟩

end Life

/-- **The one answer of the host is the one taken in.** -/
theorem Lived.mem_ran_of_taking {settings : Settings} {Answers : Handover → Prop} {l : Life σ}
    (h : Lived settings Answers none l) (hale : l.Hale) (hnone : ∀ x, ¬ Answers x)
    {host : Host} {request m : Message} {panic : Option Panic}
    (hf : .forwarded host request ⟨.responded m, panic⟩ ∈ l.log) {e : Event σ} (he : e ∈ l.log)
    (ht : e.isTaking = true) : ⟨.response m, false⟩ ∈ l.ran := by
  obtain ⟨m', hran⟩ := (h.owing hale).taken e he ht
  have hposted : ⟨.response m', false⟩ ∈ posted l.log := List.count_pos_iff.mp
    (Nat.lt_of_lt_of_le (List.count_pos_iff.mpr hran) (h.reached.ran_le _))
  rcases h.replying.board.delivered m' (scheduled_of_posted hposted rfl) with hd | hd
  · obtain ⟨host', request', panic', hf'⟩ := hd
    have hsame := (Event.Lawful.forwards_once h.reached.onCourse.lawful).eq_of_mem hf hf' rfl rfl
    injection hsame with hhost hrequest hforwarding
    injection hforwarding with hhandover
    rw [Handover.responded.inj hhandover]
    exact hran
  · exact absurd hd (hnone _)

open Life in
/-- **A live stream rests in one of three ways**, as long as no panic of a collaborator, a converter
or a farewell broke off a job: before its request was accepted; paused by a filter of the phase it
stands at, as it published; or waiting for the host, with the request forwarded once and no response
taken in.  One that came meanwhile is still due; so **an answer given at once, in the course of the
forwarding, is not lost**: running its job takes it in, unless a response was taken in before, and
without other answers it was this one. -/
theorem rests_in_three_ways (id : StreamId) (settings : Settings) (deeds : List (Deed σ ε))
    (hc : (after id settings deeds).stream.claimed = false)
    (hw : ∀ e ∈ (after id settings deeds).log, e.isEscape = false) :
    let l := after id settings deeds
    (l.Unstarted ∨ (∃ i, l.PausedAt i) ∨ l.Awaiting) ∧
      ¬ (l.Unstarted ∧ ∃ i, l.PausedAt i) ∧ ¬ (l.Unstarted ∧ l.Awaiting) ∧
      ¬ ((∃ i, l.PausedAt i) ∧ l.Awaiting) ∧
      ∀ host request m panic, .forwarded host request ⟨.responded m, panic⟩ ∈ l.log →
        (l.Awaiting ∧ l.Due ⟨.response m, false⟩ ∧ ∀ (c : Surroundings σ ε) env,
          l.Executes (.run ⟨.response m, false⟩ c env) 0 (l.stream.responded m)) ∨
        (∃ e ∈ l.log, e.isTaking = true) ∧
          ((∀ x, .answer x ∉ deeds) → ⟨.response m, false⟩ ∈ l.ran) := by
  intro l
  have h := lived_after id settings deeds
  have hale : l.Hale := ⟨hc, hw⟩
  have howing := h.owing hale
  have hlawful : Throughout Event.Lawful l.log := h.reached.onCourse.lawful
  refine ⟨?_, ?_, ?_, ?_, fun host request m panic hf => ?_⟩
  · rcases h.stands hale with hs | hs | hs
    · exact .inl hs
    · exact .inr (.inl hs)
    · exact .inr (.inr (howing.awaiting hs hlawful))
  · rintro ⟨hs, i, hs'⟩
    exact absurd (hs.awake.symm.trans hs'.pausedBy) nofun
  · rintro ⟨hs, hs'⟩
    exact absurd (hs.phase.symm.trans hs'.phase) nofun
  · rintro ⟨⟨i, hs⟩, hs'⟩
    exact absurd (hs'.awake.symm.trans hs.pausedBy) nofun
  · rcases howing.sent _ hf rfl with hwait | ⟨-, e, he, ht⟩
    · have hawaiting := howing.awaiting ((h.stands hale).waits hwait) hlawful
      obtain ⟨newer, older, hsplit⟩ := List.append_of_mem hf
      have hcame := howing.answered newer host request m panic older hsplit
      have hdue := hawaiting.owed newer _ older hsplit rfl m hcame
      exact .inl ⟨hawaiting, hdue, fun c env => hawaiting.executes hc hdue c env⟩
    · exact .inr ⟨⟨e, he, ht⟩, fun hnone => h.mem_ran_of_taking hale hnone hf he ht⟩

/-! ## A host that answers at once -/

/-- There is always a route and a host, and the host answers before the forwarding is over. -/
def answeredAtOnce : List (Deed Unit Unit) :=
  [.add passing (.request () .afterRoute), .receive {},
    .run ⟨.receive {}, false⟩
      { Surroundings.secluded passing with
        routing := ⟨some fun _ => .ok (some default)⟩
        choose := fun _ _ _ => (.ok (.ok default), ())
        forward := fun _ _ _ _ => ({ handover := .responded {} }, ()) } ()]

open Life in
/-- The stream waits for an answer that has come. -/
theorem rests_in_three_ways_answeredAtOnce :
    let l := after ⟨1⟩ {} answeredAtOnce
    l.stream.claimed = false ∧ (∀ e ∈ l.log, e.isEscape = false) ∧ l.Awaiting ∧
      l.Due ⟨.response {}, false⟩ := by
  intro l
  have hc : l.stream.claimed = false := by decide +kernel
  have hw : ∀ e ∈ l.log, e.isEscape = false := by decide +kernel
  have hphase : l.stream.phase = .awaitResponse := by decide +kernel
  have hawake : l.stream.pausedBy = none := by decide +kernel
  obtain ⟨hways, -⟩ := rests_in_three_ways ⟨1⟩ {} answeredAtOnce hc hw
  refine ⟨hc, hw, ?_, by decide +kernel⟩
  rcases hways with hs | ⟨i, hs⟩ | hs
  · exact absurd (hs.phase.symm.trans hphase) nofun
  · exact absurd (hs.pausedBy.symm.trans hawake) nofun
  · exact hs

end FilterProxy

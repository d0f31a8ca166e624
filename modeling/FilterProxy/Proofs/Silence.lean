import FilterProxy.Proofs.Deeds

/-!
# Proofs/Silence — what is left to a stream once it is claimed

From the first claim on a stream executes no phase, calls no collaborator and sets no time limit,
and it publishes its ending at most (`Event.Hushed`).  That is a law of every log, for what moves
and releases keep holds of every board (`Reached.keeps`).  Nor does a claimed stream begin a pause,
and **no job but the release changes it** (`Turn.exec_of_claimed`).
-/

namespace FilterProxy

variable {σ ε : Type}

open Board FilterSet FilterProxy.Stream Life

/-! ## What holds of every board -/

/-- **What moves keep, and releases of condemned streams, holds of every board.** -/
theorem Reached.keeps {K : Board σ → Prop}
    (hfresh : ∀ id settings, K (Stream.create (σ := σ) id settings).board)
    (hmove : ∀ b b', b.Books → Move b b' → K b → K b')
    (hrelease : ∀ (s : Stream σ) (r : Ending) (β : Behaviour σ), s.Condemned r → K s.board →
      K (s.release β r).2.board)
    {start : Option Nat} {l : Life σ} (h : Reached start l) : K l.stream.board := by
  have moves {b b' : Board σ} (hb : b.Books) (hm : Moves b b') (hK : K b) : K b' := by
    induction hm with
    | refl => exact hK
    | tail hm h ih => exact hmove _ _ (Moves.books hm hb) h ih
  induction h with
  | fresh id settings => exact hfresh id settings
  | add h r ih => exact ih
  | outside new h hm hlog hnew ih => exact moves h.orderly.books hm ih
  | direct h hp m ih => exact moves h.orderly.books hp.moves ih
  | @finish l h β ending ih =>
    cases hc : l.stream.board.claimed with
    | true => rw [finish_of_claimed β hc]; exact ih
    | false =>
      rw [finish_of_unclaimed β hc]
      exact hrelease _ ending β (h.orderly.condemned_claim hc ending)
        (hmove _ _ h.orderly.books (.claim _ ending) ih)
  | take h hp hr ih => exact ih
  | release h hp hj β ih => exact hrelease _ _ β (h.orderly.condemned_due hp hj) ih
  | receive h hc hp m ih => exact ih
  | resume h hc hp ih => exact hmove _ _ h.orderly.books (.publish _ nofun hc) ih
  | reroute h hc hp hlt hr ih =>
    exact moves h.orderly.books (.tail (.single (.publish _ (s := .running) nofun hc))
      (.edit ⟨rfl, rfl, rfl, rfl, rfl, .inr rfl, id⟩)) ih
  | @response l h hc hp m ih =>
    have hclose : Move l.stream.board l.stream.board.closeReply.2 :=
      .edit ⟨rfl, rfl, rfl, rfl, rfl, .inr rfl, fun _ => rfl⟩
    exact moves h.orderly.books (.tail (.single hclose) (.note _ rfl)) ih
  | halt h hc ih => exact ih
  | stay h hl hx hlast ih => exact moves h.orderly.books (hx.moves hl) ih
  | next h hl hx ih => exact moves h.orderly.books ((hx.moves hl).tail (.note _ rfl)) ih
  | goto h hl hx ih => exact moves h.orderly.books (hx.moves hl) ih
  | jump h hl hx hj ih => exact moves h.orderly.books ((hx.moves hl).tail (.note _ rfl)) ih

/-! ## Hushed logs -/

/-- **After a claim** no event is an effect, and a status is the claimed ending, published once. -/
structure Event.Hushed (e : Event σ) (older : List (Event σ)) : Prop where
  effect : claims older ≠ [] → e.isEffect = false
  status : claims older ≠ [] → ∀ s, e.status? = some s →
    ∃ r, claims older = [r] ∧ s = .finished r ∧ ∀ r', .finished r' ∉ statuses older

namespace Event

theorem isEffect_of_isQuiet {e : Event σ} (h : e.isQuiet = true) : e.isEffect = false := by
  cases e <;> first | rfl | cases h

/-- An event that has no effect and publishes nothing is hushed. -/
theorem hushed_of_silent {e : Event σ} (he : e.isEffect = false) (hs : e.status? = none)
    (older : List (Event σ)) : e.Hushed older :=
  ⟨fun _ => he, fun _ s h => by rw [hs] at h; cases h⟩

/-- Before any claim every event is hushed. -/
theorem hushed_of_unclaimed {older : List (Event σ)} (h : claims older = []) (e : Event σ) :
    e.Hushed older :=
  ⟨fun hn => absurd h hn, fun hn => absurd h hn⟩

end Event

open Event

/-- The events of a claim are hushed. -/
theorem Throughout.append_claimEvents {log : List (Event σ)} (h : Throughout Hushed log)
    (ending : Ending) : Throughout Hushed (claimEvents ending ++ log) := by
  refine h.append fun newer e added hsplit => ?_
  have he : e ∈ claimEvents ending := hsplit ▸ List.mem_append_cons_self
  rcases mem_claimEvents he with rfl | rfl | rfl <;> exact hushed_of_silent rfl rfl _

/-- **A move keeps the silence.** -/
theorem Board.Move.hushed {b b' : Board σ} (hb : b.Books) (h : Move b b')
    (hlog : Throughout Hushed b.log) : Throughout Hushed b'.log := by
  cases h with
  | edit h => rw [h.log]; exact hlog
  | raise code headers =>
    unfold Board.raise
    split <;> exact Throughout.cons_iff.mpr ⟨hushed_of_silent rfl rfl _, hlog⟩
  | note h =>
    exact Throughout.cons_iff.mpr
      ⟨hushed_of_silent (isEffect_of_isQuiet h) (offBooks_of_isQuiet h).status _, hlog⟩
  | effect h hc => exact Throughout.cons_iff.mpr ⟨hushed_of_unclaimed (hb.unclaimed hc) _, hlog⟩
  | publish h hc => exact Throughout.cons_iff.mpr ⟨hushed_of_unclaimed (hb.unclaimed hc) _, hlog⟩
  | claim ending =>
    cases hc : b.claimed with
    | true => rw [claim_of_claimed hc]; exact hlog
    | false => rw [claim_of_unclaimed hc]; exact hlog.append_claimEvents ending
  | terminate ending ho =>
    cases hc : b.claimed with
    | true => rw [terminate_of_claimed hc]; exact hlog
    | false =>
      rw [terminate_of_unclaimed ho hc]
      exact Throughout.cons_iff.mpr ⟨hushed_of_silent rfl rfl _, hlog.append_claimEvents ending⟩

theorem Board.Moves.hushed {b b' : Board σ} (hb : b.Books) (h : Moves b b')
    (hlog : Throughout Hushed b.log) : Throughout Hushed b'.log := by
  induction h with
  | refl => exact hlog
  | tail hm h ih => exact h.hushed (Moves.books hm hb) ih

/-- **A release publishes its ending once**, after the farewells. -/
theorem Stream.Condemned.hushed {s : Stream σ} {r : Ending} (h : s.Condemned r) (β : Behaviour σ)
    (hlog : Throughout Hushed s.board.log) : Throughout Hushed (s.release β r).2.board.log := by
  obtain ⟨count, hp⟩ := parting_destroy β s.filters s.board h.books.owned
  have hfarewells := hp.moves.hushed h.books hlog
  have hfrozen := hp.moves.frozen h.claimed
  rw [release_eq]
  cases hpanic : (destroy β s.filters s.board).1 with
  | some p => exact hfarewells
  | none =>
    refine Throughout.cons_iff.mpr ⟨⟨fun _ => rfl, fun _ s' hs => ?_⟩, hfarewells⟩
    refine ⟨r, hfrozen.claims.trans h.claims, (Option.some.inj hs).symm, fun r' => ?_⟩
    rw [hfrozen.statuses]
    exact h.statuses r'

/-- **Every log is hushed** from the first claim on. -/
theorem Reached.hushed {start : Option Nat} {l : Life σ} (h : Reached start l) :
    Throughout Hushed l.log :=
  Reached.keeps (K := fun b => Throughout Hushed b.log)
    (fun _ _ => Throughout.cons_iff.mpr ⟨hushed_of_silent rfl rfl _, .nil⟩)
    (fun _ _ hb h hlog => h.hushed hb hlog) (fun _ _ β h hlog => h.hushed β hlog) h

/-! ## Pauses and jobs -/

/-- A drive leaves a claimed stream awake. -/
theorem leads_awake (β : Behaviour σ) (l : Life σ) :
    Leads β (fun k s => Reached (some k) (l.become s))
      (fun _ s => s.board.claimed = true → s.pausedBy = none) where
  owned h := h.orderly.books.owned
  notDone h := h.poised.1
  halt h _ _ := h.poised.2
  stay := by
    intro k s step s' new is h hl hx _ _ hc
    cases hx with
    | pause _ _ _ _ _ _ hn => rw [hc] at hn; cases hn
    | _ hw ha => rw [ha.pausedBy]; exact h.poised.2
  finish := by
    intro k s step s' new is h hl hx _ ending hc
    rcases s'.finish_pausedBy β ending with hs | hs
    · rw [hs] at hc ⊢
      cases hx with
      | pause _ _ _ _ _ _ hn => rw [hc] at hn; cases hn
      | _ hw ha => rw [ha.pausedBy]; exact h.poised.2
    · exact hs
  next h hl hx := h.next hl hx
  goto h hl hx := h.goto hl hx
  jump h hl hx hj := h.jump hl hx hj

/-- **To a claimed stream every job but the release is nothing.** -/
theorem Turn.exec_of_claimed (c : Surroundings σ ε) {t : Turn σ ε}
    (hc : t.stream.board.claimed = true) {job : Job} (hj : ∀ ending, job ≠ .release ending) :
    t.exec c job = (none, t) := by
  have hran := Turn.ran_exec c t job
  generalize t.exec c job = r at hran ⊢
  cases hran with
  | idle => rfl
  | drive h => cases h <;> simp_all
  | timeout => rw [Turn.alone, finish_of_claimed c.behaviour hc]
  | release ending => exact absurd rfl (hj ending)

namespace Reached

variable {l : Life σ}

/-- A job leaves a claimed stream awake, or as it was. -/
theorem awake_run (h : Reached none l) (p : Posting) (c : Surroundings σ ε) (env : ε)
    (hc : (l.next (.run p c env)).stream.board.claimed = true) :
    (l.next (.run p c env)).stream.pausedBy = none ∨
      l.stream.Awake (l.next (.run p c env)).stream := by
  by_cases hp : l.Due p
  case neg => rw [Life.next, if_neg hp]; exact .inr ⟨rfl, rfl⟩
  rw [Life.next, if_pos hp] at hc ⊢
  have hran := Turn.ran_exec c ⟨l.stream, env⟩ p.job
  generalize Turn.exec c p.job ⟨l.stream, env⟩ = r at hran hc ⊢
  rw [claimed_survive] at hc
  have hsurvive := awake_survive r.1 r.2.stream
  dsimp only
  generalize p.job = job at hran
  cases hran with
  | idle => exact .inr ⟨rfl, rfl⟩
  | @drive _ k s ho =>
    rw [hsurvive.pausedBy]
    exact .inl (Turn.drive_induction c (leads_awake c.behaviour l) k ⟨s, env⟩ (h.opened ho) hc)
  | timeout =>
    rcases l.stream.finish_pausedBy c.behaviour .stopTimeout with hs | hs
    · rw [Turn.alone, hs]
      exact .inr (awake_survive _ _)
    · exact .inl (hsurvive.pausedBy.trans hs)
  | release ending =>
    rw [hsurvive.pausedBy, Turn.alone, release_eq]
    exact .inl rfl

/-- **No pause is begun in the course of a deed that leaves the stream claimed.** -/
theorem awake_next (h : Reached none l) (d : Deed σ ε)
    (hc : (l.next d).stream.board.claimed = true) :
    (l.next d).stream.pausedBy = none ∨ l.stream.Awake (l.next d).stream := by
  by_cases hrun : ∃ p c env, d = .run p c env
  · obtain ⟨p, c, env, rfl⟩ := hrun
    exact h.awake_run p c env hc
  have hyields := h.yields_next d
  generalize l.next d = l' at hyields
  cases hyields with
  | add | board | direct => exact .inr ⟨rfl, rfl⟩
  | @abort c _ _ r _ is m cause =>
    rcases ((l.directly r m is).stream.noteAbort cause).finish_pausedBy c.behaviour cause.ending
      with
      hs | hs
    · rw [become_stream, hs]
      have ha : l.stream.Awake (l.directly r m is).stream := ⟨rfl, rfl⟩
      exact .inr (ha.noteAbort cause)
    · exact .inl hs
  | idle | settled | release => exact absurd ⟨_, _, _, rfl⟩ hrun

end Reached

open Event Life in
/-- **A claimed stream is silent.**  From the first claim on, whatever made it and whatever was
going on, the stream executes no phase, calls no collaborator and sets no time limit, and it
publishes its ending at most, once; it begins no pause; and to it every job but the release is
nothing. -/
theorem silent_once_claimed (id : StreamId) (settings : Settings) (deeds : List (Deed σ ε)) :
    let l := after id settings deeds
    (l.stream.claimed = true ↔ claims l.log ≠ []) ∧
      Throughout (fun e older => claims older ≠ [] → e.isEffect = false ∧ ∀ s, e.status? = some s →
        ∃ r, claims older = [r] ∧ s = .finished r ∧ ∀ r', .finished r' ∉ statuses older) l.log ∧
      (∀ d : Deed σ ε, (l.next d).stream.claimed = true →
        (l.next d).stream.pausedBy = none ∨ l.stream.Awake (l.next d).stream) ∧
      (l.stream.claimed = true → ∀ p (c : Surroundings σ ε) env, (∀ r, p.job ≠ .release r) →
        (l.next (.run p c env)).stream = l.stream) := by
  intro l
  have h : Reached none l := reached_after id settings deeds
  refine ⟨⟨fun hc => ?_, fun hn => ?_⟩, fun newer e older hsplit hn => ?_, fun d => h.awake_next d,
    fun hc p c env hj => ?_⟩
  · obtain ⟨r, hr⟩ := h.orderly.books.claimed hc
    rw [show claims l.log = _ from hr]
    exact List.cons_ne_nil _ _
  · cases hc : l.stream.board.claimed with
    | true => exact hc
    | false => exact absurd (h.orderly.books.unclaimed hc) hn
  · have he := h.hushed newer e older hsplit
    exact ⟨he.effect hn, he.status hn⟩
  · rw [Life.next]
    split
    · rw [Turn.exec_of_claimed c hc hj]
      rfl
    · rfl

end FilterProxy

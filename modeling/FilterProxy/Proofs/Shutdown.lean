import FilterProxy.Proofs.Accounts
import FilterProxy.Proofs.Cleanup
import FilterProxy.Proofs.Owed
import FilterProxy.Proofs.Places
import FilterProxy.Proofs.Silence
import FilterProxy.Proofs.Teardown

/-!
# Proofs/Shutdown — a shutdown ends every stream of the proxy

A shutdown claims every listed stream that nobody has claimed, strikes it off, and leaves the
releases to jobs.  **These are the streams it counts**: all that are listed, but for those a filter
ended before they were entered.  From then on such a stream can only wait for its release
(`Life.Awaits`): whatever else happens to it calls no filter, no collaborator and no writer.
-/

namespace FilterProxy

variable {σ ε : Type}

open Board FilterSet FilterProxy.Stream Life

/-! ## Streams that wait for their release -/

/-- A direct run of the filters aside, what comes from outside of the phases calls nobody. -/
theorem Event.isEffect_of_isOutside {e : Event σ} (h : e.isOutside = true) :
    e.isEffect = false := by
  cases e <;> first | rfl | cases h

/-- Who is given a handle. -/
def Event.handed? : Event σ → Option (Side × σ)
  | .added side _ filter => some (side, filter)
  | _ => none

theorem Event.handed?_of_addressee {e : Event σ} (h : e.addressee? = none) : e.handed? = none := by
  cases e <;> first | rfl | cases h

/-- After a claim nothing is an effect. -/
theorem Reached.isEffect_of_claims {start : Option Nat} {l : Life σ} (h : Reached start l)
    {new log : List (Event σ)} (hlog : l.log = new ++ log) (hn : claims log ≠ []) :
    ∀ e ∈ new, e.isEffect = false := by
  intro e he
  obtain ⟨newer, added, rfl⟩ := List.append_of_mem he
  refine (h.hushed newer e (added ++ log) (by simpa using hlog)).effect fun hnone => hn ?_
  rw [claims, List.filterMap_append, List.append_eq_nil_iff] at hnone
  exact hnone.2

/-- **The stream was claimed for `r` and waits for its release**, which is not taken up yet. -/
structure Life.Awaits (l : Life σ) (r : Ending) : Prop where
  reached : Reached none l
  claim : claims l.log = [r]
  release : releases l.log = [r]
  waits : .release r ∉ l.ran.map (·.job)
  notDone : l.stream.phase ≠ .done

/-- Nobody was given a handle on the way from one life to the other. -/
def Life.Ungiven (l l' : Life σ) : Prop :=
  ∃ new, l'.log = new ++ l.log ∧ ∀ e ∈ new, e.handed? = none

namespace Life.Ungiven

variable {l l' : Life σ}

theorem of_eq (h : l'.log = l.log) : l.Ungiven l' := ⟨[], h, List.forall_mem_nil _⟩

theorem note (h : l.Ungiven l') {e : Event σ} (he : e.handed? = none) {l'' : Life σ}
    (hlog : l''.log = e :: l'.log) : l.Ungiven l'' := by
  obtain ⟨new, hnew, hnone⟩ := h
  exact ⟨e :: new, by rw [hlog, hnew]; rfl, List.forall_mem_cons.mpr ⟨he, hnone⟩⟩

/-- An ending gives nobody a handle. -/
theorem terminate (l : Life σ) (ending : Ending) (ho : l.stream.board.owned = true) :
    l.Ungiven (l.become (l.stream.terminate ending).2) := by
  unfold Stream.terminate
  cases hc : l.stream.board.claimed with
  | true => rw [terminate_of_claimed hc]; exact .of_eq rfl
  | false =>
    rw [terminate_of_unclaimed ho hc]
    refine ⟨.scheduled (.release ending) :: claimEvents ending, rfl,
      List.forall_mem_cons.mpr ⟨rfl, fun e he => ?_⟩⟩
    rcases mem_claimEvents he with rfl | rfl | rfl <;> rfl

end Life.Ungiven

namespace Reached

variable {l : Life σ}

/-- A claimed stream does nothing on a job but its release. -/
theorem stream_run_of_claimed (hc : l.stream.board.claimed = true) {p : Posting}
    (hj : ∀ r, p.job ≠ .release r)
    (c : Surroundings σ ε) (env : ε) : (l.next (.run p c env)).stream = l.stream := by
  rw [Life.next]
  split
  · rw [Turn.exec_of_claimed c hc hj]
    rfl
  · rfl

/-- **Nothing but a direct run has a claimed stream call a filter.** -/
theorem uncalled_next (h : Reached none l) (hc : l.stream.board.claimed = true) {d : Deed σ ε}
    (hd : d.isDirect = false) : ∃ new, (l.next d).log = new ++ l.log ∧ ∀ e ∈ new, ∀ side,
      e.call? side = none := by
  by_cases hrun : ∃ p c env, d = .run p c env ∧ ∀ r, p.job ≠ .release r
  · obtain ⟨p, c, env, rfl, hj⟩ := hrun
    exact ⟨[], congrArg (·.board.log) (stream_run_of_claimed hc hj c env), List.forall_mem_nil _⟩
  have hyields := h.yields_next d
  generalize l.next d = l' at hyields
  cases hyields with
  | add new f hs hm hlog hnew =>
    exact ⟨new, hlog, fun e he side => Event.call?_of_isOutside side (hnew e he)⟩
  | board new _ hm hlog hnew =>
    exact ⟨new, hlog, fun e he side => Event.call?_of_isOutside side (hnew e he)⟩
  | direct => cases hd
  | abort => cases hd
  | idle hp hj => exact absurd ⟨_, _, _, rfl, hj⟩ hrun
  | settled hp hj => exact absurd ⟨_, _, _, rfl, hj⟩ hrun
  | @release p c env r hp hj =>
    obtain ⟨escaped, hescaped, houtside⟩ := survive_log (l.stream.release c.behaviour r).1
      (l.stream.release c.behaviour r).2
    obtain ⟨new, hlog, hnew⟩ := release_log c.behaviour r l.stream h.orderly.books.owned
    refine ⟨escaped ++ new, ?_, fun e he side => ?_⟩
    · rw [List.append_assoc, Life.log, Life.log, ← hlog]
      exact hescaped
    · rcases List.mem_append.mp he with he | he
      · exact Event.call?_of_isOutside side (houtside e he)
      · exact Event.call?_of_isEnding side (hnew e he)

/-- **So do any deeds** of which none is a direct run. -/
theorem uncalled_foldl (more : List (Deed σ ε)) (h : Reached none l) {r : Ending}
    (hr : claims l.log = [r]) (hd : ∀ d ∈ more, d.isDirect = false) :
    ∃ new, (more.foldl Life.next l).log = new ++ l.log ∧ ∀ e ∈ new, ∀ side,
      e.call? side = none := by
  induction more generalizing l with
  | nil => exact ⟨[], rfl, List.forall_mem_nil _⟩
  | cons d more ih =>
    have hc : l.stream.board.claimed = true := h.orderly.books.claimed_of_claims hr
    obtain ⟨new, hlog, hnew⟩ := h.uncalled_next hc (hd d List.mem_cons_self)
    obtain ⟨later, hlater, hlaterNew⟩ := ih (h.next_deed d) (h.claims_foldl [d] hr)
      fun d' hd' => hd d' (List.mem_cons_of_mem d hd')
    refine ⟨later ++ new, by rw [List.foldl_cons, hlater, hlog, List.append_assoc], fun e he => ?_⟩
    rcases List.mem_append.mp he with he | he
    · exact hlaterNew e he
    · exact hnew e he

/-- **A direct run of the filters of a claimed stream** gives nobody a handle… -/
theorem ungiven_direct (h : Reached none l) (hc : l.stream.board.claimed = true)
    (c : Surroundings σ ε)
    (message : Message) (convert : Converter) : l.Ungiven (l.next (.direct c message convert)) := by
  have hyields := h.yields_next (.direct c message convert)
  generalize l.next (.direct c message convert) = l' at hyields
  have passed {r : SetPassed σ} {new is} (m : Message)
      (hp : ResponsePass .beforeSend 0 l.stream.filters l.stream.board r new is) :
      l.Ungiven (l.directly r m is) := by
    refine ⟨new, hp.log, fun e he => ?_⟩
    rcases hp.kinds e he with hkind | hkind <;> cases e <;> first | rfl | cases hkind
  cases hyields with
  | board _ hd => cases hd
  | direct m hp => exact passed m hp
  | @abort c _ _ r _ is m cause hp =>
    have hnoted :
      l.Ungiven ((l.directly r m is).become ((l.directly r m is).stream.noteAbort cause)) := by
      cases cause with
      | verdict => exact passed m hp
      | panic => exact (passed m hp).note rfl rfl
    obtain ⟨-, -, -, hmoves, -⟩ := noteAbort_spec (l.directly r m is).stream cause
    rwa [finish_of_claimed c.behaviour (hmoves.claimed (hp.moves.claimed hc))]

/-- …nor does a job. -/
theorem ungiven_run (h : Reached none l) (hc : l.stream.board.claimed = true) (p : Posting)
    (c : Surroundings σ ε) (env : ε) : l.Ungiven (l.next (.run p c env)) := by
  by_cases hj : ∃ r, p.job = .release r
  case neg =>
    have hstays := stream_run_of_claimed hc (fun r hr => hj ⟨r, hr⟩) c env
    exact .of_eq (congrArg (·.board.log) hstays)
  obtain ⟨r, hj⟩ := hj
  rw [Life.next]
  split
  case isFalse => exact .of_eq rfl
  obtain ⟨new, hlog, hnew⟩ := release_log c.behaviour r l.stream h.orderly.books.owned
  have hreleased : l.Ungiven (l.become (l.stream.release c.behaviour r).2) :=
    ⟨new, hlog, fun e he => by have := hnew e he; cases e <;> first | rfl | cases this⟩
  rw [hj]
  change l.Ungiven
    { l with stream := Life.survive (l.stream.release c.behaviour r).1 _, ran := p :: l.ran }
  cases (l.stream.release c.behaviour r).1 with
  | none => exact hreleased
  | some panic => exact hreleased.note (e := .escaped panic) rfl rfl

/-- **None but a filter that is added** is given a handle of a claimed stream. -/
theorem ungiven_next (h : Reached none l) (hc : l.stream.board.claimed = true) {d : Deed σ ε}
    (hd : ∀ β r, d ≠ .add β r) : l.Ungiven (l.next d) := by
  have ho := h.orderly.books.owned
  have scheduled (job : Job) : l.Ungiven (l.post job) := by
    rw [Life.post, schedule_of_owned ho]
    exact (Ungiven.of_eq rfl).note (e := .scheduled job) rfl rfl
  cases d with
  | add β r => exact absurd rfl (hd β r)
  | receive m => exact scheduled _
  | resume => exact scheduled _
  | terminate ending => exact .terminate l ending ho
  | act side filter index program =>
    obtain ⟨new, hlog, hnew⟩ := program.log_run_through filter index ho
    exact ⟨new, hlog, fun e he => Event.handed?_of_addressee (hnew e he).1⟩
  | answer x =>
    cases x with
    | kept | dropped => exact .of_eq rfl
    | responded m => exact scheduled _
    | failed failure => exact .terminate l .hostFailure ho
  | direct c message convert => exact h.ungiven_direct hc c message convert
  | run p c env => exact h.ungiven_run hc p c env

/-- **The filters that are given a handle of a claimed stream are those that are added to it.** -/
theorem handed_foldl (more : List (Deed σ ε)) (h : Reached none l) {r : Ending}
    (hr : claims l.log = [r]) :
    ∃ new, (more.foldl Life.next l).log = new ++ l.log ∧
      ∀ e ∈ new, ∀ x, e.handed? = some x → ∃ β r, Deed.add β r ∈ more ∧ x = (r.side, r.filter) := by
  induction more generalizing l with
  | nil => exact ⟨[], rfl, List.forall_mem_nil _⟩
  | cons d more ih =>
    have hc : l.stream.board.claimed = true := h.orderly.books.claimed_of_claims hr
    obtain ⟨later, hlater, hhanded⟩ := ih (h.next_deed d) (h.claims_foldl [d] hr)
    have hfirst : ∃ new, (l.next d).log = new ++ l.log ∧
        ∀ e ∈ new, ∀ x, e.handed? = some x → ∃ β r, d = .add β r ∧ x = (r.side, r.filter) := by
      by_cases hadd : ∃ β r, d = .add β r
      · obtain ⟨β, r, rfl⟩ := hadd
        obtain ⟨new, hlog, hnew⟩ := l.log_add (ε := ε) h.orderly.books.owned β r
        refine ⟨new ++ [.added r.side _ r.filter], by rw [hlog, List.append_assoc]; rfl,
          fun e he x hx => ⟨β, r, rfl, ?_⟩⟩
        rcases List.mem_append.mp he with he | he
        · rw [Event.handed?_of_addressee (hnew e he).1] at hx
          cases hx
        · rw [List.mem_singleton.mp he] at hx
          exact (Option.some.inj hx).symm
      · obtain ⟨new, hlog, hnew⟩ := h.ungiven_next hc fun β r hd => hadd ⟨β, r, hd⟩
        exact ⟨new, hlog, fun e he x hx => by rw [hnew e he] at hx; cases hx⟩
    obtain ⟨new, hlog, hnew⟩ := hfirst
    refine ⟨later ++ new, by rw [List.foldl_cons, hlater, hlog, List.append_assoc],
      fun e he x hx => ?_⟩
    rcases List.mem_append.mp he with he | he
    · obtain ⟨β, r, hmem, heq⟩ := hhanded e he x hx
      exact ⟨β, r, List.mem_cons_of_mem d hmem, heq⟩
    · obtain ⟨β, r, rfl, heq⟩ := hnew e he x hx
      exact ⟨β, r, List.mem_cons_self, heq⟩

end Reached

namespace Life.Awaits

variable {l : Life σ} {r : Ending}

theorem claimed (h : l.Awaits r) : l.stream.board.claimed = true :=
  h.reached.orderly.books.claimed_of_claims h.claim

/-- **A stream that is ended from outside waits for its release.** -/
theorem of_terminate (h : Reached none l) (hc : l.stream.board.claimed = false) (r : Ending) :
    (l.next (.terminate r : Deed σ ε)).Awaits r := by
  have hlog : (l.next (.terminate r : Deed σ ε)).log = .scheduled (.release r)
    :: (claimEvents r ++ l.log) := by
    simp only [Life.next, Stream.terminate, terminate_of_unclaimed h.orderly.books.owned hc]
    rfl
  have hreleases := h.orderly.releases_of_unclaimed hc
  refine ⟨h.next_deed _, ?_, ?_, fun hran => ?_, h.orderly.not_done hc⟩
  · rw [hlog, claims_cons, claims_claimEvents, Life.log, h.orderly.books.unclaimed hc]
    rfl
  · rw [hlog, releases_cons, releases_claimEvents, hreleases]
    rfl
  · obtain ⟨p, hp, hj⟩ := List.mem_map.mp hran
    have hposted : p ∈ posted l.log :=
      List.count_pos_iff.mp (Nat.lt_of_lt_of_le (List.count_pos_iff.mpr hp) (h.ran_le p))
    have hmem : r ∈ releases l.log :=
      List.mem_filterMap.mpr ⟨_, mem_of_posted hposted hj (by simp), rfl⟩
    rw [hreleases] at hmem
    cases hmem

/-- A release that is due is the one waited for. -/
theorem eq_of_due (h : l.Awaits r) {p : Posting} {r' : Ending} (hp : l.Due p)
    (hj : p.job = .release r') :
    r' = r := by
  have hclaims := (h.reached.orderly.condemned_due hp hj).claims
  rw [← Life.log, h.claim] at hclaims
  exact (List.cons.inj hclaims).1.symm

/-- **The wait ends with the release only.** -/
theorem next (h : l.Awaits r) {d : Deed σ ε}
    (hd : ∀ byReply c env, d ≠ .run ⟨.release r, byReply⟩ c env) :
    (l.next d).Awaits r := by
  have hran : .release r ∉ (l.next d).ran.map (·.job) := by
    cases d with
    | run p c env =>
      rw [Life.next]
      split
      · rw [List.map_cons, List.mem_cons]
        rintro (hj | hran)
        · obtain ⟨job, byReply⟩ := p
          obtain rfl : .release r = job := hj
          exact hd byReply c env rfl
        · exact h.waits hran
      · exact h.waits
    | _ => exact h.waits
  have hphase : (l.next d).stream.phase = l.stream.phase := by
    by_cases hrun : ∃ p c env, d = .run p c env ∧ ∀ r, p.job ≠ .release r
    · obtain ⟨p, c, env, rfl, hj⟩ := hrun
      exact congrArg (·.phase) (Reached.stream_run_of_claimed h.claimed hj c env)
    have hyields := h.reached.yields_next d
    generalize l.next d = l' at hyields
    cases hyields with
    | abort m cause hp =>
      obtain ⟨-, -, -, hmoves, heq⟩ := noteAbort_spec (l.directly _ m _).stream cause
      rw [become_stream, finish_of_claimed _ (hmoves.claimed (hp.moves.claimed h.claimed)), heq]
      rfl
    | idle hp hj => exact absurd ⟨_, _, _, rfl, hj⟩ hrun
    | settled hp hj => exact absurd ⟨_, _, _, rfl, hj⟩ hrun
    | @release p c env r' hp hj =>
      obtain rfl := h.eq_of_due hp hj
      obtain ⟨job, byReply⟩ := p
      obtain rfl : job = .release r' := hj
      exact absurd rfl (hd byReply c env)
    | _ => rfl
  refine ⟨h.reached.next_deed d, h.reached.claims_foldl [d] h.claim, ?_, hran, hphase ▸ h.notDone⟩
  have hbooks := (h.reached.next_deed d).orderly.books
  rcases hbooks.releases with hnone | heq
  · have hsub : releases l.log <:+ releases (l.next d).log := (h.reached.suffix_next d).filterMap _
    rw [h.release, Life.log, hnone] at hsub
    cases List.suffix_nil.mp hsub
  · exact heq.trans (h.reached.claims_foldl [d] h.claim)

theorem foldl (deeds : List (Deed σ ε)) (h : l.Awaits r)
    (hd : ∀ d ∈ deeds, ∀ byReply c env, d ≠ .run ⟨.release r, byReply⟩ c env) :
    (deeds.foldl Life.next l).Awaits r := by
  induction deeds generalizing l with
  | nil => exact h
  | cons d deeds ih =>
    exact ih (h.next (hd d List.mem_cons_self)) fun d' hd' => hd d' (List.mem_cons_of_mem d hd')

end Life.Awaits

/-- **A release publishes its ending iff no filter panics** when it is told, as nothing published it
before. -/
theorem Stream.status_release_iff {s : Stream σ} (ho : s.board.owned = true)
    (hc : s.board.claimed = true)
    {r : Ending} (hs : s.board.status ≠ .finished r) (β : Behaviour σ) :
    (s.release β r).2.board.status = .finished r ↔ s.filters.AllCalm β s.board := by
  obtain ⟨count, hp⟩ := parting_destroy β s.filters s.board ho
  rw [← destroy_eq_none_iff, release_eq]
  cases hpanic : (destroy β s.filters s.board).1 with
  | none => exact ⟨fun _ => rfl, fun _ => rfl⟩
  | some p =>
    have hstatus : (destroy β s.filters s.board).2.2.status = s.board.status :=
      (hp.moves.frozen hc).status
    exact ⟨fun h => absurd (hstatus.symm.trans h) hs, nofun⟩

/-! ## The share of a stream that waits for its release -/

namespace Share.Lives

variable {s : Share σ} {l : Life σ} {r : Ending}

/-- An ending from outside is one deed. -/
theorem terminate (h : s.Lives l) (c : Surroundings σ ε) (env : ε) (r : Ending) :
    (s.serve c env (.terminate r)).Lives (l.next (.terminate r : Deed σ ε)) := by
  obtain ⟨m, hm, -, hl⟩ := h.member
  have hwork : (l.next (.terminate r : Deed σ ε)).stream
      = ((Errand.terminate r).work c ⟨m.stream, env⟩).stream.atop s.record := by
    rw [← Errand.work_atop, ← hl]
    rfl
  exact Share.lives_visited (f := fun x => ((Errand.terminate r).work c ⟨x, env⟩).stream) hm
    hwork h.ledger

/-- **The release that is waited for waits in the pool.** -/
theorem mem_jobs (h : s.Lives l) (ha : l.Awaits r) : .release r ∈ s.jobs := by
  have hcount := h.ledger.count_eq (.release r)
  rw [← h.log, ← posted_map_job, List.count_append, List.count_append,
    List.count_eq_zero.mpr ha.waits, count_map_job, count_posted_release, ha.release] at hcount
  have halarms : (s.alarms.map Timer.job).count (.release r) = 0 :=
    List.count_eq_zero.mpr fun hmem => by
      obtain ⟨t, -, ht⟩ := List.mem_map.mp hmem
      cases ht
  have hone : [r].count r = 1 := by simp
  exact List.count_pos_iff.mp (by omega)

theorem status (h : s.Lives l) {m : Member σ} (hm : s.member = some m) :
    l.stream.board.status = m.stream.board.status ∧ l.stream.phase = m.stream.phase := by
  obtain ⟨m', hm', -, hstream⟩ := h.member
  obtain rfl : m = m' := Option.some.inj (hm.symm.trans hm')
  rw [hstream]
  exact ⟨rfl, rfl⟩

end Share.Lives

/-- The incident runs the response filters of the stream outside of its phases. -/
def Incident.isDirect (ref : Nat) : Incident σ → Bool
  | .moment (.errand ref' (.direct _ _)) => ref' = ref
  | _ => false

theorem Incident.Causes.isDirect {c : Surroundings σ ε} {ref : Nat} {x : Incident σ} {d : Deed σ ε}
    (h : x.Causes c ref d) (hx : x.isDirect ref = false) : d.isDirect = false := by
  cases h with
  | errand e env byReply =>
    cases e with
    | direct => simp [Incident.isDirect] at hx
    | _ => rfl
  | _ => rfl

/-- A job is run in the life of a stream only as the pool runs it. -/
theorem Incident.Causes.eq_run {c c' : Surroundings σ ε} {ref : Nat} {x : Incident σ}
    {p : Posting} {env : ε}
    (h : x.Causes c ref (.run p c' env)) : x = .moment (.errand ref (.run p.job)) := by
  generalize hd : (Deed.run p c' env : Deed σ ε) = d at h
  cases h with
  | errand e env' byReply =>
    cases e with
    | run job =>
      obtain ⟨rfl, -, -⟩ : p = ⟨job, byReply⟩ ∧ c' = c ∧ env = env' := by
        simpa [Errand.deed] using hd
      rfl
    | _ => cases hd
  | _ => cases hd

/-- A filter is added in the life of a stream only as it is added to the stream. -/
theorem Incident.Causes.eq_add {c : Surroundings σ ε} {ref : Nat} {x : Incident σ} {β : Behaviour σ}
    {r : Registration σ} (h : x.Causes c ref (.add β r)) : x = .moment (.errand ref (.add r)) := by
  generalize hd : (Deed.add β r : Deed σ ε) = d at h
  cases h with
  | errand e env byReply =>
    cases e with
    | add r' =>
      obtain ⟨-, rfl⟩ : β = c.behaviour ∧ r = r' := by simpa [Errand.deed] using hd
      rfl
    | _ => cases hd
  | _ => cases hd

namespace Proxy

variable {p q : Proxy σ ε} {stillborn : Finset Nat} {ref : Nat} {l : Life σ}

/-! ## The shutdown -/

/-- Nobody has claimed the stream. -/
def isUnclaimed (q : Proxy σ ε) (ref : Nat) : Bool := q.streams[ref]?.any fun m => !m.stream.claimed

/-- Nobody has claimed the stream. -/
def Unclaimed (q : Proxy σ ε) (ref : Nat) : Prop :=
  ∃ m, q.streams[ref]? = some m ∧ m.stream.claimed = false

theorem isUnclaimed_iff : q.isUnclaimed ref = true ↔ q.Unclaimed ref := by
  simp [isUnclaimed, Unclaimed, Option.any_eq_true]

/-- **The streams at `refs` were ended**, and those of them that nobody had claimed are no longer
listed; the others stand as they did. -/
structure Ends (stillborn : Finset Nat) (refs : List Nat) (q q' : Proxy σ ε) : Prop where
  tidy : q'.Tidy stillborn
  surroundings : q'.surroundings = q.surroundings
  ended : ∀ ref ∈ refs, q'.share ref = (q.share ref).serve q.surroundings q.env
    (.terminate .shutdown)
  others : ∀ ref, ref ∉ refs → q'.share ref = q.share ref
  active : ∀ x ∈ q'.active.entries, x ∈ q.active.entries ∧ (x.2 ∈ refs → ¬ q.Unclaimed x.2)

/-- Whoever is ended first leads a life in which it waits for the release. -/
theorem Tidy.awaits (h : q.Tidy stillborn) (hc : q.Unclaimed ref) (c : Surroundings σ ε) (env : ε)
    (r : Ending) :
    ∃ l : Life σ, Reached none l ∧ (q.share ref).Lives l ∧
      (l.next (.terminate r : Deed σ ε)).Awaits r ∧
      ((q.share ref).serve c env (.terminate r)).Lives (l.next (.terminate r : Deed σ ε)) := by
  obtain ⟨m, hm, hc⟩ := hc
  obtain ⟨-, id, settings, deeds, hl⟩ := h.lives ref m hm
  have hreached : Reached none (after id settings deeds) := reached_after ..
  have hunclaimed : (after id settings deeds).stream.board.claimed = false :=
    (hl.claimed hm).trans hc
  exact ⟨_, hreached, hl, .of_terminate hreached hunclaimed r, hl.terminate c env r⟩

/-- **Who ends a stream is told whether anybody had claimed it.** -/
theorem Tidy.terminate_fst (h : q.Tidy stillborn) (r : Ending) :
    (q.terminate ref r).1 = q.isUnclaimed ref := by
  unfold Proxy.terminate visit isUnclaimed
  cases hm : q.streams[ref]? with
  | none => rfl
  | some m =>
    change (m.stream.board.terminate r).1 = !m.stream.claimed
    cases hc : m.stream.claimed with
    | false => rw [terminate_of_unclaimed (h.sound.fit ref m hm).owned hc]; rfl
    | true => rw [terminate_of_claimed hc]; rfl

/-- **A stream is ended.** -/
theorem Tidy.ends_one (h : q.Tidy stillborn) {m : Member σ} (hm : q.streams[ref]? = some m) :
    Ends stillborn [ref] q (q.terminate ref .shutdown).2 := by
  have hserve : (q.terminate ref .shutdown).2 = q.serve ref (.terminate .shutdown) := rfl
  have hdrawn : q.Drawn ref (.terminate .shutdown) _ := drawn_of_draw rfl
  obtain ⟨m', hv⟩ := h.visits hdrawn hm
  rw [← terminate_eq] at hv
  obtain ⟨_, _, _, _, _, _, _, _, hframe⟩ := serve_frame q ref (.terminate .shutdown)
  have hself : (q.terminate ref .shutdown).2.share ref
      = (q.share ref).serve q.surroundings q.env (.terminate .shutdown) :=
    share_serve_self q ref (.terminate .shutdown)
  refine ⟨hv.tidy h, ?_, fun r hr => ?_, fun r hr => hv.others r (by simpa using hr),
    fun x hx => ⟨?_, fun hr hc => ?_⟩⟩
  · rw [hserve, hframe]
  · obtain rfl := List.mem_singleton.mp hr
    exact hself
  · obtain ⟨b, hactive, -⟩ := hv.active
    rw [hactive] at hx
    cases b with
    | false => exact hx
    | true => exact (Registry.mem_erase.mp hx).1
  · -- whoever is claimed and listed was stillborn, so it was claimed before
    obtain ⟨id, ref'⟩ := x
    obtain rfl : ref' = ref := List.mem_singleton.mp hr
    obtain ⟨l, -, -, hawaits, hlives⟩ := h.awaits hc q.surroundings q.env .shutdown
    rw [← hself] at hlives
    have hclaimed : m'.stream.claimed = true := (hlives.claimed hv.left).symm.trans hawaits.claimed
    have hborn := hv.sound.stillborn_of_listed hv.left hclaimed .proxy hx
    obtain ⟨m₀, hm₀, hc⟩ := hc
    obtain ⟨m₁, hm₁, hc'⟩ := h.claimed ref' hborn
    obtain rfl : m₀ = m₁ := Option.some.inj (hm₀.symm.trans hm₁)
    rw [hc] at hc'
    cases hc'

/-- **Ending one stream and then others** ends them all. -/
theorem Tidy.ends_cons (h : q.Tidy stillborn) {m : Member σ} (hm : q.streams[ref]? = some m)
    {refs : List Nat} (hnew : ref ∉ refs) {q' : Proxy σ ε}
    (hrest : Ends stillborn refs (q.terminate ref .shutdown).2 q') :
    Ends stillborn (ref :: refs) q q' := by
  have hone := h.ends_one hm
  have hstay {r : Nat} (hne : r ≠ ref) : (q.terminate ref .shutdown).2.share r = q.share r :=
    hone.others r fun hmem => hne (List.mem_singleton.mp hmem)
  have hother {r : Nat} (hr : r ∈ refs) : r ≠ ref := fun heq => hnew (heq ▸ hr)
  refine ⟨hrest.tidy, hrest.surroundings.trans hone.surroundings, fun r hr => ?_, fun r hr => ?_,
    fun x hx => ?_⟩
  · rcases List.mem_cons.mp hr with rfl | hr
    · exact (hrest.others r hnew).trans (hone.ended r (List.mem_singleton_self r))
    · rw [hrest.ended r hr, hstay (hother hr), hone.surroundings]
      rfl
  · obtain ⟨hne, hr⟩ := not_or.mp (mt List.mem_cons.mpr hr)
    exact (hrest.others r hr).trans (hstay hne)
  · obtain ⟨hx, hclaimed⟩ := hrest.active x hx
    obtain ⟨hx, hclaimed'⟩ := hone.active x hx
    refine ⟨hx, fun hmem => ?_⟩
    rcases List.mem_cons.mp hmem with heq | hmem
    · exact hclaimed' (List.mem_singleton.mpr heq)
    · have hsame := congrArg Share.member (hstay (hother hmem))
      exact fun ⟨m', hm', hc⟩ => hclaimed hmem ⟨m', hsame.trans hm', hc⟩

/-- **A shutdown ends the streams of a list** and counts those that nobody had claimed. -/
theorem Tidy.ends (refs : List Nat) (h : q.Tidy stillborn) (hd : refs.Nodup)
    (hfound : ∀ ref ∈ refs, ∃ m : Member σ, q.streams[ref]? = some m) (n : Nat) :
    let r := refs.foldl
      (fun r ref =>
        let t := r.2.terminate ref .shutdown
        (if t.1 then r.1 + 1 else r.1, t.2)) (n, q)
    r.1 = n + refs.countP q.isUnclaimed ∧ Ends stillborn refs q r.2 := by
  induction refs generalizing q n with
  | nil =>
    exact ⟨rfl, h, rfl, List.forall_mem_nil _, fun _ _ => rfl, fun x hx =>
      ⟨hx, fun hr => by cases hr⟩⟩
  | cons ref refs ih =>
    obtain ⟨hnew, hd⟩ := List.nodup_cons.mp hd
    obtain ⟨⟨m, hm⟩, hfound⟩ := List.forall_mem_cons.mp hfound
    have hone := h.ends_one hm
    have hmember {r : Nat} (hr : r ∈ refs) :
        (q.terminate ref .shutdown).2.streams[r]? = q.streams[r]? :=
      congrArg Share.member (hone.others r fun hmem => hnew (List.mem_singleton.mp hmem ▸ hr))
    have hsame : refs.countP (q.terminate ref .shutdown).2.isUnclaimed
        = refs.countP q.isUnclaimed :=
      List.countP_congr fun r hr => by rw [isUnclaimed, isUnclaimed, hmember hr]
    obtain ⟨hcount, hrest⟩ := ih hone.tidy hd (fun r hr => by rw [hmember hr]; exact hfound r hr)
      (if q.isUnclaimed ref then n + 1 else n)
    rw [List.foldl_cons]
    simp only [h.terminate_fst]
    refine ⟨?_, h.ends_cons hm hnew hrest⟩
    rw [hcount, hsame, List.countP_cons]
    split <;> omega

/-- **A shutdown ends every listed stream**, counts those that nobody had claimed, and leaves none
of these listed. -/
theorem Tidy.shutdown_spec (h : q.Tidy stillborn) :
    q.shutdown.1 = q.active.streams.countP q.isUnclaimed ∧
    Ends stillborn q.active.streams q q.shutdown.2 := by
  have hfound : ∀ ref ∈ q.active.streams, ∃ m : Member σ, q.streams[ref]?
    = some m := fun ref href => by
    obtain ⟨x, hx, rfl⟩ := List.mem_map.mp href
    obtain ⟨m, hm, -⟩ := h.sound.listed .proxy x.1 x.2 hx
    exact ⟨m, hm⟩
  obtain ⟨hcount, hends⟩ := h.ends q.active.streams h.once hfound 0
  exact ⟨hcount.trans (Nat.zero_add _), hends⟩

/-! ## Afterwards -/

/-- The release of a stream is run. -/
def releasing (ref : Nat) (r : Ending) : Incident σ := .moment (.errand ref (.run (.release r)))

/-- The incidents before a stream's release leave it waiting. -/
theorem awaits_foldl {r : Ending} (h : (q.share ref).Lives l) (ha : l.Awaits r)
    {before : List (Incident σ)} (hb : releasing ref r ∉ before) :
    ∃ l' : Life σ, ((before.foldl undergo q).share ref).Lives l' ∧ l'.Awaits r := by
  obtain ⟨deeds, hlives, hdeeds⟩ := lives_foldl h before
  refine ⟨_, hlives, ha.foldl deeds fun d hd byReply c env heq => hb ?_⟩
  obtain ⟨x, hx, c', -, hcause⟩ := hdeeds d hd
  rw [heq] at hcause
  have hx' : x = releasing ref r := hcause.eq_run
  exact hx' ▸ hx

/-- **The release is run**: the stream is done, and its ending is published iff no filter panics. -/
theorem released {r : Ending} (h : (q.share ref).Lives l) (ha : l.Awaits r) {m : Member σ}
    (hm : q.streams[ref]? = some m) : ∃ m' : Member σ,
      (q.undergo (releasing ref r)).streams[ref]? = some m' ∧ m'.stream.phase = .done ∧
        (m'.stream.board.status = .finished r ↔
          m.stream.filters.AllCalm q.surroundings.behaviour m.stream.board) := by
  have hself := share_serve_self q ref (.run (.release r))
  rw [Share.serve, Share.draw, if_pos (h.mem_jobs ha)] at hself
  obtain ⟨hstatus, -⟩ := h.status hm
  have hstream : l.stream.board.owned = m.stream.board.owned ∧ l.stream.board.claimed
    = m.stream.board.claimed := by
    obtain ⟨m', hm', -, hl⟩ := h.member
    obtain rfl : m = m' := Option.some.inj (hm.symm.trans hm')
    rw [hl]
    exact ⟨rfl, rfl⟩
  have horderly := ha.reached.orderly
  have hpublished : l.stream.board.status ≠ .finished r :=
    horderly.books.status_ne ((horderly.untold ha.notDone).2 r)
  have hcalm := m.stream.status_release_iff (hstream.1 ▸ horderly.books.owned)
    (hstream.2 ▸ ha.claimed)
    (hstatus ▸ hpublished) q.surroundings.behaviour
  have hvisited := Share.visited_member
    (s := { q.share ref with jobs := (q.share ref).jobs.erase (.release r) }) hm
    fun x => ((Errand.run (.release r)).work q.surroundings ⟨x, q.env⟩).stream
  refine ⟨_, (congrArg Share.member hself).trans hvisited, ?_, Iff.trans ?_ hcalm⟩
  · exact (Reached.phase_survive _ _).trans
      (congrArg Stream.phase (congrArg Prod.snd (release_eq ..)))
  · have hsurvive (panic : Option Panic) (s : Stream σ) :
        (Life.survive panic s).board.status = s.board.status := by cases panic <;> rfl
    exact Eq.congr_left (hsurvive _ _)

/-- **A stream that is done stays as it is**, whatever happens to the proxy. -/
theorem done_foldl (h : (q.share ref).Lives l) (hl : Reached none l) {m : Member σ}
    (hm : q.streams[ref]? = some m)
    (hd : m.stream.phase = .done) (after : List (Incident σ)) : ∃ m' : Member σ,
      (after.foldl undergo q).streams[ref]? = some m' ∧ m'.stream.phase = .done ∧
        m'.stream.board.status = m.stream.board.status := by
  obtain ⟨deeds, hlives, -⟩ := lives_foldl h after
  obtain ⟨m', hm', -, -⟩ := hlives.member
  obtain ⟨hstatus, hphase⟩ := h.status hm
  obtain ⟨hstatus', hphase'⟩ := hlives.status hm'
  have hrests := hl.rests_foldl deeds (hphase.trans hd)
  exact ⟨m', hm', hphase'.symm.trans (hrests.phase (hphase.trans hd)),
    hstatus'.symm.trans (hrests.frozen.status.trans hstatus)⟩

/-- **A stream that waits for its release is silent**, whatever happens to the proxy. -/
theorem silent_foldl {r : Ending} (h : (q.share ref).Lives l) (ha : l.Awaits r)
    (more : List (Incident σ)) :
    ∃ new, ((more.foldl undergo q).share ref).record = new ++ (q.share ref).record ∧
      (∀ e ∈ new, e.isEffect = false) ∧
      ((∀ x ∈ more, x.isDirect ref = false) → ∀ e ∈ new, ∀ side, e.call? side = none) ∧
      ∀ e ∈ new, ∀ x, e.handed? = some x →
        ∃ r, .moment (.errand ref (.add r)) ∈ more ∧ x = (r.side, r.filter) := by
  obtain ⟨deeds, hlater, hdeeds⟩ := lives_foldl h more
  obtain ⟨new, hnew⟩ := ha.reached.suffix_foldl deeds
  refine ⟨new, ?_, (ha.reached.foldl deeds).isEffect_of_claims hnew.symm (by simp [ha.claim]),
    fun hdirect e he side => ?_, fun e he x hx => ?_⟩
  · rw [← hlater.log, ← h.log, hnew]
  · have hd : ∀ d ∈ deeds, d.isDirect = false := fun d hd => by
      obtain ⟨x, hx, c, -, hcause⟩ := hdeeds d hd
      exact hcause.isDirect (hdirect x hx)
    obtain ⟨new', hnew', huncalled⟩ := ha.reached.uncalled_foldl deeds ha.claim hd
    obtain rfl := List.append_cancel_right (hnew.trans hnew')
    exact huncalled e he side
  · obtain ⟨new', hnew', hhanded⟩ := ha.reached.handed_foldl deeds ha.claim
    obtain rfl := List.append_cancel_right (hnew.trans hnew')
    obtain ⟨β, r, hadd, rfl⟩ := hhanded e he x hx
    obtain ⟨y, hy, c, -, hcause⟩ := hdeeds _ hadd
    exact ⟨r, hcause.eq_add ▸ hy, rfl⟩

/-- **Its release waits on, or was run**: then the stream is done for good, and its ending was
published iff no filter panicked. -/
theorem outcome_foldl {r : Ending} (h : (q.share ref).Lives l) (ha : l.Awaits r)
    (more : List (Incident σ)) :
    .release r ∈ ((more.foldl undergo q).share ref).jobs ∨
      ∃ before after, more = before ++ releasing ref r :: after ∧ ∃ m m' : Member σ,
        (before.foldl undergo q).streams[ref]? = some m ∧
        (more.foldl undergo q).streams[ref]? = some m' ∧ m'.stream.phase = .done ∧
        (m'.stream.board.status = .finished r ↔
          m.stream.filters.AllCalm q.surroundings.behaviour m.stream.board) := by
  by_cases hrun : releasing ref r ∈ more
  · obtain ⟨before, after, rfl, hfirst⟩ := List.eq_append_cons_of_mem hrun
    obtain ⟨l', hbefore, hwaits⟩ := awaits_foldl h ha hfirst
    obtain ⟨m, hm, -, -⟩ := hbefore.member
    obtain ⟨m', hm', hdone, hcalm⟩ := released hbefore hwaits hm
    obtain ⟨deeds, hreleased, -⟩ := lives_undergo hbefore (releasing ref r)
    obtain ⟨m'', hm'', hdone', hstatus⟩ :=
      done_foldl hreleased (hwaits.reached.foldl deeds) hm' hdone after
    rw [(setUpLike_foldl q before).behaviour, ← hstatus] at hcalm
    refine .inr ⟨before, after, rfl, m, m'', hm, ?_, hdone', hcalm⟩
    rw [List.foldl_append]
    exact hm''
  · obtain ⟨l', hlater, hwaits⟩ := awaits_foldl h ha hrun
    exact .inl (hlater.mem_jobs hwaits)

/-- **What becomes of a stream that a shutdown of `q` ended**, once more incidents have come. -/
structure ShutDown (q : Proxy σ ε) (ref : Nat) (more : List (Incident σ)) : Prop where
  /-- Since then it executed no phase, asked no collaborator and wrote nothing; nor did it call a
  filter, direct runs aside; and none but a filter that was added to it since was given a handle. -/
  silent : ∃ new, ((more.foldl undergo q.shutdown.2).share ref).record = new
    ++ (q.share ref).record ∧
    (∀ e ∈ new, e.isEffect = false) ∧
    ((∀ x ∈ more, x.isDirect ref = false) → ∀ e ∈ new, ∀ side, e.call? side = none) ∧
    ∀ e ∈ new, ∀ x, e.handed? = some x → ∃ r, .moment (.errand ref (.add r)) ∈ more ∧
      x = (r.side, r.filter)
  /-- Its release still waits in the pool, or was run among these: then the stream is done, and
  finished unless a filter panicked as it was told. -/
  outcome : .release .shutdown ∈ ((more.foldl undergo q.shutdown.2).share ref).jobs ∨
    ∃ before after, more = before ++ releasing ref .shutdown :: after ∧ ∃ m m' : Member σ,
      (before.foldl undergo q.shutdown.2).streams[ref]? = some m ∧
      (more.foldl undergo q.shutdown.2).streams[ref]? = some m' ∧ m'.stream.phase = .done ∧
      (m'.stream.board.status = .finished .shutdown ↔
        m.stream.filters.AllCalm q.surroundings.behaviour m.stream.board)

/-- **A listed stream that is shut down falls silent and waits for its release**, if nobody had
claimed it. -/
theorem Tidy.shutDown (h : q.Tidy stillborn) (href : ref ∈ q.active.streams) (hc : q.Unclaimed ref)
    (more : List (Incident σ)) : q.ShutDown ref more := by
  obtain ⟨-, hends⟩ := h.shutdown_spec
  obtain ⟨l, hl, hlives, hawaits, hended⟩ := h.awaits hc q.surroundings q.env .shutdown
  rw [← hends.ended ref href] at hended
  constructor
  · obtain ⟨new, hrecord, heffect, hcall, hhanded⟩ := silent_foldl hended hawaits more
    -- what the shutdown itself did to the stream
    obtain ⟨ending, hending, houtside⟩ :=
      Board.terminate_log l.stream.board .shutdown hl.orderly.books.owned
    have hungiven : ∀ e ∈ ending, e.handed? = none := by
      obtain ⟨quiet, hquiet, hnone⟩ := Life.Ungiven.terminate l .shutdown hl.orderly.books.owned
      obtain rfl := List.append_cancel_right (hending.symm.trans hquiet)
      exact hnone
    refine ⟨new ++ ending, ?_, fun e he => ?_, fun hdirect e he side => ?_, fun e he x hx => ?_⟩
    · rw [hrecord, ← hended.log, ← hlives.log, List.append_assoc]
      exact congrArg (new ++ ·) hending
    all_goals rcases List.mem_append.mp he with he | he
    · exact heffect e he
    · exact Event.isEffect_of_isOutside (houtside e he)
    · exact hcall hdirect e he side
    · exact Event.call?_of_isOutside side (houtside e he)
    · exact hhanded e he x hx
    · rw [hungiven e he] at hx
      cases hx
  · rw [← hends.surroundings]
    exact outcome_foldl hended hawaits more

end Proxy

/-- **A shutdown is complete.**  Whatever happened to a proxy, it counts the streams listed that
nobody has claimed and leaves none of these listed: all of them, if no listed stream was claimed.
Whatever happens then, in whichever order jobs are run, none of those streams executes a phase, asks
a collaborator, writes, or — direct runs aside — calls a filter, and only a filter that is added to
it is given a handle; and once its release is no longer waiting, it is done, and finished with the
shutdown iff no filter panicked as it was told. -/
theorem shutdown_complete {p : Proxy σ ε} (hp : p.Fresh) (incidents : List (Incident σ)) :
    let q := incidents.foldl Proxy.undergo p
    q.shutdown.1 = q.active.streams.countP q.isUnclaimed ∧
      (∀ x ∈ q.shutdown.2.active.entries, x ∈ q.active.entries ∧ ¬ q.Unclaimed x.2) ∧
      ((∀ ref ∈ q.active.streams, q.Unclaimed ref) →
        q.shutdown.1 = q.active.size ∧ q.shutdown.2.active.entries = []) ∧
      ∀ ref ∈ q.active.streams, q.Unclaimed ref → ∀ more, q.ShutDown ref more := by
  intro q
  have h : q.Tidy _ := hp.tidy.foldl incidents
  obtain ⟨hcount, hends⟩ := h.shutdown_spec
  have hleft : ∀ x ∈ q.shutdown.2.active.entries, x ∈ q.active.entries ∧
    ¬ q.Unclaimed x.2 := fun x hx => by
    obtain ⟨hx, hclaimed⟩ := hends.active x hx
    exact ⟨hx, hclaimed (List.mem_map.mpr ⟨x, hx, rfl⟩)⟩
  refine ⟨hcount, hleft, fun hall => ⟨?_, List.eq_nil_iff_forall_not_mem.mpr fun x hx => ?_⟩,
    fun ref href hc more => h.shutDown href hc more⟩
  · rw [hcount, List.countP_eq_length.mpr fun ref href => Proxy.isUnclaimed_iff.mpr (hall ref href),
      Registry.streams, List.length_map, Registry.size]
  · obtain ⟨hx, hclaimed⟩ := hleft x hx
    exact hclaimed (hall x.2 (List.mem_map.mpr ⟨x, hx, rfl⟩))

/-! ## Three streams -/

/-- A filter is whether it still stops the response. -/
def stopping : Behaviour Bool where
  onRequest b _ parts := .done ⟨b, parts, .ok .proceed⟩
  onResponse b _ parts := .done ⟨false, parts, .ok (if b then .stop else .proceed)⟩
  onDestroy b _ := .done { filter := b }

/-- Collaborators one of which breaks off when it is called again. -/
def fragile : Surroundings Bool Nat where
  behaviour := stopping
  routing := ⟨some fun _ => .ok (some default)⟩
  choose n _ _ := (if n = 0 then .ok (.ok default) else .error ⟨none⟩, n + 1)
  forward n _ _ _ := ({ handover := .responded {} }, n)
  write n _ _ := (.ok (.ok ()), n)

/-- The response of the first stream is stopped, the second is left behind by a panic, and the
request of the third is not taken in yet. -/
def mixed : List (Incident Bool) :=
  [.new, .new, .new, .moment (.errand 0 (.add (.response true .beforeSend))),
    .moment (.errand 0 (.receive {})),
    .moment (.errand 0 (.run (.receive {}))), .moment (.errand 0 (.run (.response {}))),
    .moment (.errand 1 (.receive {})), .moment (.errand 1 (.run (.receive {}))),
      .moment (.errand 2 (.receive {}))]

/-- What waits is run, latest first, after the first stream was resumed in vain. -/
def drained : List (Incident Bool) :=
  [.moment (.errand 0 .resume), .moment (.errand 0 (.run (.resume none))),
    .moment (.errand 2 (.run (.release .shutdown))),
    .moment (.errand 2 (.run (.receive {}))), .moment (.errand 1 (.run (.release .shutdown))),
    .moment (.errand 0 (.run (.release .shutdown)))]

/-- All three are counted, and finished once the jobs were run. -/
theorem shutdown_complete_mixed :
    let q := mixed.foldl Proxy.undergo ({ surroundings := fragile, env := 0 } : Proxy Bool Nat)
    let q' := drained.foldl Proxy.undergo q.shutdown.2
    (∀ ref ∈ [0, 1, 2], q.ShutDown ref drained) ∧ q.shutdown.1 = 3 ∧ q.active.size = 3 ∧
      q.streams.toList.map (·.stream.phase) = [.filterResponse, .chooseHost, .init] ∧
      q'.streams.toList.map (·.stream.board.status)
        = [.finished .shutdown, .finished .shutdown, .finished .shutdown] := by
  intro q q'
  have hfresh : ({ surroundings := fragile, env := 0 } : Proxy Bool Nat).Fresh :=
    ⟨⟨rfl, rfl, rfl⟩, rfl, rfl, rfl⟩
  obtain ⟨-, -, hall, hended⟩ := shutdown_complete hfresh mixed
  have hlisted : q.active.streams = [0, 1, 2] := by decide +kernel
  have hsize : q.active.size = 3 := by decide +kernel
  have hunclaimed : ∀ ref ∈ q.active.streams, q.Unclaimed ref := by
    intro ref href
    rw [← Proxy.isUnclaimed_iff]
    exact List.all_eq_true.mp (by decide +kernel : q.active.streams.all q.isUnclaimed = true) ref
      href
  refine ⟨fun ref href => ?_, (hall hunclaimed).1.trans hsize, hsize, ?_, ?_⟩
  · rw [← hlisted] at href
    exact hended ref href (hunclaimed ref href) drained
  · decide +kernel
  · decide +kernel

/-! ## A filter that comes late, and one that is hasty -/

/-- **A filter that is added to a stream which was shut down is called**: it is given its handle.
And a stream that its filter ended as it was given its own is listed, but neither counted nor struck
off. -/
theorem added_after_shutdown :
    (let p : Proxy Bool Unit := { surroundings := .secluded stopping, env := () }
      let q := p.undergo .new
      let late := Proxy.undergo q.shutdown.2
        (.moment (.errand 0 (.add (.request false .beforeRoute))))
      q.active.streams = [0] ∧ q.shutdown.1 = 1 ∧
        (late.share 0).record.filterMap Event.handed? = [(.request, false)] ∧
        (q.shutdown.2.share 0).record.filterMap Event.handed? = []) ∧
      let q := stifled.foldl Proxy.undergo stifling
      q.active.size = 1 ∧ q.shutdown.1 = 0 ∧ q.shutdown.2.active.size = 1 := by
  decide +kernel

end FilterProxy

import FilterProxy.Proofs.Commons
import FilterProxy.Proofs.Listing

/-!
# Proofs/Tenancy — every stream of a proxy leads a life

What is proved of lives is about streams by themselves.  A proxy makes many streams, keeps their
logs and runs their jobs.  **The share of each of its streams is that of a life** (`Share.Lives`),
and whatever happens to the proxy comes to deeds in that life (`Proxy.lives_foldl`), under the
behaviour that the proxy was made with.
-/

namespace FilterProxy

variable {σ ε : Type}

/-! ## Jobs that are put out, run, or wait -/

/-- The job an event puts out. -/
def Event.job? : Event σ → Option Job
  | .scheduled job => some job
  | .armed _ generation => some (.timeout generation)
  | _ => none

/-- The job a timeout comes to. -/
def Timer.job (t : Timer) : Job := .timeout t.generation

theorem posted_map_job (log : List (Event σ)) :
    (posted log).map (·.job) = log.filterMap Event.job? := by
  induction log with
  | nil => rfl
  | cons e older ih =>
    rw [posted, List.map_append, ih]
    cases e <;> rfl

theorem count_map_job (l : List Posting) (job : Job) :
    (l.map (·.job)).count job = l.count ⟨job, true⟩ + l.count ⟨job, false⟩ := by
  induction l with
  | nil => rfl
  | cons p l ih =>
    obtain ⟨job', byReply⟩ := p
    by_cases h : job' = job <;> cases byReply <;> simp [h, ih] <;> omega

namespace Share

variable {s : Share σ} {ran : List Posting}

/-- **Every job of the stream that was put out was run or waits.** -/
def Ledger (s : Share σ) (ran : List Posting) : Prop :=
  (s.jobs ++ s.alarms.map Timer.job ++ ran.map (·.job)).Perm (s.record.filterMap Event.job?)

theorem Ledger.take (h : s.Ledger ran) (e : Event σ) : (s.take e).Ledger ran := by
  unfold Ledger at h ⊢
  cases e with
  | scheduled job =>
    refine List.Perm.trans ?_ (h.cons job)
    simp [Share.take]
  | armed delay generation =>
    refine List.Perm.trans ?_ (h.cons (.timeout generation))
    simp only [Share.take, Timer.job, List.map_append, List.map_cons, List.map_nil,
      ← List.append_assoc]
    exact (List.perm_append_singleton _ _).append_right _
  | forwarded host m x =>
    obtain ⟨x, panic⟩ := x
    cases x <;> exact h
  | _ => exact h

theorem Ledger.foldl (h : s.Ledger ran) (events : List (Event σ)) :
    (events.foldl Share.take s).Ledger ran := by
  induction events generalizing s with
  | nil => exact h
  | cons e events ih => exact ih (h.take e)

theorem Ledger.elapse (h : s.Ledger ran) (ms : Nat) : (s.elapse ms).Ledger ran := by
  have hdue : ((s.alarms.filter (·.deadline ≤ s.now + ms)).mergeSort
    (fun a b => a.deadline ≤ b.deadline)
      ++ s.alarms.filter (s.now + ms < ·.deadline)).Perm s.alarms := by
    have hlater : (fun t : Timer => decide (s.now + ms < t.deadline))
        = fun t => !decide (t.deadline ≤ s.now + ms) := by
      funext t
      rw [← decide_not, decide_eq_decide]
      exact Nat.not_le.symm
    rw [hlater]
    exact ((List.mergeSort_perm ..).append_right _).trans (List.filter_append_perm ..)
  refine List.Perm.trans (List.Perm.append_right _ ?_) h
  rw [Share.elapse, List.append_assoc]
  refine List.Perm.append_left _ ?_
  have := hdue.map Timer.job
  rwa [List.map_append] at this

/-- **The share is that of a life**: the stream is the life's, but for the log, which the proxy
keeps. -/
structure Lives (s : Share σ) (l : Life σ) : Prop where
  member : ∃ m, s.member = some m ∧ m.stream.board.log = [] ∧ l.stream = m.stream.atop s.record
  ledger : s.Ledger l.ran

theorem Lives.log {l : Life σ} (h : s.Lives l) : l.log = s.record := by
  obtain ⟨m, -, hlog, hstream⟩ := h.member
  rw [Life.log, hstream, Stream.atop_board, Board.atop_log, hlog, List.nil_append]

/-- A job that waits is due. -/
theorem Lives.due {l : Life σ} (h : s.Lives l) {job : Job} (hj : job ∈ s.jobs) :
    ∃ byReply, l.Due ⟨job, byReply⟩ := by
  have hcount := h.ledger.count_eq job
  rw [← h.log, ← posted_map_job, List.count_append, List.count_append, count_map_job,
    count_map_job] at hcount
  have hwaits : 0 < s.jobs.count job := List.count_pos_iff.mpr hj
  by_cases htrue : l.Due ⟨job, true⟩
  · exact ⟨true, htrue⟩
  · refine ⟨false, ?_⟩
    unfold Life.Due at htrue ⊢
    omega

/-- A visit leaves the share of what the work made of the stream. -/
theorem lives_visited {l : Life σ} {m : Member σ} {f : Stream σ → Stream σ} (hm : s.member = some m)
    (hs : l.stream = (f m.stream).atop s.record) (hl : s.Ledger l.ran) : (s.visited f).Lives l := by
  have hmet (x : Option (Member σ)) : Ledger { s with member := x } l.ran := hl
  have hledger : (s.visited f).Ledger l.ran := by
    unfold visited
    rw [hm]
    exact (hmet _).foldl _
  refine ⟨⟨_, visited_member hm f, rfl, ?_⟩, hledger⟩
  rw [visited_record hm, hs]
  rfl

end Share

/-! ## Errands are deeds -/

open FilterProxy.Stream in
/-- **No errand reads the log.** -/
theorem Errand.work_atop (c : Surroundings σ ε) (env : ε) (e : Errand σ) (older : List (Event σ))
    (x : Stream σ) :
      (e.work c ⟨x.atop older, env⟩).stream = (e.work c ⟨x, env⟩).stream.atop older := by
  cases e with
  | add r => exact addFilter_atop older x c.behaviour r
  | receive m | resume =>
    exact congrArg (fun b => { x with board := b }) (Board.atop_schedule older x.board _)
  | terminate ending => exact congrArg Prod.snd (terminate_atop older x ending)
  | act filter index program =>
    exact congrArg (fun r => { x with board := r.2 }) (program.run_atop older filter index x.board)
  | answer h => exact answer_atop older x h
  | direct message convert =>
    exact congrArg Prod.snd (runResponseFilters_atop older x c.behaviour message convert)
  | run job =>
    have hover : Turn.Over (· = ·) older ⟨x, env⟩ ⟨x.atop older, env⟩ := ⟨rfl, rfl⟩
    obtain ⟨hpanic, hstream, -⟩ := hover.exec c.alike_eq job
    simp only [work, hpanic, hstream]
    cases (Turn.exec c job ⟨x, env⟩).1 <;> rfl

/-- The deed an errand comes to. -/
def Errand.deed (c : Surroundings σ ε) (env : ε) (byReply : Bool) : Errand σ → Deed σ ε
  | .add r => .add c.behaviour r
  | .receive m => .receive m
  | .resume => .resume
  | .terminate ending => .terminate ending
  | .act filter index program => .act _ filter index program
  | .answer h => .answer h
  | .direct message convert => .direct c message convert
  | .run job => .run ⟨job, byReply⟩ c env

namespace Share.Lives

variable {s : Share σ} {l : Life σ}

/-- **What is taken out for an errand** leaves the share of the life in which its deed is done, but
for the work on the stream. -/
theorem draw (h : s.Lives l) (c : Surroundings σ ε) (env : ε) {e : Errand σ} {s' : Share σ}
    (hd : s.draw e = some s') : s'.member = s.member ∧ s'.record = s.record ∧
      ∃ byReply, let l' := l.next (e.deed c env byReply)
        s'.Ledger l'.ran ∧ l'.stream = (e.work c ⟨l.stream, env⟩).stream := by
  cases e with
  | run job =>
    rw [Share.draw] at hd
    split at hd
    case isTrue hj =>
      obtain rfl := Option.some.inj hd
      obtain ⟨byReply, hdue⟩ := h.due hj
      refine ⟨rfl, rfl, byReply, ?_⟩
      rw [Errand.deed, Life.next, if_pos hdue]
      refine ⟨List.Perm.trans ?_ h.ledger, rfl⟩
      -- the job goes from those that wait to those that were run
      exact List.perm_middle.trans (((List.perm_cons_erase hj).symm.append_right _).append_right _)
    case isFalse => cases hd
  | answer x =>
    rw [Share.draw] at hd
    split at hd
    · obtain rfl := Option.some.inj hd
      exact ⟨rfl, rfl, false, h.ledger, rfl⟩
    · cases hd
  | _ =>
    obtain rfl := Option.some.inj hd
    exact ⟨rfl, rfl, false, h.ledger, rfl⟩

/-- **An errand is a deed in the life**, or nothing. -/
theorem serve (h : s.Lives l) (c : Surroundings σ ε) (env : ε) (e : Errand σ) :
    ∃ deeds : List (Deed σ ε), (s.serve c env e).Lives (deeds.foldl Life.next l) ∧
      ∀ d ∈ deeds, ∃ byReply, d = e.deed c env byReply := by
  unfold Share.serve
  cases hd : s.draw e with
  | none => exact ⟨[], h, List.forall_mem_nil _⟩
  | some s' =>
    obtain ⟨hmember, hrecord, byReply, hledger, hstream⟩ := h.draw c env hd
    obtain ⟨m, hm, -, hl⟩ := h.member
    refine ⟨[e.deed c env byReply], lives_visited (hmember.trans hm) ?_ hledger,
      fun d hd => ⟨byReply, List.mem_singleton.mp hd⟩⟩
    rw [hrecord, ← Errand.work_atop, ← hl]
    exact hstream

theorem elapse (h : s.Lives l) (ms : Nat) : (s.elapse ms).Lives l := ⟨h.member, h.ledger.elapse ms⟩

end Share.Lives

/-! ## All that happens to a proxy -/

/-- Something that happens to a proxy. -/
inductive Incident (σ : Type) where
  /-- A transaction is started. -/
  | new
  | moment (x : Moment σ)
  /-- The transport uses one of the handovers it kept. -/
  | hand (n : Nat) (h : Handover)
  | reset (id : StreamId) (ending : Ending)
  | shutdown
  /-- Another routing table is put in force. -/
  | reroute (table : RouteTable)

/-- Let it happen. -/
def Proxy.undergo (p : Proxy σ ε) : Incident σ → Proxy σ ε
  | .new => p.newStream.2
  | .moment x => p.spend x
  | .hand n h => (p.useHandover n h).2
  | .reset id ending => (p.reset id ending).2
  | .shutdown => p.shutdown.2
  | .reroute table => p.updateRoutes table

/-- The deeds an incident may come to in the life of the stream at `ref`. -/
inductive Incident.Causes (c : Surroundings σ ε) (ref : Nat) : Incident σ → Deed σ ε → Prop
  | errand (e : Errand σ) (env byReply) : Causes c ref (.moment (.errand ref e))
      (e.deed c env byReply)
  | hand (n h) : Causes c ref (.hand n h) (.answer h)
  | reset (id ending) : Causes c ref (.reset id ending) (.terminate ending)
  | shutdown : Causes c ref .shutdown (.terminate .shutdown)

namespace Proxy

variable {p : Proxy σ ε} {ref : Nat} {l : Life σ}

/-- An errand to any stream is at most one deed, and in the life of that stream. -/
theorem lives_serve (h : (p.share ref).Lives l) (ref' : Nat) (e : Errand σ) :
    ∃ deeds : List (Deed σ ε), ((p.serve ref' e).share ref).Lives (deeds.foldl Life.next l) ∧
      ∀ d ∈ deeds, ref' = ref ∧ ∃ byReply, d = e.deed p.surroundings p.env byReply := by
  by_cases hne : ref = ref'
  · subst hne
    obtain ⟨deeds, hlives, hdeeds⟩ := h.serve p.surroundings p.env e
    exact ⟨deeds, by rwa [share_serve_self], fun d hd => ⟨rfl, hdeeds d hd⟩⟩
  · exact ⟨[], by rwa [share_serve_of_ne hne], List.forall_mem_nil _⟩

/-- So is the use of a handover: it is the stream's that it was kept for. -/
theorem lives_useHandover (h : (p.share ref).Lives l) (n : Nat) (x : Handover) :
    ∃ deeds : List (Deed σ ε), ((p.useHandover n x).2.share ref).Lives (deeds.foldl Life.next l) ∧
      ∀ d ∈ deeds, d = .answer x := by
  have nothing : ∃ deeds : List (Deed σ ε), (p.share ref).Lives (deeds.foldl Life.next l) ∧
      ∀ d ∈ deeds, d = .answer x := ⟨[], h, List.forall_mem_nil _⟩
  rcases useHandover_cases p n x with heq | ⟨ref', hn, heq⟩
  · rwa [heq]
  · rw [heq]
    by_cases hne : ref = ref'
    case pos =>
      subst hne
      rw [(drawn_handover p hn x).share_engage]
      obtain ⟨deeds, hlives, hdeeds⟩ := h.serve p.surroundings p.env (.answer x)
      exact ⟨deeds, hlives, fun d hd => (hdeeds d hd).choose_spec⟩
    case neg => rwa [(drawn_handover p hn x).share_engage_of_ne hne]

/-- The proxy with that stream, before its first event is taken in. -/
def grown (p : Proxy σ ε) : Proxy σ ε :=
  { p with nextId := p.nextId + 1, streams := p.streams.push ⟨p.opening, .proxy⟩ }

theorem newStream_eq (p : Proxy σ ε) :
    let q := p.grown.engage p.streams.size id
    p.newStream.2 = { q with active := q.active.insert ⟨p.nextId⟩ p.streams.size } := by
  change (enrol { p with nextId := p.nextId + 1 } p.opening .proxy).2 = _
  unfold enrol
  dsimp only
  rw [change_eq, opening_context]
  rfl

theorem share_newStream (p : Proxy σ ε) (ref : Nat) :
    p.newStream.2.share ref = (p.grown.engage p.streams.size id).share ref := by
  rw [newStream_eq]
  rfl

theorem share_newStream_of_ne (p : Proxy σ ε) (h : ref ≠ p.streams.size) :
    p.newStream.2.share ref = p.share ref := by
  rw [share_newStream, share_engage_of_ne h]
  simp only [share, grown, Array.getElem?_push, if_neg h]

/-- A shutdown ends one stream after the other. -/
theorem lives_shutdown (h : (p.share ref).Lives l) :
    ∃ deeds : List (Deed σ ε), (p.shutdown.2.share ref).Lives (deeds.foldl Life.next l) ∧
      ∀ d ∈ deeds, d = .terminate .shutdown := by
  rw [shutdown_eq]
  generalize p.active.streams = refs
  induction refs generalizing p l with
  | nil => exact ⟨[], h, List.forall_mem_nil _⟩
  | cons ref' refs ih =>
    obtain ⟨first, hfirst, hended⟩ := lives_serve h ref' (.terminate .shutdown)
    obtain ⟨rest, hrest, hshut⟩ := ih hfirst
    refine ⟨first ++ rest, by rw [List.foldl_append]; exact hrest, fun d hd => ?_⟩
    rcases List.mem_append.mp hd with hd | hd
    · obtain ⟨-, _, rfl⟩ := hended d hd
      rfl
    · exact hshut d hd

/-- **Whatever happens to a proxy is deeds in the lives of its streams.** -/
theorem lives_undergo (h : (p.share ref).Lives l) (x : Incident σ) :
    ∃ deeds : List (Deed σ ε), ((p.undergo x).share ref).Lives (deeds.foldl Life.next l) ∧
      ∀ d ∈ deeds, x.Causes p.surroundings ref d := by
  cases x with
  | new =>
    obtain ⟨m, hm, -, -⟩ := h.member
    have hlt : ref < p.streams.size := (Array.getElem?_eq_some_iff.mp hm).1
    exact ⟨[], by rwa [undergo, share_newStream_of_ne p (Nat.ne_of_lt hlt)], List.forall_mem_nil _⟩
  | moment x =>
    cases x with
    | errand ref' e =>
      obtain ⟨deeds, hlives, hdeeds⟩ := lives_serve h ref' e
      refine ⟨deeds, hlives, fun d hd => ?_⟩
      obtain ⟨rfl, byReply, rfl⟩ := hdeeds d hd
      exact .errand e _ byReply
    | elapse ms =>
      refine ⟨[], ?_, List.forall_mem_nil _⟩
      rw [undergo, spend, share_elapse]
      exact h.elapse ms
  | hand n x =>
    obtain ⟨deeds, hlives, hdeeds⟩ := lives_useHandover h n x
    refine ⟨deeds, hlives, fun d hd => ?_⟩
    rw [hdeeds d hd]
    exact .hand n x
  | reset id ending =>
    rw [undergo, reset]
    split
    case h_1 ref' _ =>
      obtain ⟨deeds, hlives, hdeeds⟩ := lives_serve h ref' (.terminate ending)
      refine ⟨deeds, hlives, fun d hd => ?_⟩
      obtain ⟨-, _, rfl⟩ := hdeeds d hd
      exact .reset id ending
    case h_2 => exact ⟨[], h, List.forall_mem_nil _⟩
  | shutdown =>
    obtain ⟨deeds, hlives, hdeeds⟩ := lives_shutdown h
    refine ⟨deeds, hlives, fun d hd => ?_⟩
    rw [hdeeds d hd]
    exact .shutdown
  | reroute table => exact ⟨[], h, List.forall_mem_nil _⟩

/-! ## What nobody changes -/

/-- **The second proxy is set up like the first**: it makes its streams alike, and its filters
behave alike. -/
structure SetUpLike (p q : Proxy σ ε) : Prop where
  settings : q.settings = p.settings
  installers : q.installers = p.installers
  behaviour : q.surroundings.behaviour = p.surroundings.behaviour

theorem SetUpLike.refl (p : Proxy σ ε) : p.SetUpLike p := ⟨rfl, rfl, rfl⟩

theorem SetUpLike.trans {p q r : Proxy σ ε} (h : p.SetUpLike q) (h' : q.SetUpLike r) :
    p.SetUpLike r :=
  ⟨h'.settings.trans h.settings, h'.installers.trans h.installers, h'.behaviour.trans h.behaviour⟩

theorem setUpLike_engage (p : Proxy σ ε) (ref : Nat) (g : Turn σ ε → Turn σ ε) :
    p.SetUpLike (p.engage ref g) := by
  obtain ⟨_, _, _, _, _, _, _, _, hframe, -⟩ := engage_frame p ref g
  rw [hframe]
  exact ⟨rfl, rfl, rfl⟩

theorem setUpLike_serve (p : Proxy σ ε) (ref : Nat) (e : Errand σ) :
    p.SetUpLike (p.serve ref e) := by
  obtain ⟨_, _, _, _, _, _, _, _, hframe⟩ := serve_frame p ref e
  rw [hframe]
  exact ⟨rfl, rfl, rfl⟩

theorem setUpLike_undergo (p : Proxy σ ε) (x : Incident σ) : p.SetUpLike (p.undergo x) := by
  cases x with
  | new =>
    obtain ⟨hsettings, hinstallers, hbehaviour⟩ := setUpLike_engage p.grown p.streams.size id
    rw [undergo, newStream_eq]
    exact ⟨hsettings, hinstallers, hbehaviour⟩
  | moment x =>
    cases x with
    | errand ref e => exact setUpLike_serve p ref e
    | elapse ms => exact ⟨rfl, rfl, rfl⟩
  | hand n x =>
    rw [undergo]
    rcases useHandover_cases p n x with heq | ⟨ref, -, heq⟩
    · rw [heq]
      exact .refl p
    · obtain ⟨hsettings, hinstallers, hbehaviour⟩ := setUpLike_engage
        { p with handovers := p.handovers.setIfInBounds n none } ref
          ((Errand.answer x).work p.surroundings)
      rw [heq]
      exact ⟨hsettings, hinstallers, hbehaviour⟩
  | reset id ending =>
    rw [undergo, reset]
    split
    case h_1 ref _ => exact setUpLike_serve p ref (.terminate ending)
    case h_2 => exact .refl p
  | shutdown =>
    rw [undergo, shutdown_eq]
    exact List.foldlRecOn _ _ (SetUpLike.refl p) fun q hq ref _ =>
      hq.trans (setUpLike_serve q ref (.terminate .shutdown))
  | reroute table => exact ⟨rfl, rfl, rfl⟩

/-- **Whatever happens to a proxy, it stays set up as it was.** -/
theorem setUpLike_foldl (p : Proxy σ ε) (incidents : List (Incident σ)) :
    p.SetUpLike (incidents.foldl undergo p) :=
  List.foldlRecOn _ _ (SetUpLike.refl p) fun q hq x _ => hq.trans (setUpLike_undergo q x)

/-- **What happens to a proxy is deeds in the life of a stream**, one incident after the other. -/
theorem lives_foldl (h : (p.share ref).Lives l) (incidents : List (Incident σ)) :
    ∃ deeds : List (Deed σ ε), ((incidents.foldl undergo p).share ref).Lives
      (deeds.foldl Life.next l) ∧
      ∀ d ∈ deeds, ∃ x ∈ incidents, ∃ c, c.behaviour = p.surroundings.behaviour ∧
      x.Causes c ref d := by
  induction incidents generalizing p l with
  | nil => exact ⟨[], h, List.forall_mem_nil _⟩
  | cons x incidents ih =>
    obtain ⟨first, hfirst, hcauses⟩ := lives_undergo h x
    obtain ⟨rest, hrest, hcaused⟩ := ih hfirst
    refine ⟨first ++ rest, by rw [List.foldl_append]; exact hrest, fun d hd => ?_⟩
    rcases List.mem_append.mp hd with hd | hd
    · exact ⟨x, List.mem_cons_self, _, rfl, hcauses d hd⟩
    · obtain ⟨y, hy, c, hc, hcause⟩ := hcaused d hd
      exact ⟨y, List.mem_cons_of_mem x hy, c, hc.trans (setUpLike_undergo p x).behaviour, hcause⟩

/-! ## New streams -/

end Proxy

/-- Nothing is held of a stream yet that is to come. -/
structure Share.Vacant (s : Share σ) : Prop where
  record : s.record = []
  jobs : s.jobs = []
  alarms : s.alarms = []

theorem Life.foldl_add (β : Behaviour σ) (registrations : List (Registration σ)) (l : Life σ) :
    (registrations.map (Deed.add β) : List (Deed σ ε)).foldl Life.next l
      = l.become (registrations.foldl (Stream.addFilter β) l.stream) := by
  induction registrations generalizing l with
  | nil => rfl
  | cons r rest ih => exact ih _

/-- **A new stream begins a life**, with the filters of the installers. -/
theorem Proxy.lives_newStream (p : Proxy σ ε) (hv : (p.share p.streams.size).Vacant) :
    (p.newStream.2.share p.streams.size).Lives
      (Life.after ⟨p.nextId⟩ p.settings
        (p.installers.flatten.map (Deed.add p.surroundings.behaviour) : List (Deed σ ε))) := by
  rw [share_newStream, share_engage_self]
  have hadded := Life.foldl_add (ε := ε) p.surroundings.behaviour p.installers.flatten
    (.fresh ⟨p.nextId⟩ p.settings)
  refine Share.lives_visited (m := ⟨p.opening, .proxy⟩) ?_ ?_ ?_
  · simp [share, grown]
  · rw [Life.after, hadded, show (p.grown.share p.streams.size).record = [] from hv.record,
      Stream.atop_nil]
    rfl
  · rw [Life.after, hadded]
    have hjobs : (p.grown.share p.streams.size).jobs = [] := hv.jobs
    have halarms : (p.grown.share p.streams.size).alarms = [] := hv.alarms
    have hrecord : (p.grown.share p.streams.size).record = [] := hv.record
    rw [Share.Ledger, hjobs, halarms, hrecord]
    exact .refl _

end FilterProxy

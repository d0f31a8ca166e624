import Mathlib.Data.List.Basic
import FilterProxy.Proxy
import FilterProxy.Proofs.Unread

/-!
# Proofs/Share — what a proxy holds of one stream

Streams share one pool, one log and one list of handovers.  The **share** of a stream is what
concerns it in all of these.  An errand to a stream changes the share of that stream alone
(`share_serve_of_ne`), and does so **by a function of that share** (`share_serve_self`).
-/

namespace FilterProxy

variable {σ ε α : Type}

/-! ## Sorting -/

/-- **A stable sort commutes with a filter.** -/
theorem filter_mergeSort {le : α → α → Bool} (htrans : ∀ a b c, le a b → le b c → le a c)
    (htotal : ∀ a b, le a b || le b a) (q : α → Bool) (l : List α) :
    (l.mergeSort le).filter q = (l.filter q).mergeSort le := by
  -- what stands before `a` is what `a` does not precede
  have split {a : α} (m₁ m₂ : List α) (h₁ : ∀ b ∈ m₁, !le a b) (h₂ : ∀ b ∈ m₂, le a b) :
      (m₁ ++ m₂).filter (fun b => !le a b) = m₁ ∧ (m₁ ++ m₂).filter (le a) = m₂ := by
    rw [List.filter_append, List.filter_append, List.filter_eq_self.mpr h₁,
      List.filter_eq_self.mpr h₂, List.filter_eq_nil_iff.mpr fun b hb => by simp [h₂ b hb],
      List.filter_eq_nil_iff.mpr fun b hb => by simpa using h₁ b hb]
    exact ⟨List.append_nil m₁, rfl⟩
  induction l with
  | nil => simp
  | cons a l ih =>
    obtain ⟨l₁, l₂, heq, hrest, hbefore⟩ := List.mergeSort_cons htrans htotal a l
    rw [hrest, List.filter_append] at ih
    rw [heq, List.filter_append]
    cases hq : q a with
    | false =>
      rw [List.filter_cons_of_neg (by simp [hq]), List.filter_cons_of_neg (by simp [hq])]
      exact ih
    | true =>
      rw [List.filter_cons_of_pos hq, List.filter_cons_of_pos hq]
      obtain ⟨m₁, m₂, hsorted, hrest', hbefore'⟩ := List.mergeSort_cons htrans htotal a (l.filter q)
      have after {l₁ l₂ l : List α} (h : l.mergeSort le = l₁ ++ a :: l₂) : ∀ b ∈ l₂, le a b :=
        (List.pairwise_cons.mp (List.pairwise_append.mp
          (h ▸ List.pairwise_mergeSort htrans htotal l)).2.1).1
      obtain ⟨hm₁, hm₂⟩ := split m₁ m₂ hbefore' (after hsorted)
      obtain ⟨hl₁, hl₂⟩ := split (l₁.filter q) (l₂.filter q)
        (fun b hb => hbefore b (List.mem_filter.mp hb).1)
        (fun b hb => after heq b (List.mem_filter.mp hb).1)
      rw [← hrest', ← ih] at hm₁ hm₂
      rw [hsorted, hm₁.symm.trans hl₁, hm₂.symm.trans hl₂]

/-! ## Shares -/

namespace Pool

/-- The jobs of a stream that wait, in order. -/
def jobs (p : Pool) (ref : Nat) : List Job := (p.queue.filter (·.1 = ref)).map (·.2)

/-- The timeouts of a stream that wait for their moment. -/
def alarms (p : Pool) (ref : Nat) : List Timer := p.timers.filter (·.stream = ref)

/-- Take a job out of the queue, wherever it waits. -/
def withdraw (p : Pool) (stream : Nat) (job : Job) : Pool :=
  { p with queue := p.queue.erase (stream, job) }

theorem mem_jobs {p : Pool} {ref : Nat} {job : Job} : job ∈ p.jobs ref ↔ (ref, job) ∈ p.queue := by
  simp [jobs]

theorem jobs_withdraw_self (p : Pool) (ref : Nat) (job : Job) :
    (p.withdraw ref job).jobs ref = (p.jobs ref).erase job := by
  have hfst : ∀ x ∈ p.queue.filter (·.1 = ref), x.1 = ref := fun x hx => by
    simpa using (List.mem_filter.mp hx).2
  unfold jobs withdraw
  dsimp only
  rw [← List.erase_filter]
  generalize p.queue.filter (·.1 = ref) = l at hfst
  induction l with
  | nil => rfl
  | cons x l ih =>
    obtain ⟨ref', job'⟩ := x
    obtain rfl : ref' = ref := hfst _ List.mem_cons_self
    have := ih fun x hx => hfst x (List.mem_cons_of_mem _ hx)
    by_cases h : job' = job <;> simp [h, this]

theorem jobs_withdraw_of_ne {ref ref' : Nat} (h : ref' ≠ ref) (p : Pool) (job : Job) :
    (p.withdraw ref job).jobs ref' = p.jobs ref' := by
  unfold jobs withdraw
  dsimp only
  rw [← List.erase_filter, List.erase_of_not_mem (by simp [h.symm])]

end Pool

/-- What a proxy holds of one stream. -/
@[ext]
structure Share (σ : Type) where
  /-- Its place in the list of streams. -/
  ref : Nat
  member : Option (Member σ)
  /-- What was logged of it, latest first. -/
  record : List (Event σ)
  /-- The jobs that wait to be run, in order. -/
  jobs : List Job
  /-- The timeouts that wait for their moment. -/
  alarms : List Timer
  /-- How many handovers were kept and not used. -/
  handovers : Nat
  now : Nat

/-- The share of a stream. -/
def Proxy.share (p : Proxy σ ε) (ref : Nat) : Share σ where
  ref := ref
  member := p.streams[ref]?
  record := (p.log.filter (·.1 = ref)).map (·.2)
  jobs := p.pool.jobs ref
  alarms := p.pool.alarms ref
  handovers := p.handovers.count (some ref)
  now := p.pool.now

/-! ## Errands -/

/-- Something that happens to one stream of a proxy. -/
inductive Errand (σ : Type) where
  | add (r : Registration σ)
  /-- The embedder hands a request over. -/
  | receive (request : Message)
  /-- The embedder resumes the stream. -/
  | resume
  | terminate (ending : Ending)
  /-- A program runs through the kept handle of a filter. -/
  | act {side : Side} (filter : σ) (index : Nat) (program : Program side Unit)
  /-- The transport uses a handover it kept; those of one stream are all alike. -/
  | answer (h : Handover)
  /-- The response filters are run over a message outside of the phases. -/
  | direct (message : Message) (convert : Converter)
  /-- The pool runs a job of the stream that waits, in its turn or out of it. -/
  | run (job : Job)

/-- What the stream itself does on an errand. -/
def Errand.work (c : Surroundings σ ε) : Errand σ → Turn σ ε → Turn σ ε
  | .add r, t => { t with stream := t.stream.addFilter c.behaviour r }
  | .receive m, t =>
    { t with stream := { t.stream with board := t.stream.board.schedule (.receive m) } }
  | .resume, t =>
    { t with stream := { t.stream with board := t.stream.board.schedule (.resume none) } }
  | .terminate ending, t => { t with stream := (t.stream.terminate ending).2 }
  | .act filter index program, t =>
    { t with stream := { t.stream with board := (program.run filter index t.stream.board).2 } }
  | .answer h, t => { t with stream := Turn.answer t.stream h }
  | .direct message convert, t =>
    { t with stream := (t.stream.runResponseFilters c.behaviour .beforeSend message convert).2 }
  | .run job, t =>
    { (t.exec c job).2 with stream := Life.survive (t.exec c job).1 (t.exec c job).2.stream }

namespace Share

/-- Take an event of the stream in. -/
def take (s : Share σ) (e : Event σ) : Share σ :=
  let s := { s with record := e :: s.record }
  match e with
  | .scheduled job => { s with jobs := s.jobs ++ [job] }
  | .armed delay generation =>
    { s with alarms := s.alarms ++ [⟨s.now + delay.toNat, s.ref, generation⟩] }
  | .forwarded _ _ ⟨.kept, _⟩ => { s with handovers := s.handovers + 1 }
  | _ => s

theorem take_member (s : Share σ) (e : Event σ) : (s.take e).member = s.member := by
  cases e with
  | forwarded host m x =>
    obtain ⟨x, panic⟩ := x
    cases x <;> rfl
  | _ => rfl

theorem take_record (s : Share σ) (e : Event σ) : (s.take e).record = e :: s.record := by
  cases e with
  | forwarded host m x =>
    obtain ⟨x, panic⟩ := x
    cases x <;> rfl
  | _ => rfl

@[simp] theorem foldl_take_member (events : List (Event σ)) (s : Share σ) :
    (events.foldl take s).member = s.member := by
  induction events generalizing s with
  | nil => rfl
  | cons e events ih => exact (ih _).trans (take_member s e)

@[simp] theorem foldl_take_record (events : List (Event σ)) (s : Share σ) :
    (events.foldl take s).record = events.reverse ++ s.record := by
  induction events generalizing s with
  | nil => rfl
  | cons e events ih =>
    rw [List.foldl_cons, ih, take_record, List.reverse_cons, List.append_assoc]
    rfl

/-- Visit the stream. -/
def visited (s : Share σ) (f : Stream σ → Stream σ) : Share σ :=
  match s.member with
  | none => s
  | some m =>
    let x := f m.stream
    let quiet := { x with board := { x.board with log := [] } }
    x.board.log.reverse.foldl take { s with member := some { m with stream := quiet } }

/-- Take out what an errand uses up, if it is there. -/
def draw (s : Share σ) : Errand σ → Option (Share σ)
  | .answer _ => if 0 < s.handovers then some { s with handovers := s.handovers - 1 } else none
  | .run job => if job ∈ s.jobs then some { s with jobs := s.jobs.erase job } else none
  | _ => some s

theorem visited_member {s : Share σ} {m : Member σ} (hm : s.member = some m)
    (f : Stream σ → Stream σ) :
    (s.visited f).member = some { m with stream :=
      { f m.stream with board := { (f m.stream).board with log := [] } } } := by
  unfold visited
  rw [hm]
  exact foldl_take_member _ _

theorem visited_record {s : Share σ} {m : Member σ} (hm : s.member = some m)
    (f : Stream σ → Stream σ) :
    (s.visited f).record = (f m.stream).board.log ++ s.record := by
  unfold visited
  rw [hm]
  dsimp only
  rw [foldl_take_record, List.reverse_reverse]

/-- **The share once an errand was done.** -/
def serve (s : Share σ) (c : Surroundings σ ε) (env : ε) (e : Errand σ) : Share σ :=
  match s.draw e with
  | some s => s.visited fun x => (e.work c ⟨x, env⟩).stream
  | none => s

/-- **The share once time has passed.** -/
def elapse (s : Share σ) (ms : Nat) : Share σ :=
  let moment := s.now + ms
  { s with
    jobs := s.jobs ++ ((s.alarms.filter (·.deadline ≤ moment)).mergeSort
      (fun a b => a.deadline ≤ b.deadline)).map fun t => .timeout t.generation
    alarms := s.alarms.filter (moment < ·.deadline)
    now := moment }

end Share

namespace Proxy

/-- The first handover of a stream that was kept and not used. -/
def handover? (p : Proxy σ ε) (ref : Nat) : Option Nat := p.handovers.findIdx? (· == some ref)

/-- **Do an errand to a stream.**  It is nothing if its job does not wait or there is no
handover. -/
def serve (p : Proxy σ ε) (ref : Nat) : Errand σ → Proxy σ ε
  | .add r => p.addFilter ref r
  | .receive m => p.receive ref m
  | .resume => p.resume ref
  | .terminate ending => (p.terminate ref ending).2
  | .act filter index program => ((p.through ref filter index program).map (·.2)).getD p
  | .answer h =>
    match p.handover? ref with
    | some n => (p.useHandover n h).2
    | none => p
  | .direct message convert => ((p.runResponseFilters ref message convert).map (·.2)).getD p
  | .run job =>
    if (ref, job) ∈ p.pool.queue then { p with pool := p.pool.withdraw ref job }.runJob
      ref job else p

/-- **The pool's own order is one of those**: its next job is one that waits. -/
theorem runNext?_eq (p : Proxy σ ε) :
    p.runNext? = p.pool.queue.head?.map fun x => p.serve x.1 (.run x.2) := by
  unfold runNext? Pool.next?
  cases hq : p.pool.queue with
  | nil => rfl
  | cons x rest => simp [serve, Pool.withdraw, hq]

/-- **A shutdown ends one stream after the other.** -/
theorem shutdown_eq (p : Proxy σ ε) :
    p.shutdown.2 = p.active.streams.foldl (fun q ref => q.serve ref (.terminate .shutdown)) p :=
  (List.foldl_hom Prod.snd fun _ _ => rfl).symm

/-! ### Every errand is a visit -/

/-- Take out what an errand uses up, if it is there. -/
def draw (p : Proxy σ ε) (ref : Nat) : Errand σ → Option (Proxy σ ε)
  | .answer _ => (p.handover? ref).map fun n =>
      { p with handovers := p.handovers.setIfInBounds n none }
  | .run job =>
    if (ref, job) ∈ p.pool.queue then some { p with pool := p.pool.withdraw ref job } else none
  | _ => some p

/-- Visit a stream, if there is one, for the sake of the work alone. -/
def engage (p : Proxy σ ε) (ref : Nat) (g : Turn σ ε → Turn σ ε) : Proxy σ ε :=
  ((p.visit ref fun t => ((), g t)).map (·.2)).getD p

section

variable (p : Proxy σ ε) (ref : Nat)

/-- What a visit leaves does not hang on what it gives back. -/
theorem map_visit (f : Turn σ ε → α × Turn σ ε) :
    ((p.visit ref f).map (·.2)).getD p = p.engage ref fun t => (f t).2 := by
  unfold engage visit
  cases p.streams[ref]? <;> rfl

theorem change_eq (f : Stream σ → Stream σ) :
    p.change ref f = p.engage ref fun t => { t with stream := f t.stream } := by
  unfold change engage visit
  cases p.streams[ref]? <;> rfl

theorem terminate_eq (ending : Ending) :
    (p.terminate ref ending).2 = p.engage ref ((Errand.terminate ending).work p.surroundings) := by
  unfold terminate engage visit
  cases p.streams[ref]? <;> rfl

theorem useHandover_eq {n : Nat} (hn : p.handovers[n]? = some (some ref)) (h : Handover) :
    (p.useHandover n h).2 = { p with handovers := p.handovers.setIfInBounds n none }.engage ref
      ((Errand.answer h).work p.surroundings) := by
  simp only [useHandover, hn, change_eq]
  rfl

/-- **The use of a handover is a visit**, unless there is none of that number any more. -/
theorem useHandover_cases (n : Nat) (h : Handover) : (p.useHandover n h).2 = p ∨
    ∃ ref, p.handovers[n]? = some (some ref) ∧
      (p.useHandover n h).2 = { p with handovers := p.handovers.setIfInBounds n none }.engage ref
        ((Errand.answer h).work p.surroundings) := by
  rcases hn : p.handovers[n]? with _ | _ | ref
  · exact .inl (by simp only [useHandover, hn])
  · exact .inl (by simp only [useHandover, hn])
  · exact .inr ⟨ref, rfl, useHandover_eq p ref hn h⟩

theorem runJob_eq (job : Job) :
    p.runJob ref job = p.engage ref ((Errand.run job).work p.surroundings) := by
  unfold runJob
  dsimp only
  rw [map_visit]
  congr 1
  funext t
  cases h : (t.exec p.surroundings job).1 <;> simp [Errand.work, Life.survive, h]

theorem handover?_spec {n : Nat} (hn : p.handover? ref = some n) :
    p.handovers[n]? = some (some ref) := by
  obtain ⟨hlt, heq, -⟩ := Array.findIdx?_eq_some_iff_getElem.mp hn
  rw [Array.getElem?_eq_getElem hlt, eq_of_beq heq]

/-- **Every errand is a visit**, once what it uses up was taken out. -/
theorem serve_eq (e : Errand σ) : p.serve ref e
    = match p.draw ref e with
      | some q => q.engage ref (e.work p.surroundings)
      | none => p := by
  cases e with
  | add r => exact change_eq p ref (·.addFilter p.surroundings.behaviour r)
  | receive m => exact change_eq p ref fun s => { s with board := s.board.schedule (.receive m) }
  | resume => exact change_eq p ref fun s => { s with board := s.board.schedule (.resume none) }
  | terminate ending => exact terminate_eq p ref ending
  | act filter index program => exact map_visit p ref _
  | answer h =>
    simp only [serve, draw]
    cases hn : p.handover? ref with
    | none => rfl
    | some n => exact useHandover_eq p ref (handover?_spec p ref hn) h
  | direct message convert => exact map_visit p ref _
  | run job =>
    simp only [serve, draw]
    split
    · exact runJob_eq { p with pool := p.pool.withdraw ref job } ref job
    · rfl

end

/-! ### The shares of a visit -/

section

variable {p : Proxy σ ε} {ref ref' : Nat}

/-- The stream of an event takes it in… -/
theorem share_obey_self (listing : Listing) (id : StreamId) (e : Event σ) :
    ({ p.obey ref listing id e with log := (ref, e) :: p.log } : Proxy σ ε).share ref
      = (p.share ref).take e := by
  cases e with
  | scheduled job => simp [obey, share, Share.take, Pool.schedule, Pool.jobs, Pool.alarms]
  | armed delay generation =>
    simp [obey, share, Share.take, Pool.scheduleAfter, Pool.jobs, Pool.alarms]
  | claimed ending => cases listing <;> simp [obey, strike, share, Share.take]
  | forwarded host m x =>
    obtain ⟨h, panic⟩ := x
    cases h <;> simp [obey, share, Share.take]
  | stat s => cases hm : p.meter <;> simp [obey, hm, share, Share.take]
  | _ => simp [obey, share, Share.take]

/-- …and no other stream does. -/
theorem share_obey_of_ne (hne : ref' ≠ ref) (listing : Listing) (id : StreamId) (e : Event σ) :
    ({ p.obey ref listing id e with log := (ref, e) :: p.log } : Proxy σ ε).share ref'
      = p.share ref' := by
  cases e with
  | scheduled job => simp [obey, share, Pool.schedule, Pool.jobs, Pool.alarms, hne.symm]
  | armed delay generation =>
    simp [obey, share, Pool.scheduleAfter, Pool.jobs, Pool.alarms, hne.symm]
  | claimed ending => cases listing <;> simp [obey, strike, share, hne.symm]
  | forwarded host m x =>
    obtain ⟨x, panic⟩ := x
    cases x <;> simp [obey, share, hne.symm]
  | stat s => cases hm : p.meter <;> simp [obey, hm, share, hne.symm]
  | _ => simp [obey, share, hne.symm]

theorem share_absorb_self (listing : Listing) (id : StreamId) (events : List (Event σ))
    (p : Proxy σ ε) :
    (p.absorb ref listing id events).share ref = events.foldl Share.take (p.share ref) := by
  induction events generalizing p with
  | nil => rfl
  | cons e events ih =>
    rw [List.foldl_cons, ← share_obey_self listing id e]
    exact ih _

theorem share_absorb_of_ne (h : ref' ≠ ref) (listing : Listing) (id : StreamId)
    (events : List (Event σ)) (p : Proxy σ ε) :
    (p.absorb ref listing id events).share ref' = p.share ref' := by
  induction events generalizing p with
  | nil => rfl
  | cons e events ih =>
    exact (ih _).trans (share_obey_of_ne h listing id e)

/-- **A visit changes the share of its stream** as the work says… -/
theorem share_engage_self (p : Proxy σ ε) (ref : Nat) (g : Turn σ ε → Turn σ ε) :
    (p.engage ref g).share ref = (p.share ref).visited fun x => (g ⟨x, p.env⟩).stream := by
  unfold engage visit Share.visited
  rw [show (p.share ref).member = p.streams[ref]? from rfl]
  cases hm : p.streams[ref]? with
  | none => rfl
  | some m =>
    have hlt : ref < p.streams.size := (Array.getElem?_eq_some_iff.mp hm).1
    refine (share_absorb_self _ _ _ _).trans (congrArg (List.foldl _ · _) ?_)
    simp only [share, Array.getElem?_setIfInBounds_self_of_lt hlt]

/-- …and no other. -/
theorem share_engage_of_ne (h : ref' ≠ ref) (p : Proxy σ ε) (g : Turn σ ε → Turn σ ε) :
    (p.engage ref g).share ref' = p.share ref' := by
  unfold engage visit
  cases hm : p.streams[ref]? with
  | none => rfl
  | some m =>
    refine (share_absorb_of_ne h _ _ _ _).trans ?_
    simp only [share, Array.getElem?_setIfInBounds_ne h.symm]

/-! ### The shares of an errand -/

theorem handovers_count_set {n : Nat} (hn : p.handovers[n]? = some (some ref)) (x : Nat) :
    (p.handovers.setIfInBounds n none).count (some x)
      = p.handovers.count (some x) - if x = ref then 1 else 0 := by
  obtain ⟨hlt, heq⟩ := Array.getElem?_eq_some_iff.mp hn
  rw [Array.setIfInBounds, dif_pos hlt, Array.count_set, heq]
  by_cases h : x = ref
  · subst h; simp
  · simp [h, Ne.symm h]

/-- **What an errand uses up was taken out**, and nothing else. -/
structure Drawn (p : Proxy σ ε) (ref : Nat) (e : Errand σ) (q : Proxy σ ε) : Prop where
  frame : ∃ pool handovers, q = { p with pool, handovers }
  own : (p.share ref).draw e = some (q.share ref)
  others : ∀ ref', ref' ≠ ref → q.share ref' = p.share ref'

/-- A handover that is used is gone. -/
theorem drawn_handover (p : Proxy σ ε) {n : Nat} (hn : p.handovers[n]? = some (some ref))
    (x : Handover) :
    p.Drawn ref (.answer x) { p with handovers := p.handovers.setIfInBounds n none } where
  frame := ⟨_, _, rfl⟩
  own := by
    have hkept : 0 < (p.share ref).handovers := Array.count_pos_iff.mpr (Array.mem_of_getElem? hn)
    rw [Share.draw, if_pos hkept]
    simp [share, handovers_count_set hn]
  others ref' hne := by simp [share, handovers_count_set hn, hne]

/-- A job that is run is gone. -/
theorem drawn_job (p : Proxy σ ε) {job : Job} (hj : (ref, job) ∈ p.pool.queue) :
    p.Drawn ref (.run job) { p with pool := p.pool.withdraw ref job } where
  frame := ⟨_, _, rfl⟩
  own := by
    have hwaits : job ∈ (p.share ref).jobs := Pool.mem_jobs.mpr hj
    rw [Share.draw, if_pos hwaits]
    simp only [share, Pool.jobs_withdraw_self]
    rfl
  others ref' hne := by
    simp only [share, Pool.jobs_withdraw_of_ne hne]
    rfl

theorem drawn_of_draw {p q : Proxy σ ε} {e : Errand σ} (h : p.draw ref e = some q) :
    p.Drawn ref e q := by
  cases e with
  | answer x =>
    obtain ⟨n, hn, rfl⟩ := Option.map_eq_some_iff.mp h
    exact drawn_handover p (handover?_spec p ref hn) x
  | run job =>
    rw [draw] at h
    split at h
    case isTrue hj =>
      obtain rfl := Option.some.inj h
      exact drawn_job p hj
    case isFalse => cases h
  | _ =>
    obtain rfl := Option.some.inj h
    exact ⟨⟨_, _, rfl⟩, rfl, fun _ _ => rfl⟩

/-- What is not there cannot be taken out. -/
theorem draw_eq_none {p : Proxy σ ε} {e : Errand σ} (h : p.draw ref e = none) :
    (p.share ref).draw e = none := by
  cases e with
  | answer x =>
    have hn : p.handover? ref = none := Option.map_eq_none_iff.mp h
    have hnot : some ref ∉ p.handovers := fun hmem =>
      absurd (Array.findIdx?_eq_none_iff.mp hn _ hmem) (by simp)
    simp [Share.draw, share, Array.count_eq_zero.mpr hnot]
  | run job =>
    rw [draw] at h
    split at h
    case isTrue => cases h
    case isFalse hj => exact if_neg fun hwaits => hj (Pool.mem_jobs.mp hwaits)
  | _ => cases h

/-- The work of an errand, on the share of its stream. -/
theorem Drawn.share_engage {p q : Proxy σ ε} {e : Errand σ} (h : p.Drawn ref e q) :
    (q.engage ref (e.work p.surroundings)).share ref = (p.share ref).serve p.surroundings
      p.env e := by
  obtain ⟨⟨pool, handovers, rfl⟩, hown, -⟩ := h
  rw [share_engage_self, Share.serve, hown]

theorem Drawn.share_engage_of_ne {p q : Proxy σ ε} {e : Errand σ} (h : p.Drawn ref e q)
    (hne : ref' ≠ ref) :
    (q.engage ref (e.work p.surroundings)).share ref' = p.share ref' :=
  (Proxy.share_engage_of_ne hne q _).trans (h.others ref' hne)

/-- **An errand changes the share of its stream by a function of that share**, given how the
collaborators stand… -/
theorem share_serve_self (p : Proxy σ ε) (ref : Nat) (e : Errand σ) :
    (p.serve ref e).share ref = (p.share ref).serve p.surroundings p.env e := by
  rw [serve_eq]
  cases hq : p.draw ref e with
  | none => rw [Share.serve, draw_eq_none hq]
  | some q => exact (drawn_of_draw hq).share_engage

/-- …**and the share of no other stream**. -/
theorem share_serve_of_ne (h : ref' ≠ ref) (p : Proxy σ ε) (e : Errand σ) :
    (p.serve ref e).share ref' = p.share ref' := by
  rw [serve_eq]
  cases hq : p.draw ref e with
  | none => rfl
  | some q => exact (drawn_of_draw hq).share_engage_of_ne h

/-- What of a stream comes due, in order of deadline. -/
theorem filter_due (p : Pool) (moment : Nat) : (p.due moment).filter (·.stream = ref)
    = ((p.alarms ref).filter (·.deadline ≤ moment)).mergeSort
      (fun a b => a.deadline ≤ b.deadline) := by
  have htrans : ∀ a b c : Timer, decide (a.deadline ≤ b.deadline) →
    decide (b.deadline ≤ c.deadline) →
      decide (a.deadline ≤ c.deadline) := fun a b c h h' => by simp at h h' ⊢; omega
  have htotal : ∀ a b : Timer,
    (decide (a.deadline ≤ b.deadline) || decide (b.deadline ≤ a.deadline)) :=
    fun a b => by simp; omega
  rw [Pool.due, filter_mergeSort htrans htotal, Pool.alarms, List.filter_comm]

/-- **Time passes for every stream alike.** -/
theorem share_elapse (p : Proxy σ ε) (ms ref : Nat) :
    (p.elapse ms).2.share ref = (p.share ref).elapse ms := by
  refine Share.ext rfl rfl rfl ?_ (List.filter_comm _ _ _) rfl rfl
  have hjobs (due : List Timer) :
      ((due.map fun t => (t.stream, Job.timeout t.generation)).filter (·.1 = ref)).map (·.2)
        = (due.filter (·.stream = ref)).map fun t => .timeout t.generation := by
    rw [List.filter_map, List.map_map]
    rfl
  change ((p.pool.queue ++ _).filter _).map _ = _
  rw [List.filter_append, List.map_append, hjobs, filter_due]
  rfl

end

end Proxy

/-! ## Errands, one after the other -/

/-- Something that happens while no stream is made and no routing table put in force. -/
inductive Moment (σ : Type) where
  | errand (ref : Nat) (e : Errand σ)
  /-- Time passes, and timeouts come due. -/
  | elapse (ms : Nat)

/-- It happens to that stream; time passes for all. -/
def Moment.concerns (ref : Nat) : Moment σ → Bool
  | .errand ref' _ => ref' = ref
  | .elapse _ => true

namespace Proxy

/-- Let one moment pass. -/
def spend (p : Proxy σ ε) : Moment σ → Proxy σ ε
  | .errand ref e => p.serve ref e
  | .elapse ms => (p.elapse ms).2

end Proxy

end FilterProxy

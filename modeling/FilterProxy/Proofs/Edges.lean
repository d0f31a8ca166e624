import FilterProxy.Proofs.Execute

/-!
# Proofs/Edges — the ways from phase to phase, read off the log

An `Edge` leads on because a phase is complete, because its filters asked to go back, or because a
direct reply was raised; and a phase whose pause is over is executed again (`MayEnter`).  A log that
keeps to them (`Event.Lawful`) makes everything a stream does to others happen **at most once**:
whatever leads up to forwarding the request or to the response filters never comes again.
-/

namespace FilterProxy

variable {σ : Type}

/-- The events since the last phase was entered. -/
def lately (log : List (Event σ)) : List (Event σ) := log.takeWhile (·.enters?.isNone)

theorem lately_append {new : List (Event σ)} (h : ∀ e ∈ new, e.enters? = none)
    (log : List (Event σ)) : lately (new ++ log) = new ++ lately log :=
  List.takeWhile_append_of_pos fun e he => by rw [h e he]; rfl

theorem entries_append {new : List (Event σ)} (h : ∀ e ∈ new, e.enters? = none)
    (log : List (Event σ)) : entries (new ++ log) = entries log := by
  rw [entries, List.filterMap_append, List.filterMap_eq_nil_iff.mpr h]
  rfl

theorem lately_cons {e : Event σ} (h : e.enters? = none) (log : List (Event σ)) :
    lately (e :: log) = e :: lately log :=
  lately_append (List.forall_mem_singleton.mpr h) log

theorem entries_cons_of_none {e : Event σ} (h : e.enters? = none) (log : List (Event σ)) :
    entries (e :: log) = entries log :=
  entries_append (List.forall_mem_singleton.mpr h) log

/-! ## Edges -/

/-- **The edges** from phase to phase.  After the events `older`, the stream may go to the phase. -/
inductive Edge (older : List (Event σ)) : Phase → Prop
  | first (h : entries older = []) : Edge older .init
  /-- The phase executed last is complete. -/
  | next {p} (hp : (entries older).head? = some p)
      (hc : .stat (.phaseCompleted p) ∈ lately older) (hd : p.next ≠ .done) : Edge older p.next
  /-- The pass of a request-filter phase ended with the wish to go there. -/
  | jump {point : RequestPoint} {q} (hp : (entries older).head? = some point.phase)
      (hq : q = .matchRoute ∨ q = .chooseHost)
      (hr : .passed point (.ok (.resumeAt q)) ∈ lately older) : Edge older q
  /-- A direct reply was accepted, and taken at a request-filter phase. -/
  | reply {point : RequestPoint} {code headers} (hp : (entries older).head? = some point.phase)
      (hr : .replied code headers true ∈ older) : Edge older .filterResponse

/-- A phase is executed because an edge leads to it, or **again**, behind the filter that stopped
it. -/
inductive MayEnter (older : List (Event σ)) : Phase → Prop
  | edge {q} (h : Edge older q) : MayEnter older q
  /-- The phase executed last was paused by a filter, and the pause is over. -/
  | again {p} (hp : (entries older).head? = some p) (hs : p.side?.isSome)
      (hr : .published (.paused p) ∈ lately older) (hw : .published .running ∈ lately older) :
      MayEnter older p

namespace MayEnter

variable {older : List (Event σ)} {p q : Phase}

/-- **From the forwarding on, phases rise.** -/
theorem rises (h : MayEnter older q) (hp : (entries older).head? = some p) (hle : 6 ≤ p.number) :
    7 ≤ q.number := by
  rcases h with h | ⟨hp', hs, hr, hw⟩
  case again =>
    obtain rfl : q = p := Option.some.inj (hp'.symm.trans hp)
    revert hs hle
    cases q <;> decide
  cases h with
  | first h => rw [h] at hp; cases hp
  | @next p' hp' hc hd =>
    obtain rfl : p' = p := Option.some.inj (hp'.symm.trans hp)
    have hnumber := Phase.number_next (p := p') (by rintro rfl; exact hd rfl)
    omega
  | @jump point q hp' hq hr =>
    obtain rfl : point.phase = p := Option.some.inj (hp'.symm.trans hp)
    exfalso
    revert hle
    cases point <;> decide
  | reply hp' hr => decide

/-- Only the response filters lead on to the response. -/
theorem to_respond (h : MayEnter older .respond) :
    (entries older).head? = some .filterResponse := by
  generalize hq : Phase.respond = q at h
  rcases h with h | ⟨hp', hs, hr, hw⟩
  case again => subst hq; cases hs
  cases h with
  | first h => cases hq
  | @next p' hp' hc hd =>
    cases p' with
    | filterResponse => exact hp'
    | _ => cases hq
  | jump hp' hq' hr => subst hq; rcases hq' with hq' | hq' <;> cases hq'
  | reply hp' hr => cases hq

/-- **No phase follows the response.** -/
theorem not_after_respond (h : MayEnter older q) :
    (entries older).head? ≠ some .respond := by
  intro hp
  rcases h with h | ⟨hp', hs, hr, hw⟩
  case again =>
    obtain rfl : q = .respond := Option.some.inj (hp'.symm.trans hp)
    cases hs
  cases h with
  | first h => rw [h] at hp; cases hp
  | @next p' hp' hc hd =>
    obtain rfl : p' = .respond := Option.some.inj (hp'.symm.trans hp)
    exact hd rfl
  | @jump point q hp' hq hr =>
    have hpoint : point.phase = .respond := Option.some.inj (hp'.symm.trans hp)
    cases point <;> cases hpoint
  | @reply point _ _ hp' hr =>
    have hpoint : point.phase = .respond := Option.some.inj (hp'.symm.trans hp)
    cases point <;> cases hpoint

theorem ne_done (h : MayEnter older q) : q ≠ .done := by
  rcases h with h | ⟨hp, hs, hr, hw⟩
  case again => rintro rfl; cases hs
  cases h with
  | first h => exact nofun
  | next hp hc hd => exact hd
  | jump hp hq hr => rcases hq with rfl | rfl <;> exact nofun
  | reply hp hr => exact nofun

end MayEnter

/-! ## Lawful logs -/

namespace Event

/-- A request filter or a collaborator is called. -/
def isPlaced : Event σ → Bool
  | .called .request _ _ _ _ => true
  | e => e.isOutward

/-- The request is handed to a host. -/
def isForwarding : Event σ → Bool
  | .forwarded _ _ _ => true
  | _ => false

/-- A response is written. -/
def isWriting : Event σ → Bool
  | .written _ _ => true
  | _ => false

/-- What leads up to the response filters: request filters, routing, hosts and forwarding. -/
def isUpward (e : Event σ) : Bool := e.isPlaced && !e.isWriting

/-- **The law.**  Phases are entered along the edges, and request filters and collaborators are
called in the phase they belong to; a phase calls one collaborator once. -/
structure Lawful (e : Event σ) (older : List (Event σ)) : Prop where
  edge : ∀ q, e = .entered q → MayEnter older q
  place : e.isPlaced = true → ∃ p, (entries older).head? = some p ∧ e.Within p
  once : e.isOutward = true → ∀ f ∈ lately older, f.isOutward = false

/-- An event the law does not mind. -/
structure Tame (e : Event σ) : Prop where
  enters : e.enters? = none
  placed : e.isPlaced = false

theorem isPlaced_of_isOutward {e : Event σ} (h : e.isOutward = true) : e.isPlaced = true := by
  cases e <;> first | rfl | cases h

theorem Tame.lawful {e : Event σ} (h : e.Tame) (older : List (Event σ)) : e.Lawful older where
  edge q hq := by rw [hq] at h; cases h.enters
  place hp := by rw [h.placed] at hp; cases hp
  once ho := by
    have := isPlaced_of_isOutward ho
    rw [h.placed] at this
    cases this

theorem tame_of_isOutside {e : Event σ} (h : e.isOutside = true) : e.Tame := by
  cases e <;> first | exact ⟨rfl, rfl⟩ | cases h

theorem tame_of_isEnding {e : Event σ} (h : e.isEnding = true) : e.Tame := by
  cases e <;> first | exact ⟨rfl, rfl⟩ | cases h

theorem tame_of_pass {e : Event σ} (h : e.inPass .response = true ∨ e.byHandle = true) :
    e.Tame := by
  cases e with
  | called s i f c p =>
    rcases h with h | h
    · obtain rfl : s = .response := by simpa [inPass] using h
      exact ⟨rfl, rfl⟩
    · cases h
  | _ => first | exact ⟨rfl, rfl⟩ | (rcases h with h | h <;> cases h)

theorem eq_entered {e : Event σ} {q : Phase} (h : e.enters? = some q) : e = .entered q := by
  cases e with
  | entered p => rw [Option.some.inj h]
  | _ => cases h

theorem enters?_of_within {p : Phase} {e : Event σ} (h : e.Within p) : e.enters? = none := by
  cases e <;> first | rfl | cases h

theorem exists_forwarded {e : Event σ} (h : e.isForwarding = true) :
    ∃ host request forwarding, e = .forwarded host request forwarding := by
  cases e with
  | forwarded host request forwarding => exact ⟨host, request, forwarding, rfl⟩
  | _ => cases h

theorem exists_written {e : Event σ} (h : e.isWriting = true) :
    ∃ response answer, e = .written response answer := by
  cases e with
  | written response answer => exact ⟨response, answer, rfl⟩
  | _ => cases h

end Event

open Event

theorem Throughout.append_tame {new log : List (Event σ)} (h : Throughout Lawful log)
    (hnew : ∀ e ∈ new, e.Tame) : Throughout Lawful (new ++ log) := by
  refine h.append fun newer e added hsplit => (hnew e ?_).lawful _
  rw [hsplit]
  exact List.mem_append_right _ List.mem_cons_self

/-- **Executing a phase is lawful**, if the phase may be entered. -/
theorem Throughout.append_executed {p : Phase} {new log : List (Event σ)}
    (h : Throughout Lawful log) (hp : MayEnter log p) (hwithin : ∀ e ∈ new, e.Within p)
    (honce : new.countP isOutward ≤ 1) : Throughout Lawful (new ++ .entered p :: log) := by
  have hentered : Throughout Lawful (.entered p :: log) :=
    Throughout.cons_iff.mpr ⟨⟨by rintro q ⟨⟩; exact hp, nofun, nofun⟩, h⟩
  refine hentered.append fun newer e added hsplit => ?_
  have he : e ∈ new := hsplit ▸ List.mem_append_right newer List.mem_cons_self
  have hadded : ∀ f ∈ added, f.enters? = none := fun f hf =>
    enters?_of_within (hwithin f (hsplit ▸ List.mem_append_right newer (List.mem_cons_of_mem e hf)))
  refine ⟨?_, fun _ => ⟨p, ?_, hwithin e he⟩, fun ho f hf => ?_⟩
  · rintro q rfl
    cases enters?_of_within (hwithin _ he)
  · rw [entries_append hadded]
    rfl
  · -- the one collaborator of the phase is the one of this event
    have hlately : lately (added ++ .entered p :: log) = added := by
      rw [lately_append hadded]
      exact List.append_nil added
    rw [hlately] at hf
    rw [hsplit, List.countP_append, List.countP_cons, ho] at honce
    have hzero : added.countP isOutward = 0 := by
      simp only [if_true] at honce
      omega
    simpa using List.countP_eq_zero.mp hzero f hf

/-! ## At most once -/

/-- The request was forwarded, or the response filters were reached. -/
def Beyond (log : List (Event σ)) : Prop :=
  (∃ e ∈ log, e.isForwarding = true) ∨ .filterResponse ∈ entries log

theorem beyond_cons {e : Event σ} {older : List (Event σ)} : Beyond (e :: older) ↔
    e.isForwarding = true ∨ e.enters? = some .filterResponse ∨ Beyond older := by
  rw [Beyond, Beyond, entries_cons, List.mem_append, Option.mem_toList]
  constructor
  · rintro (⟨f, hf, hforward⟩ | hr | hr)
    · rcases List.mem_cons.mp hf with rfl | hf
      · exact .inl hforward
      · exact .inr (.inr (.inl ⟨f, hf, hforward⟩))
    · exact .inr (.inl hr)
    · exact .inr (.inr (.inr hr))
  · rintro (hforward | hr | ⟨f, hf, hforward⟩ | hr)
    · exact .inl ⟨e, List.mem_cons_self, hforward⟩
    · exact .inr (.inl hr)
    · exact .inl ⟨f, List.mem_cons_of_mem e hf, hforward⟩
    · exact .inr (.inr hr)

namespace Event.Lawful

variable {log : List (Event σ)}

/-- Beyond the forwarding, the phase entered last is late, and if it is the forwarding itself, it
forwarded already. -/
theorem head_of_beyond (h : Throughout Lawful log) (hb : Beyond log) :
    ∃ p, (entries log).head? = some p ∧ 6 ≤ p.number ∧
      (p = .forward → ∃ f ∈ lately log, f.isOutward = true) := by
  induction log with
  | nil =>
    rcases hb with ⟨e, he, -⟩ | hb
    · cases he
    · cases hb
  | cons e older ih =>
    obtain ⟨he, holder⟩ := Throughout.cons_iff.mp h
    rcases beyond_cons.mp hb with hforward | hentry | hbeyond
    · obtain ⟨host, request, forwarding, rfl⟩ := exists_forwarded hforward
      obtain ⟨p, hp, hwithin⟩ := he.place rfl
      obtain rfl : p = .forward := hwithin
      rw [entries_cons_of_none rfl, lately_cons rfl]
      exact ⟨_, hp, by decide, fun _ => ⟨_, List.mem_cons_self, rfl⟩⟩
    · obtain rfl := eq_entered hentry
      exact ⟨.filterResponse, rfl, by decide, by simp⟩
    · obtain ⟨p, hp, hle, hlast⟩ := ih holder hbeyond
      cases hentry : e.enters? with
      | some q =>
        obtain rfl := eq_entered hentry
        have hq := (he.edge q rfl).rises hp hle
        exact ⟨q, rfl, Nat.le_of_succ_le hq, by rintro rfl; exact absurd hq (by decide)⟩
      | none =>
        rw [entries_cons_of_none hentry, lately_cons hentry]
        exact ⟨p, hp, hle, fun hpf => (hlast hpf).imp fun f hf =>
          ⟨List.mem_cons_of_mem _ hf.1, hf.2⟩⟩

/-- **Nothing leads up to the response filters any more** once the request was forwarded or they
were reached. -/
theorem not_beyond (h : Throughout Lawful log) :
    Throughout (fun e older => e.isUpward = true → ¬ Beyond older) log := by
  rintro newer e older rfl hupward hb
  obtain ⟨he, holder⟩ := Throughout.cons_iff.mp h.of_append
  obtain ⟨p, hp, hle, hlast⟩ := head_of_beyond holder hb
  have hplaced : e.isPlaced = true := (Bool.and_eq_true_iff.mp hupward).1
  obtain ⟨p', hp', hwithin⟩ := he.place hplaced
  obtain rfl : p' = p := Option.some.inj (hp'.symm.trans hp)
  cases e with
  | called side i f c parts =>
    obtain rfl : side = .request := by cases side <;> first | rfl | cases hplaced
    obtain ⟨point, rfl⟩ := Phase.exists_point hwithin
    revert hle
    cases point <;> decide
  | routed => obtain rfl : p' = .matchRoute := hwithin; exact absurd hle (by decide)
  | chosen => obtain rfl : p' = .chooseHost := hwithin; exact absurd hle (by decide)
  | forwarded =>
    obtain ⟨f, hf, hf'⟩ := hlast hwithin
    rw [he.once rfl f hf] at hf'
    cases hf'
  | written => cases hupward
  | _ => cases hplaced

/-- A response was written in the phase entered last, if any was. -/
theorem head_of_writing (h : Throughout Lawful log) {e : Event σ} (he : e ∈ log)
    (hw : e.isWriting = true) :
    (entries log).head? = some .respond ∧ ∃ f ∈ lately log, f.isOutward = true := by
  induction log with
  | nil => cases he
  | cons f older ih =>
    obtain ⟨hf, holder⟩ := Throughout.cons_iff.mp h
    rcases List.mem_cons.mp he with rfl | he
    · obtain ⟨response, answer, rfl⟩ := exists_written hw
      obtain ⟨p, hp, hwithin⟩ := hf.place rfl
      obtain rfl : p = .respond := hwithin
      rw [entries_cons_of_none rfl, lately_cons rfl]
      exact ⟨hp, _, List.mem_cons_self, rfl⟩
    · obtain ⟨hp, g, hg, hg'⟩ := ih holder he
      cases hentry : f.enters? with
      | some q =>
        obtain rfl := eq_entered hentry
        exact absurd hp (hf.edge q rfl).not_after_respond
      | none =>
        rw [entries_cons_of_none hentry, lately_cons hentry]
        exact ⟨hp, g, List.mem_cons_of_mem _ hg, hg'⟩

/-- Whoever responds went through the response filters. -/
theorem mem_of_respond (h : Throughout Lawful log)
    (hp : (entries log).head? = some .respond) : .filterResponse ∈ entries log := by
  induction log with
  | nil => cases hp
  | cons e older ih =>
    obtain ⟨he, holder⟩ := Throughout.cons_iff.mp h
    cases hentry : e.enters? with
    | some q =>
      obtain rfl := eq_entered hentry
      obtain rfl : q = .respond := Option.some.inj hp
      have hmem := List.mem_of_mem_head? (he.edge _ rfl).to_respond
      exact List.mem_cons_of_mem _ hmem
    | none =>
      rw [entries_cons_of_none hentry] at hp ⊢
      exact ih holder hp

/-- **A response is written once**, and after the response filters. -/
theorem writing (h : Throughout Lawful log) :
    Throughout (fun e older => e.isWriting = true →
      .filterResponse ∈ entries older ∧ ∀ f ∈ older, f.isWriting = false) log := by
  rintro newer e older rfl hw
  obtain ⟨he, holder⟩ := Throughout.cons_iff.mp h.of_append
  obtain ⟨response, answer, rfl⟩ := exists_written hw
  obtain ⟨p, hp, hwithin⟩ := he.place rfl
  obtain rfl : p = .respond := hwithin
  refine ⟨mem_of_respond holder hp, fun f hf => ?_⟩
  cases hf' : f.isWriting with
  | false => rfl
  | true =>
    obtain ⟨-, g, hg, hg'⟩ := head_of_writing holder hf hf'
    rw [he.once rfl g hg] at hg'
    cases hg'

end Event.Lawful

/-- What never happens after itself happens at most once. -/
theorem Throughout.countP_le_one {P : Event σ → Bool} {log : List (Event σ)}
    (h : Throughout (fun e older => P e = true → ∀ f ∈ older, P f = false) log) :
    log.countP P ≤ 1 := by
  induction log with
  | nil => exact Nat.zero_le _
  | cons e older ih =>
    obtain ⟨he, holder⟩ := Throughout.cons_iff.mp h
    rw [List.countP_cons]
    split
    case isFalse => exact ih holder
    case isTrue hP =>
      have hzero : older.countP P = 0 := List.countP_eq_zero.mpr fun f hf => by simp [he hP f hf]
      exact Nat.le_of_eq (congrArg (· + 1) hzero)

/-- …and is told by happening. -/
theorem Throughout.eq_of_mem {P : Event σ → Bool} {log : List (Event σ)}
    (h : Throughout (fun e older => P e = true → ∀ f ∈ older, P f = false) log) {e f : Event σ}
    (he : e ∈ log) (hf : f ∈ log) (hPe : P e = true) (hPf : P f = true) : e = f := by
  induction log with
  | nil => cases he
  | cons g older ih =>
    obtain ⟨hg, holder⟩ := Throughout.cons_iff.mp h
    have later {e' : Event σ} (hP : P g = true) (hP' : P e' = true) : e' ∉ older := fun hmem => by
      rw [hg hP e' hmem] at hP'
      cases hP'
    rcases List.mem_cons.mp he with rfl | he'
    · rcases List.mem_cons.mp hf with rfl | hf'
      · rfl
      · exact absurd hf' (later hPe hPf)
    · rcases List.mem_cons.mp hf with rfl | hf'
      · exact absurd he' (later hPf hPe)
      · exact ih holder he' hf'

/-- A request is never forwarded again. -/
theorem Event.Lawful.forwards_once {log : List (Event σ)} (h : Throughout Lawful log) :
    Throughout (fun e older => e.isForwarding = true → ∀ f ∈ older, f.isForwarding
      = false) log := by
  intro newer e older hsplit hforward f hf
  obtain ⟨host, request, forwarding, rfl⟩ := exists_forwarded hforward
  have hbeyond := Lawful.not_beyond h newer _ older hsplit rfl
  exact Bool.eq_false_iff.mpr fun hf' => hbeyond (.inl ⟨f, hf, hf'⟩)

end FilterProxy

import FilterProxy.Board
import Mathlib.Logic.Relation

/-!
# Proofs/Log — what a log of events tells

A log is kept latest first.  It is read by **projections** (`claims`, `calls`, `entries`, …), which
go through `++`, so a piece of work is known by the events it adds.  It is judged by **laws**:
`Throughout K log` says that at each event the events before it allowed it.
-/

namespace FilterProxy

variable {σ : Type}

/-! ## Projections -/

namespace Event

/-- The ending that was claimed. -/
def claim? : Event σ → Option Ending
  | .claimed e => some e
  | _ => none

/-- The ending of a recorded termination. -/
def termination? : Event σ → Option Ending
  | .stat (.terminated e) => some e
  | _ => none

/-- A cleanup was recorded. -/
def isCleaning : Event σ → Bool
  | .stat .cleaned => true
  | _ => false

/-- The ending for which a release was put out. -/
def release? : Event σ → Option Ending
  | .scheduled (.release e) => some e
  | _ => none

/-- The published status. -/
def status? : Event σ → Option Status
  | .published s => some s
  | _ => none

/-- The phase that is executed. -/
def enters? : Event σ → Option Phase
  | .entered p => some p
  | _ => none

/-- The position of the filter of `side` that is called. -/
def call? (side : Side) : Event σ → Option Nat
  | .called s i _ _ _ => if s = side then some i else none
  | _ => none

/-- The position of the filter of `side` that is told that the stream is gone. -/
def farewell? (side : Side) : Event σ → Option Nat
  | .destroyed s i _ => if s = side then some i else none
  | _ => none

end Event

/-- The endings claimed. -/
def claims (log : List (Event σ)) : List Ending := log.filterMap Event.claim?

/-- The endings recorded as terminations. -/
def terminations (log : List (Event σ)) : List Ending := log.filterMap Event.termination?

/-- How many cleanups were recorded. -/
def cleanings (log : List (Event σ)) : Nat := log.countP Event.isCleaning

/-- The endings for which releases were put out. -/
def releases (log : List (Event σ)) : List Ending := log.filterMap Event.release?

/-- The statuses published. -/
def statuses (log : List (Event σ)) : List Status := log.filterMap Event.status?

/-- The phases executed. -/
def entries (log : List (Event σ)) : List Phase := log.filterMap Event.enters?

/-- The positions of the filters of `side` that were called. -/
def calls (side : Side) (log : List (Event σ)) : List Nat := log.filterMap (Event.call? side)

/-- The positions of the filters of `side` that were told that the stream is gone. -/
def farewells (side : Side) (log : List (Event σ)) : List Nat :=
  log.filterMap (Event.farewell? side)

section

variable (e : Event σ) (log new : List (Event σ)) (side : Side)

theorem filterMap_cons_toList {α : Type} (f : Event σ → Option α) :
    (e :: log).filterMap f = (f e).toList ++ log.filterMap f := by
  cases h : f e <;> simp [h]

theorem claims_cons : claims (e :: log) = e.claim?.toList ++ claims log :=
  filterMap_cons_toList e log _

theorem terminations_cons :
    terminations (e :: log) = e.termination?.toList ++ terminations log :=
  filterMap_cons_toList e log _

theorem cleanings_cons :
    cleanings (e :: log) = (if e.isCleaning then 1 else 0) + cleanings log := by
  rw [cleanings, List.countP_cons, Nat.add_comm]
  rfl

theorem releases_cons : releases (e :: log) = e.release?.toList ++ releases log :=
  filterMap_cons_toList e log _

theorem statuses_cons : statuses (e :: log) = e.status?.toList ++ statuses log :=
  filterMap_cons_toList e log _

theorem entries_cons : entries (e :: log) = e.enters?.toList ++ entries log :=
  filterMap_cons_toList e log _

theorem calls_cons : calls side (e :: log) = (e.call? side).toList ++ calls side log :=
  filterMap_cons_toList e log _

end

/-- An event that is not among the latest is found before them. -/
theorem exists_of_append_eq {new log newer older : List (Event σ)} {e : Event σ}
    (h : new ++ log = newer ++ e :: older) (he : e ∉ new) :
    ∃ newer', newer = new ++ newer' ∧ log = newer' ++ e :: older := by
  rcases List.append_eq_append_iff.mp h with ⟨newer', hnewer, hlog⟩ | ⟨between, hnew, hbetween⟩
  · exact ⟨newer', hnewer, hlog⟩
  · cases between with
    | nil => exact ⟨[], by rw [hnew, List.append_nil, List.append_nil], hbetween.symm⟩
    | cons f between =>
      obtain rfl : e = f := (List.cons.inj hbetween).1
      exact absurd (hnew ▸ List.mem_append_cons_self) he

/-- What is found in a log was there before, or it came since. -/
theorem suffix_or_of_cons_suffix {e : Event σ} {older base log : List (Event σ)}
    (h : e :: older <:+ log) (hb : base <:+ log) : e :: older <:+ base ∨ base <:+ older := by
  rcases List.suffix_or_suffix_of_suffix h hb with hin | hin
  · exact .inl hin
  · rcases List.suffix_cons_iff.mp hin with heq | hsince
    · exact .inl (heq ▸ List.suffix_refl _)
    · exact .inr hsince

/-- What was there before did not come since. -/
theorem not_suffix_of_cons_suffix {e : Event σ} {older base : List (Event σ)}
    (h : e :: older <:+ base) : ¬ base <:+ older := fun hs =>
  Nat.not_succ_le_self older.length (h.trans hs).length_le

/-! ## Laws -/

/-- At each event of the log, the events before it allowed it. -/
def Throughout (K : Event σ → List (Event σ) → Prop) (log : List (Event σ)) : Prop :=
  ∀ newer e older, log = newer ++ e :: older → K e older

namespace Throughout

variable {K : Event σ → List (Event σ) → Prop} {log new : List (Event σ)} {e : Event σ}

theorem nil : Throughout K [] := by
  intro newer e older h
  simp at h

theorem cons_iff : Throughout K (e :: log) ↔ K e log ∧ Throughout K log := by
  constructor
  · intro h
    exact ⟨h [] e log rfl, fun newer e' older hlog => h (e :: newer) e' older (by rw [hlog]; rfl)⟩
  · rintro ⟨he, hlog⟩ newer e' older h
    cases newer with
    | nil =>
      obtain ⟨rfl, rfl⟩ := List.cons.inj h
      exact he
    | cons f newer => exact hlog newer e' older (List.cons.inj h).2

/-- What came before keeps the law as well. -/
theorem of_append (h : Throughout K (new ++ log)) : Throughout K log := by
  intro newer e older hlog
  exact h (new ++ newer) e older (by rw [hlog, List.append_assoc])

/-- What is added keeps the law if each added event is allowed by what was added before it. -/
theorem append (hlog : Throughout K log)
    (hnew : ∀ newer e added, new = newer ++ e :: added → K e (added ++ log)) :
    Throughout K (new ++ log) := by
  induction new with
  | nil => exact hlog
  | cons e new ih =>
    refine cons_iff.mpr ⟨hnew [] e new rfl, ih ?_⟩
    exact fun newer e' added h => hnew (e :: newer) e' added (by rw [h]; rfl)

end Throughout

end FilterProxy

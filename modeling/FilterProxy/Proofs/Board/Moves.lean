import FilterProxy.Proofs.Log

/-!
# Proofs/Board/Moves — all that ever happens to a board

Whatever a stream does, it changes its board by **moves** (`Board.Move`): an event is noted, a
status published, cleanup claimed, a field edited that no book depends on.  Two guards are built in:
an *effect* (a phase, a collaborator, a time limit) and a status other than the last need an
unclaimed board.

So what one move keeps is kept by every piece of work.  `Board.Books` is the main instance:
**cleanup is claimed once, and recorded once, under the ending of the claim.**
-/

namespace FilterProxy

variable {σ : Type}

namespace Event

/-- What only a stream does that nobody has claimed. -/
def isEffect : Event σ → Bool
  | .armed _ _ | .entered _ | .routed _ _ | .chosen _ _ _ | .forwarded _ _ _ | .written _ _ => true
  | _ => false

/-- Neither an effect, nor a status, nor part of the books on cleanup. -/
def isQuiet : Event σ → Bool
  | .stat (.phaseCompleted _) | .stat .filterPanicked | .stat .created => true
  | .scheduled (.release _) => false
  | .scheduled _ | .jumped _ | .passed _ _ | .called _ _ _ _ _ | .looked _ _ _ _ => true
  | .added _ _ _ | .destroyed _ _ _ | .replied _ _ _ | .escaped _ => true
  | _ => false

/-- What a handle may put into the log. -/
def byHandle : Event σ → Bool
  | .replied _ _ _ | .scheduled (.resume _) | .scheduled (.release .filterTerminated) => true
  | .claimed .filterTerminated | .stat (.terminated .filterTerminated) | .stat .cleaned => true
  | _ => false

end Event

namespace Board

/-! ## Moves -/

/-- The fields are changed that neither books nor events depend on. -/
structure Edits (b b' : Board σ) : Prop where
  context : b'.context = b.context
  owned : b'.owned = b.owned
  claimed : b'.claimed = b.claimed
  status : b'.status = b.status
  log : b'.log = b.log
  reply : b'.reply = b.reply ∨ b'.reply = none
  closed : b.closed = true → b'.closed = true

/-- One thing that happens to the board of a stream. -/
inductive Move : Board σ → Board σ → Prop
  | edit {b b'} (h : b.Edits b') : Move b b'
  | raise (b code headers) : Move b (b.raise code headers).2
  | note (b) {e} (h : e.isQuiet = true) : Move b (b.note e)
  | effect (b) {e} (h : e.isEffect = true) (hc : b.claimed = false) : Move b (b.note e)
  | publish (b) {s} (h : ∀ e, s ≠ .finished e) (hc : b.claimed = false) : Move b (b.publish s)
  | claim (b e) : Move b (b.claim e).2
  | terminate (b e) (ho : b.owned = true) : Move b (b.terminate e).2

/-- What happens to a board in the course of some work. -/
abbrev Moves : Board σ → Board σ → Prop := Relation.ReflTransGen Move

@[simp] theorem schedule_of_owned {b : Board σ} (ho : b.owned = true) (job : Job) :
    b.schedule job = b.note (.scheduled job) := by simp [schedule, ho]

@[simp] theorem claim_of_claimed {b : Board σ} (hc : b.claimed = true) (e : Ending) :
    b.claim e = (false, b) := by simp [claim, hc]

@[simp] theorem terminate_of_claimed {b : Board σ} (hc : b.claimed = true) (e : Ending) :
    b.terminate e = (false, b) := by simp [terminate, hc]

/-- The events of the first claim, latest first. -/
def claimEvents (e : Ending) : List (Event σ) :=
  .stat .cleaned :: if e.isAbort then [.stat (.terminated e), .claimed e] else [.claimed e]

theorem mem_claimEvents {e : Ending} {f : Event σ} (h : f ∈ claimEvents e) :
    f = .stat .cleaned ∨ f = .stat (.terminated e) ∨ f = .claimed e := by
  unfold claimEvents at h
  split at h
  · simpa using h
  · have h : f = .stat .cleaned ∨ f = .claimed e := by simpa using h
    exact h.imp_right .inr

/-- The first claim clears the board and writes its events down. -/
theorem claim_of_unclaimed {b : Board σ} (hc : b.claimed = false) (e : Ending) :
    b.claim e = (true, { b.clear with claimed := true, log := claimEvents e ++ b.log }) := by
  cases he : e.isAbort <;> simp [claim, hc, he, claimEvents, note, clear]

/-- …and a termination puts out the release besides. -/
theorem terminate_of_unclaimed {b : Board σ} (ho : b.owned = true) (hc : b.claimed = false)
    (e : Ending) : b.terminate e = (true, { b.clear with
      claimed := true, log := .scheduled (.release e) :: (claimEvents e ++ b.log) }) := by
  simp [terminate, claim_of_unclaimed hc, schedule, clear, ho, note]

/-! ## What every move keeps -/

/-- An event that no book counts. -/
structure OffBooks (e : Event σ) : Prop where
  claim : e.claim? = none
  termination : e.termination? = none
  cleaning : e.isCleaning = false
  release : e.release? = none
  status : e.status? = none

theorem offBooks_of_isQuiet {e : Event σ} (h : e.isQuiet = true) : OffBooks e := by
  cases e with
  | stat s => cases s <;> first | exact ⟨rfl, rfl, rfl, rfl, rfl⟩ | cases h
  | scheduled j => cases j <;> first | exact ⟨rfl, rfl, rfl, rfl, rfl⟩ | cases h
  | _ => first | exact ⟨rfl, rfl, rfl, rfl, rfl⟩ | cases h

theorem offBooks_of_isEffect {e : Event σ} (h : e.isEffect = true) : OffBooks e := by
  cases e with
  | _ => first | exact ⟨rfl, rfl, rfl, rfl, rfl⟩ | cases h

/-- No claim, release or status comes in. -/
structure Frozen (b b' : Board σ) : Prop where
  claims : claims b'.log = claims b.log
  releases : releases b'.log = releases b.log
  statuses : statuses b'.log = statuses b.log
  status : b'.status = b.status

theorem Frozen.trans {b₁ b₂ b₃ : Board σ} (h : b₁.Frozen b₂) (h' : b₂.Frozen b₃) : b₁.Frozen b₃ :=
  ⟨h'.claims.trans h.claims, h'.releases.trans h.releases, h'.statuses.trans h.statuses,
    h'.status.trans h.status⟩

namespace Move

variable {b b' : Board σ}

theorem owned (h : Move b b') : b'.owned = b.owned := by
  cases h with
  | edit h => exact h.owned
  | raise code headers => unfold Board.raise; split <;> rfl
  | note h => rfl
  | effect h hc => rfl
  | publish h hc => rfl
  | claim e => cases hc : b.claimed <;> simp [claim_of_unclaimed, hc, clear]
  | terminate e ho => cases hc : b.claimed <;> simp [terminate_of_unclaimed, ho, hc, clear]

theorem context (h : Move b b') : b'.context = b.context := by
  cases h with
  | edit h => exact h.context
  | raise code headers => unfold Board.raise; split <;> rfl
  | note h => rfl
  | effect h hc => rfl
  | publish h hc => rfl
  | claim e => cases hc : b.claimed <;> simp [claim_of_unclaimed, hc, clear]
  | terminate e ho => cases hc : b.claimed <;> simp [terminate_of_unclaimed, ho, hc, clear]

theorem suffix (h : Move b b') : b.log <:+ b'.log := by
  cases h with
  | edit h => exact h.log ▸ List.suffix_refl _
  | raise code headers => unfold Board.raise; split <;> exact List.suffix_cons _ _
  | note h => exact List.suffix_cons _ _
  | effect h hc => exact List.suffix_cons _ _
  | publish h hc => exact List.suffix_cons _ _
  | claim e =>
    cases hc : b.claimed
    · rw [claim_of_unclaimed hc]; exact List.suffix_append _ _
    · simp only [claim_of_claimed hc, List.suffix_refl]
  | terminate e ho =>
    cases hc : b.claimed
    · rw [terminate_of_unclaimed ho hc]
      exact (List.suffix_append _ _).trans (List.suffix_cons _ _)
    · simp only [terminate_of_claimed hc, List.suffix_refl]

/-- Nobody takes a claim back. -/
theorem claimed (h : Move b b') (hc : b.claimed = true) : b'.claimed = true := by
  cases h with
  | edit h => rw [h.claimed, hc]
  | raise code headers => unfold Board.raise; split <;> exact hc
  | note h => exact hc
  | effect h hn => exact hc
  | publish h hn => exact hc
  | claim e => rw [claim_of_claimed hc, hc]
  | terminate e ho => rw [terminate_of_claimed hc, hc]

/-- **After the claim** nothing is claimed, put out for release or published any more. -/
theorem frozen (h : Move b b') (hc : b.claimed = true) : b.Frozen b' := by
  have offBooks {e : Event σ} (he : OffBooks e) : b.Frozen (b.note e) :=
    ⟨by simp [Board.note, claims_cons, he.claim], by simp [Board.note, releases_cons, he.release],
      by simp [Board.note, statuses_cons, he.status], rfl⟩
  cases h with
  | edit h => exact ⟨by rw [h.log], by rw [h.log], by rw [h.log], h.status⟩
  | raise code headers => unfold Board.raise; split <;> exact ⟨rfl, rfl, rfl, rfl⟩
  | note h => exact offBooks (offBooks_of_isQuiet h)
  | effect h hn => rw [hc] at hn; cases hn
  | publish h hn => rw [hc] at hn; cases hn
  | claim e => rw [claim_of_claimed hc]; exact ⟨rfl, rfl, rfl, rfl⟩
  | terminate e ho => rw [terminate_of_claimed hc]; exact ⟨rfl, rfl, rfl, rfl⟩

end Move

/-! ## The books on cleanup -/

/-- **The books of a board**: one claim at most, recorded as one cleanup and, if it is an abort, as
one termination; at most one release put out, for the claim; no last status but the claimed one. -/
structure Books (b : Board σ) : Prop where
  owned : b.owned = true
  unclaimed : b.claimed = false → claims b.log = []
  claimed : b.claimed = true → ∃ e, claims b.log = [e]
  terminations : terminations b.log = (claims b.log).filter Ending.isAbort
  cleanings : cleanings b.log = (claims b.log).length
  releases : releases b.log = [] ∨ releases b.log = claims b.log
  status : b.status = (statuses b.log).head?.getD .running
  finished : ∀ e, .finished e ∈ statuses b.log → claims b.log = [e]
  /-- No status follows the last. -/
  final : Throughout (fun e older => e.status?.isSome → ∀ r, .finished r ∉ statuses older) b.log
  /-- Every waiting reply was raised and accepted. -/
  signed : ∀ m, b.reply = some m →
    ∃ code headers, m = replyMessage code headers ∧ .replied code headers true ∈ b.log

theorem claims_claimEvents (e : Ending) (log : List (Event σ)) :
    claims (claimEvents e ++ log) = e :: claims log := by
  cases he : e.isAbort <;> simp [claimEvents, he, claims_cons, Event.claim?]

theorem terminations_claimEvents (e : Ending) (log : List (Event σ)) :
    terminations (claimEvents e ++ log) = [e].filter Ending.isAbort ++ terminations log := by
  cases he : e.isAbort <;> simp [claimEvents, he, terminations_cons, Event.termination?]

theorem cleanings_claimEvents (e : Ending) (log : List (Event σ)) :
    cleanings (claimEvents e ++ log) = 1 + cleanings log := by
  cases he : e.isAbort <;> simp [claimEvents, he, cleanings_cons, Event.isCleaning]

theorem releases_claimEvents (e : Ending) (log : List (Event σ)) :
    releases (claimEvents e ++ log) = releases log := by
  cases he : e.isAbort <;> simp [claimEvents, he, releases_cons, Event.release?]

theorem statuses_claimEvents (e : Ending) (log : List (Event σ)) :
    statuses (claimEvents e ++ log) = statuses log := by
  cases he : e.isAbort <;> simp [claimEvents, he, statuses_cons, Event.status?]

namespace Books

variable {b b' : Board σ}

/-- A claim that was announced was made. -/
theorem claimed_of_claims (h : b.Books) {r : Ending} (hr : claims b.log = [r]) :
    b.claimed = true := by
  cases hc : b.claimed with
  | true => rfl
  | false => cases (h.unclaimed hc).symm.trans hr

/-- The books stand on few fields: nothing else about a board matters to them. -/
theorem edit (hb : b.Books) (h : b.Edits b') : b'.Books where
  owned := h.owned.trans hb.owned
  unclaimed := by rw [h.claimed, h.log]; exact hb.unclaimed
  claimed := by rw [h.claimed, h.log]; exact hb.claimed
  terminations := by rw [h.log]; exact hb.terminations
  cleanings := by rw [h.log]; exact hb.cleanings
  releases := by rw [h.log]; exact hb.releases
  status := by rw [h.status, h.log]; exact hb.status
  finished := by rw [h.log]; exact hb.finished
  final := by rw [h.log]; exact hb.final
  signed := by
    intro m hm
    rcases h.reply with hr | hr
    · rw [h.log]; exact hb.signed m (hr ▸ hm)
    · rw [hr] at hm; cases hm

theorem note {e : Event σ} (hb : b.Books) (h : OffBooks e) : (b.note e).Books := by
  have hclaims : claims (b.note e).log = claims b.log := by simp [Board.note, claims_cons, h.claim]
  have hstatuses : statuses (b.note e).log = statuses b.log := by
    simp [Board.note, statuses_cons, h.status]
  exact
    { owned := hb.owned
      unclaimed := fun hc => hclaims.trans (hb.unclaimed hc)
      claimed := fun hc => (hb.claimed hc).imp fun _ he => hclaims.trans he
      terminations := by
        rw [hclaims, ← hb.terminations]; simp [Board.note, terminations_cons, h.termination]
      cleanings := by
        rw [hclaims, ← hb.cleanings]; simp [Board.note, cleanings_cons, h.cleaning]
      releases := by
        have hreleases : FilterProxy.releases (b.note e).log = FilterProxy.releases b.log := by
          simp [Board.note, releases_cons, h.release]
        rw [hclaims, hreleases]
        exact hb.releases
      status := by rw [hstatuses]; exact hb.status
      finished := by rw [hstatuses, hclaims]; exact hb.finished
      final := Throughout.cons_iff.mpr ⟨by simp [h.status], hb.final⟩
      signed := fun m hm =>
        (hb.signed m hm).imp fun _ => Exists.imp fun _ h => ⟨h.1, List.mem_cons_of_mem _ h.2⟩ }

/-- Before the last status, any other may be published, and the last one for the claim. -/
theorem publish {s : Status} (hb : b.Books) (h : ∀ e, s = .finished e → claims b.log = [e])
    (hn : ∀ e, .finished e ∉ statuses b.log) : (b.publish s).Books where
  owned := hb.owned
  unclaimed := hb.unclaimed
  claimed := hb.claimed
  terminations := hb.terminations
  cleanings := hb.cleanings
  releases := hb.releases
  status := rfl
  finished := by
    intro e he
    rcases List.mem_cons.mp (show Status.finished e ∈ s :: statuses b.log from he) with rfl | he
    · exact h e rfl
    · exact hb.finished e he
  final := Throughout.cons_iff.mpr ⟨fun _ => hn, hb.final⟩
  signed m hm := by
    obtain ⟨code, headers, hmsg, hmem⟩ := hb.signed m hm
    exact ⟨code, headers, hmsg, List.mem_cons_of_mem _ hmem⟩

theorem raise (hb : b.Books) (code : UInt16) (headers : Headers) :
    (b.raise code headers).2.Books := by
  unfold Board.raise
  split
  · exact hb.note ⟨rfl, rfl, rfl, rfl, rfl⟩
  · exact
      { hb.note (e := .replied code headers true) ⟨rfl, rfl, rfl, rfl, rfl⟩ with
        signed := by
          intro m hm
          obtain rfl := Option.some.inj hm
          exact ⟨code, headers, rfl, List.mem_cons_self⟩ }

theorem not_finished (hb : b.Books) (hc : b.claimed = false) (e : Ending) :
    .finished e ∉ statuses b.log := by
  intro he
  have h := hb.finished e he
  rw [hb.unclaimed hc] at h
  cases h

theorem status_ne (h : b.Books) {r : Ending}
    (hr : .finished r ∉ statuses b.log) : b.status ≠ .finished r := by
  rw [h.status]
  intro hs
  rcases hstatuses : statuses b.log with _ | ⟨s, rest⟩
  · rw [hstatuses] at hs; cases hs
  · rw [hstatuses] at hs hr
    exact hr (List.mem_cons.mpr (.inl hs.symm))

/-- **The first claim fills the books.** -/
theorem claim (hb : b.Books) (e : Ending) : (b.claim e).2.Books := by
  cases hc : b.claimed
  case true => rw [claim_of_claimed hc]; exact hb
  rw [claim_of_unclaimed hc]
  have hclaims := hb.unclaimed hc
  have hreleases : FilterProxy.releases b.log = [] := by
    rcases hb.releases with h | h
    · exact h
    · rw [h, hclaims]
  exact
    { owned := hb.owned
      unclaimed := nofun
      claimed := fun _ => ⟨e, by rw [claims_claimEvents, hclaims]⟩
      terminations := by
        rw [terminations_claimEvents, claims_claimEvents, hb.terminations, hclaims]; simp
      cleanings := by
        rw [cleanings_claimEvents, claims_claimEvents, hb.cleanings, List.length_cons, Nat.add_comm]
      releases := .inl (by rw [releases_claimEvents, hreleases])
      status := by rw [statuses_claimEvents]; exact hb.status
      finished := by
        intro r hr
        rw [statuses_claimEvents] at hr
        exact absurd hr (hb.not_finished hc r)
      final := hb.final.append fun newer f added h hs => by
        have hf : f ∈ claimEvents e := h ▸ List.mem_append_cons_self
        rcases mem_claimEvents hf with rfl | rfl | rfl <;> cases hs
      signed := nofun }

theorem terminate (hb : b.Books) (e : Ending) : (b.terminate e).2.Books := by
  cases hc : b.claimed
  case true => rw [terminate_of_claimed hc]; exact hb
  have h := hb.claim e
  rw [claim_of_unclaimed hc] at h
  rw [terminate_of_unclaimed hb.owned hc]
  have hclaims : claims (claimEvents e ++ b.log) = [e] := by
    rw [claims_claimEvents, hb.unclaimed hc]
  have hreleases : FilterProxy.releases (claimEvents e ++ b.log) = [] := by
    rw [releases_claimEvents]
    rcases hb.releases with hr | hr
    · exact hr
    · rw [hr, hb.unclaimed hc]
  exact
    { owned := h.owned
      unclaimed := nofun
      claimed := fun _ => ⟨e, hclaims⟩
      terminations := h.terminations
      cleanings := h.cleanings
      releases := .inr (by
        rw [releases_cons, claims_cons, hclaims, hreleases]; rfl)
      status := h.status
      finished := h.finished
      final := Throughout.cons_iff.mpr ⟨nofun, h.final⟩
      signed := nofun }

theorem move (hb : b.Books) (h : Move b b') : b'.Books := by
  cases h with
  | edit h => exact hb.edit h
  | raise code headers => exact hb.raise code headers
  | note h => exact hb.note (offBooks_of_isQuiet h)
  | effect h hc => exact hb.note (offBooks_of_isEffect h)
  | publish h hc => exact hb.publish (fun e he => absurd he (h e)) (hb.not_finished hc)
  | claim e => exact hb.claim e
  | terminate e ho => exact hb.terminate e

end Books

/-! ## Whole pieces of work -/

namespace Moves

variable {b b' : Board σ}

theorem owned (h : Moves b b') : b'.owned = b.owned := by
  induction h with
  | refl => rfl
  | tail _ h ih => exact h.owned.trans ih

/-- **The log only grows.** -/
theorem suffix (h : Moves b b') : b.log <:+ b'.log := by
  induction h with
  | refl => exact List.suffix_refl _
  | tail _ h ih => exact ih.trans h.suffix

theorem claimed (h : Moves b b') (hc : b.claimed = true) : b'.claimed = true := by
  induction h with
  | refl => exact hc
  | tail _ h ih => exact h.claimed ih

theorem unclaimed (h : Moves b b') (hc : b'.claimed = false) : b.claimed = false :=
  Bool.eq_false_iff.mpr fun hc' => by
    rw [h.claimed hc'] at hc
    cases hc

theorem books (h : Moves b b') (hb : b.Books) : b'.Books := by
  induction h with
  | refl => exact hb
  | tail _ h ih => exact ih.move h

theorem frozen (h : Moves b b') (hc : b.claimed = true) : b.Frozen b' := by
  induction h with
  | refl => exact ⟨rfl, rfl, rfl, rfl⟩
  | tail hb h ih => exact ih.trans (h.frozen (claimed hb hc))

end Moves

end Board

end FilterProxy

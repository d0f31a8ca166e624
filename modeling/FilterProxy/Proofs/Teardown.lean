import FilterProxy.Proofs.Deeds

/-!
# Proofs/Teardown — when a release is complete

A release tells the filters in order that the stream is gone and then publishes the ending.  It is
**complete** if every filter was told and the ending is published, and that is so **iff no filter
panics when it is told** (`complete_iff_calm`): the first panic leaves the later filters untold and
the ending unpublished, for ever.
-/

namespace FilterProxy

variable {σ ε : Type}

/-- Nothing is left to do: every filter of the set was told once, and the ending is published. -/
structure Stream.Complete (s : Stream σ) (filters : FilterSet σ) (r : Ending) : Prop where
  told : ∀ side, ∀ i < filters.size side, (farewells side s.board.log).count i = 1
  published : s.board.status = .finished r

/-- How the filters behave while the deed happens, if it can call them. -/
def Deed.behaviour? : Deed σ ε → Option (Behaviour σ)
  | .direct c _ _ | .run _ c _ => some c.behaviour
  | _ => none

/-- **Deed `d` releases the stream** for the claim `r`.  When the release begins the stream is `s`,
with all that was logged before and the same filters. -/
structure Life.Releases (l : Life σ) (d : Deed σ ε) (β : Behaviour σ) (s : Stream σ) (r : Ending) :
    Prop where
  behaviour : d.behaviour? = some β
  condemned : s.Condemned r
  onward : Reached.Onward l s
  result : ∃ panic, (l.next d).stream = survive panic (s.release β r).2

namespace Stream

open Board FilterSet

/-- **A release is complete iff no filter panics**, and publishes the ending iff none does. -/
theorem Condemned.complete_iff {s : Stream σ} {r : Ending} (h : s.Condemned r) (β : Behaviour σ) :
    ((s.release β r).2.Complete s.filters r ↔ s.filters.AllCalm β s.board) ∧
      ((s.release β r).2.board.status = .finished r ↔ s.filters.AllCalm β s.board) := by
  obtain ⟨count, hp⟩ := parting_destroy β s.filters s.board h.books.owned
  have hcalm := destroy_eq_none_iff β s.filters s.board
  rw [release_eq]
  cases hpanic : (destroy β s.filters s.board).1 with
  | some p =>
    have hburst : ¬ s.filters.AllCalm β s.board := by
      rw [← hcalm, hpanic]
      exact nofun
    have hstatus : (destroy β s.filters s.board).2.2.status ≠ .finished r := by
      rw [(hp.moves.frozen h.claimed).status]
      exact h.books.status_ne (h.statuses r)
    exact ⟨⟨fun hc => absurd hc.published hstatus, fun hc => absurd hc hburst⟩,
      ⟨fun hs => absurd hs hstatus, fun hc => absurd hc hburst⟩⟩
  | none =>
    have hcalm := hcalm.mp hpanic
    refine ⟨⟨fun _ => hcalm, fun _ => ⟨fun side i hi => ?_, rfl⟩⟩, ⟨fun _ => hcalm, fun _ => rfl⟩⟩
    have hlog : FilterProxy.farewells side (destroy β s.filters s.board).2.2.log
        = (List.range (s.filters.size side)).reverse := by
      rw [hp.farewells, hp.complete hpanic, h.farewells, List.append_nil]
    change (FilterProxy.farewells side (destroy β s.filters s.board).2.2.log).count i = 1
    rw [hlog, List.count_reverse]
    exact Nat.le_antisymm (List.nodup_iff_count.mp List.nodup_range i)
      (List.count_pos_iff.mpr (List.mem_range.mpr hi))

end Stream

namespace Reached

open Board FilterSet FilterProxy.Stream Life

variable {l : Life σ}

/-- Whoever finishes a stream for good is the first to claim it. -/
theorem releases_of_finish {l' : Life σ} {β : Behaviour σ} {ending : Ending} {d : Deed σ ε}
    (h : Reached none l') (hd : l'.stream.phase ≠ .done)
    (hdone : (l'.stream.finish β ending).2.phase = .done) (hβ : d.behaviour? = some β)
    (ho : Onward l l'.stream) (panic : Option Panic)
    (hs : (l.next d).stream = Life.survive panic (l'.stream.finish β ending).2) :
    ∃ s r, l.Releases d β s r := by
  have hc : l'.stream.board.claimed = false := by
    cases hc : l'.stream.board.claimed with
    | false => rfl
    | true => rw [finish_of_claimed β hc] at hdone; exact absurd hdone hd
  rw [finish_of_unclaimed β hc] at hs
  have hclaim : Moves l'.stream.board (l'.stream.board.claim ending).2 := .single (.claim _ ending)
  exact ⟨_, ending, hβ, h.orderly.condemned_claim hc ending, ⟨ho.log.trans hclaim.suffix, ho.fixed⟩,
    panic, hs⟩

/-- **A stream that was released was condemned before.** -/
theorem exists_releases (h : Reached none l) {d : Deed σ ε} (hd : l.stream.phase ≠ .done)
    (hdone : (l.next d).stream.phase = .done) : ∃ β s r, l.Releases d β s r := by
  have hyields := h.yields_next d
  generalize hl : l.next d = l' at hyields hdone
  have hl := congrArg Life.stream hl
  cases hyields with
  | add r => exact absurd hdone hd
  | board new _ hm hlog hnew => exact absurd hdone hd
  | direct m hp => exact absurd hdone hd
  | @abort c _ _ r _ is m cause hp =>
    obtain ⟨-, -, -, hmoves, heq⟩ := noteAbort_spec (l.directly r m is).stream cause
    have honward : Onward l ((l.directly r m is).stream.noteAbort cause) := by
      refine ⟨hp.moves.suffix.trans hmoves.suffix, ?_⟩
      rw [heq]
      exact hp.fixed
    exact ⟨c.behaviour, releases_of_finish ((h.direct hp m).noteAbort cause)
      (by rw [become_stream, heq]; exact hd) hdone rfl honward none hl⟩
  | idle => exact absurd hdone hd
  | @settled p c env panic s hp hj _ hs =>
    dsimp only at hdone hl
    rw [phase_survive] at hdone
    obtain ⟨s₀, hs₀, hd₀, hf, rfl | ⟨ending, hfinish⟩⟩ := hs
    · exact absurd hdone hd₀
    · obtain rfl : s = _ := congrArg Prod.snd hfinish
      exact ⟨c.behaviour, releases_of_finish hs₀ hd₀ hdone rfl ⟨hf.log, hf.fixed⟩ panic hl⟩
  | @release p c env ending hp hj =>
    exact ⟨c.behaviour, l.stream, ending, rfl, h.orderly.condemned_due hp hj,
      ⟨List.suffix_refl _, .refl _⟩, _, hl⟩

end Reached

namespace Life.Releases

open FilterProxy.Stream

variable {l : Life σ} {d : Deed σ ε} {β : Behaviour σ} {s : Stream σ} {r : Ending}

/-- A release leaves behind what it leaves, and what follows does not change that. -/
theorem complete_iff (h : l.Releases d β s r) {l' : Life σ} (hrests : (l.next d).Rests l') :
    (l'.stream.Complete l.stream.filters r ↔ s.filters.AllCalm β s.board) ∧
      (l'.stream.board.status = .finished r ↔ s.filters.AllCalm β s.board) := by
  obtain ⟨hcomplete, hstatus⟩ := h.condemned.complete_iff β
  obtain ⟨panic, hresult⟩ := h.result
  have hstatus' : l'.stream.board.status = (s.release β r).2.board.status := by
    rw [hrests.frozen.status, hresult]
    cases panic <;> rfl
  have hfarewells (side : Side) : farewells side l'.stream.board.log
      = farewells side (s.release β r).2.board.log := by
    rw [← Life.log, hrests.farewells, Life.log, hresult]
    cases panic <;> rfl
  have hsame : l'.stream.Complete l.stream.filters r ↔ (s.release β r).2.Complete s.filters r := by
    constructor
    · rintro ⟨htold, hpublished⟩
      refine ⟨fun side i hi => ?_, hstatus' ▸ hpublished⟩
      rw [← hfarewells]
      exact htold side i (h.onward.fixed.size side ▸ hi)
    · rintro ⟨htold, hpublished⟩
      refine ⟨fun side i hi => ?_, hstatus'.trans hpublished⟩
      rw [hfarewells]
      exact htold side i ((h.onward.fixed.size side).symm ▸ hi)
  exact ⟨hsame.trans hcomplete, hstatus' ▸ hstatus⟩

end Life.Releases

open Life in
/-- **Every release is complete iff no filter panics when it is told.**  Whatever deed releases the
stream, its claim stands before; and whatever happens afterwards, the ending is published and every
filter was told exactly once, unless one panicked in the round: then the ending is never
published. -/
theorem complete_iff_calm (id : StreamId) (settings : Settings) (deeds : List (Deed σ ε))
    (d : Deed σ ε) (hd : (after id settings deeds).stream.phase ≠ .done)
    (hdone : (after id settings (deeds ++ [d])).stream.phase = .done) :
    ∃ β s r, (after id settings deeds).Releases d β s r ∧ ∀ more : List (Deed σ ε),
      let l := after id settings (deeds ++ d :: more)
      (l.stream.Complete (after id settings deeds).stream.filters r ↔
          s.filters.AllCalm β s.board) ∧
        (l.stream.board.status = .finished r ↔ s.filters.AllCalm β s.board) := by
  have h : Reached none (after id settings deeds) := reached_after id settings deeds
  rw [after_append] at hdone
  obtain ⟨β, s, r, hreleases⟩ := h.exists_releases hd hdone
  refine ⟨β, s, r, hreleases, fun more => ?_⟩
  rw [after_append]
  exact hreleases.complete_iff ((h.next_deed d).rests_foldl more hdone)

/-! ## A farewell that breaks off -/

/-- A filter is whether it panics when it is told that the stream is gone. -/
def bursting : Behaviour Bool where
  onRequest b _ parts := .done ⟨b, parts, .ok .proceed⟩
  onResponse b _ parts := .done ⟨b, parts, .ok .proceed⟩
  onDestroy b _ := .done { filter := b, panic := if b then some ⟨some "boom"⟩ else none }

/-- A request filter, a calm response filter, and the end of the stream. -/
def endedWith (b : Bool) : List (Deed Bool Unit) :=
  [.add bursting (.request b .beforeRoute), .add bursting (.response false .beforeSend),
    .terminate .shutdown]

/-- The pool takes the job of the end. -/
def runShutdown : Deed Bool Unit := .run ⟨.release .shutdown, false⟩ (.secluded bursting) ()

theorem complete_iff_calm_shutdown :
    (Life.after ⟨1⟩ {} (endedWith false)).stream.phase ≠ .done ∧
      (Life.after ⟨1⟩ {} (endedWith false ++ [runShutdown])).stream.phase = .done ∧
      ∃ β s r, (Life.after ⟨1⟩ {} (endedWith false)).Releases runShutdown β s r ∧
        ∀ more : List (Deed Bool Unit),
          let l := Life.after ⟨1⟩ {} (endedWith false ++ runShutdown :: more)
          (l.stream.Complete (Life.after ⟨1⟩ {} (endedWith false)).stream.filters r ↔
              s.filters.AllCalm β s.board) ∧
            (l.stream.board.status = .finished r ↔ s.filters.AllCalm β s.board) := by
  have hd : (Life.after ⟨1⟩ {} (endedWith false)).stream.phase ≠ .done := by decide +kernel
  have hdone : (Life.after ⟨1⟩ {} (endedWith false ++ [runShutdown])).stream.phase = .done := by
    decide +kernel
  exact ⟨hd, hdone, complete_iff_calm ⟨1⟩ {} (endedWith false) runShutdown hd hdone⟩

/-- **A request filter that panics leaves the response filter untold and the stream running for
ever**, though it was claimed and released. -/
theorem panic_leaves_running :
    let l := Life.after ⟨1⟩ {} (endedWith true ++ [runShutdown])
    claims l.log = [.shutdown] ∧ l.stream.phase = .done ∧
      farewells .request l.log = [0] ∧ farewells .response l.log = [] ∧
      ∀ more : List (Deed Bool Unit), (more.foldl Life.next l).stream.board.status = .running := by
  intro l
  have hdone : l.stream.phase = .done := by decide +kernel
  refine ⟨by decide +kernel, hdone, by decide +kernel, by decide +kernel, fun more => ?_⟩
  have hl : Reached none l := reached_after ⟨1⟩ {} _
  exact (hl.rests_foldl more hdone).frozen.status.trans (by decide +kernel)

end FilterProxy

import FilterProxy.Proofs.Accounts
import FilterProxy.Proofs.Cleanup

/-!
# Proofs/Once — cleanup happens once, and whose stream leaves the list

A claim strikes its stream off the list, once and for all, **if the stream is on it**.  A stream is
entered behind the registration of its filters; one that a filter ends as it is given its handle was
struck off before, and stays (`cleanup_once_unless_stillborn`, `stifled_stays_listed`).
-/

namespace FilterProxy

variable {σ ε : Type}

/-- **A claimed stream is listed iff it is stillborn.** -/
theorem Proxy.Tidy.listed_iff_stillborn {p : Proxy σ ε} {stillborn : Finset Nat}
    (h : p.Tidy stillborn)
    (hunique : p.Unique) {ref : Nat} {m : Member σ} (hm : p.streams[ref]? = some m)
    (hc : m.stream.claimed = true) : ref ∈ p.active.streams ↔ ref ∈ stillborn := by
  constructor
  · intro href
    obtain ⟨x, hx, rfl⟩ := List.mem_map.mp href
    exact h.sound.stillborn_of_listed hm hc .proxy hx
  · intro hborn
    exact List.mem_map.mpr ⟨_, h.enlisted hunique ref m hm (.inr hborn), rfl⟩

open Board FilterProxy.Stream Life in
/-- **Cleanup happens once, who claims first decides, and the stream leaves the list unless it is
stillborn.**  At any moment of a life at most one claim was granted, and its ending alone was
recorded and may be published (`Life.Cleanup`).  A claim — at that moment, or later in the work on
the board — is granted iff none was before, and every trigger makes one but the time limit of a
pause that is over.  Nothing later changes a claim or a last status, or makes a released stream call
a filter outside of direct runs.  No filter is called late.

Whatever is done with a proxy, a claimed stream on any of its lists **was claimed before it was
entered there**.  Such a stream stays, as long as no other has its identity: those that were claimed
are listed iff they are stillborn, and none is if the filters let their streams begin. -/
theorem cleanup_once_unless_stillborn (id : StreamId) (settings : Settings)
    (deeds : List (Deed σ ε)) :
    let l := after id settings deeds
    l.Cleanup ∧
      (∀ s : Stream σ, Moves l.stream.board s.board → ∀ ending, s.FirstStands ending) ∧
      (∀ (d : Deed σ ε) ending, l.Triggers d ending →
        claims (l.next d).log = [(claims l.log).head?.getD ending]) ∧
      (∀ generation byReply (c : Surroundings σ ε) env,
        l.stream.pausedBy = none ∨ l.stream.generation ≠ generation →
          (l.next (.run ⟨.timeout generation, byReply⟩ c env)).stream = l.stream) ∧
      (∀ more : List (Deed σ ε),
        (∀ e, claims l.log = [e] → claims (more.foldl next l).log = [e]) ∧
        (∀ r, l.stream.board.status = .finished r →
          (more.foldl next l).stream.board.status = .finished r) ∧
        (l.stream.phase = .done → l.Rests (more.foldl next l))) ∧
      (∀ d : Deed σ ε, d.isDirect = false →
        ∀ newer e older, (l.next d).log = newer ++ e :: older → l.log <:+ older →
          e.Timely older) ∧
      (∀ p₀ p : Proxy σ ε, p₀.Empty → Relation.ReflTransGen Proxy.Step p₀ p →
        ∀ (ref : Nat) (m : Member σ), p.streams[ref]? = some m → m.stream.claimed = true →
          ∀ listing id, (id, ref) ∈ (p.list listing).entries → p₀.Stillborn p ref) ∧
      ∀ p₀ : Proxy σ ε, p₀.Fresh → ∀ incidents : List (Incident σ),
        let p := incidents.foldl Proxy.undergo p₀
        p.Unique → ∀ (ref : Nat) (m : Member σ), p.streams[ref]? = some m →
          m.stream.claimed = true →
          (ref ∈ p.active.streams ↔ ref ∈ p₀.stillbirths incidents) ∧
            (p₀.surroundings.behaviour.LetsBegin → ref ∉ p.active.streams) := by
  intro l
  have h : Reached none l := reached_after id settings deeds
  refine ⟨h.orderly.cleanup, fun s hm => firstStands (hm.books h.orderly.books),
    fun d ending hd => h.claims_trigger hd,
    fun generation byReply c env hs => Reached.stale_timeout hs byReply c env,
    fun more => ⟨fun e => h.claims_foldl more, fun r => h.status_foldl more, h.rests_foldl more⟩,
    fun d hd => h.timely_next hd,
    fun p₀ p hp₀ hp ref m hm hc listing id hx =>
      (Proxy.sound_of_steps hp₀ hp).stillborn_of_listed hm hc listing hx,
    fun p₀ hp₀ incidents => ?_⟩
  intro p hunique ref m hm hc
  have htidy := hp₀.tidy.foldl incidents
  rw [Finset.empty_union] at htidy
  have hlisted := htidy.listed_iff_stillborn hunique hm hc
  refine ⟨hlisted, fun hbegin href => ?_⟩
  have hborn := hlisted.mp href
  rw [Proxy.stillbirths_eq_empty hbegin] at hborn
  exact Finset.notMem_empty ref hborn

/-! ## A stream that is ended twice -/

/-- A stream is reset, then shut down, and the pool takes the job of the reset. -/
def resetAndShutDown : List (Deed Unit Unit) :=
  [.add passing (.request () .beforeRoute), .terminate .reset, .terminate .shutdown,
    .run ⟨.release .reset, false⟩ (.secluded passing) ()]

/-- In a proxy a stream is made and reset. -/
def madeAndReset : List (Incident Unit) := [.new, .reset ⟨1⟩ .reset]

/-- The reset came first, and nothing will change that; in a proxy the stream is listed no more. -/
theorem cleanup_once_unless_stillborn_resetAndShutDown :
    let l := Life.after ⟨1⟩ {} resetAndShutDown
    let p : Proxy Unit Unit := { surroundings := .secluded passing, env := () }
    let q := madeAndReset.foldl Proxy.undergo p
    (l.stream.phase = .done ∧ terminations l.log = [.reset] ∧ farewells .request l.log = [0] ∧
      ∀ more : List (Deed Unit Unit),
        claims (more.foldl Life.next l).log = [.reset] ∧
          (more.foldl Life.next l).stream.board.status = .finished .reset) ∧
      q.streams.size = 1 ∧ 0 ∉ q.active.streams := by
  intro l p q
  obtain ⟨-, -, -, -, hlater, -, -, hlisted⟩ :=
    cleanup_once_unless_stillborn ⟨1⟩ {} resetAndShutDown
  refine ⟨⟨by decide +kernel, by decide +kernel, by decide +kernel,
    fun more => ?_⟩, by decide +kernel, ?_⟩
  · obtain ⟨hclaims, hstatus, -⟩ := hlater more
    exact ⟨hclaims .reset (by decide +kernel), hstatus .reset (by decide +kernel)⟩
  · have hfresh : p.Fresh := ⟨⟨rfl, rfl, rfl⟩, rfl, rfl, rfl⟩
    have hm : q.streams[0]? = some ((q.streams[0]?).get (by decide +kernel)) :=
      (Option.some_get _).symm
    have hunlisted := (hlisted p hfresh madeAndReset
      (Proxy.unique_of_nodup (by decide +kernel)) 0 _ hm
      (by decide +kernel)).2
    exact hunlisted fun filter _ _ => .done filter

/-- **A stream that its filter ends at once stays on the list**: it is claimed, released and
finished, and still listed, whatever is tried to end it. -/
theorem stifled_stays_listed :
    let q := stifled.foldl Proxy.undergo stifling
    q.active.entries = [(⟨1⟩, 0)] ∧ (q.undergo .shutdown).active.entries = [(⟨1⟩, 0)] ∧
      q.streams.toList.map (fun m => (m.stream.claimed, m.stream.phase, m.stream.board.status))
        = [(true, .done, .finished .filterTerminated)] := by
  decide +kernel

end FilterProxy

import FilterProxy.Proofs.Commons

/-!
# Proofs/Independence — the streams of a proxy do not disturb each other

As long as the routing table stays and the collaborators' answers depend on nothing but what they
are asked, what becomes of a stream is settled by its own errands: **the errands to the others may
be left out, and those that stand side by side may change places** (`streams_independent`).
-/

namespace FilterProxy

variable {σ ε : Type}

/-! ## Proxies that agree -/

namespace Proxy

/-- What no errand touches. -/
structure Setup (σ ε : Type) where
  settings : Settings
  installers : List (Installer σ)
  surroundings : Surroundings σ ε
  nextId : UInt64
  meter : Option String

/-- How a proxy is set up. -/
def setup (p : Proxy σ ε) : Setup σ ε :=
  ⟨p.settings, p.installers, p.surroundings, p.nextId, p.meter⟩

/-- Nothing tells the proxies apart but the collaborators' state and the order of what different
streams logged, put out and kept. -/
structure Agrees (p q : Proxy σ ε) : Prop where
  share : ∀ ref, p.share ref = q.share ref
  commons : p.commons = q.commons
  setup : p.setup = q.setup

end Proxy

/-- The collaborators' answers depend on nothing but what they are asked. -/
abbrev Surroundings.Steady (c : Surroundings σ ε) : Prop := c.Alike fun _ _ => True

/-- **What a stream does on an errand** is the same however steady collaborators stand. -/
theorem Surroundings.Steady.work {c : Surroundings σ ε} (h : c.Steady) (env env' : ε) (e : Errand σ)
    (x : Stream σ) : (e.work c ⟨x, env⟩).stream = (e.work c ⟨x, env'⟩).stream := by
  cases e with
  | run job =>
    have hover : Turn.Over (fun _ _ => True) [] ⟨x, env⟩ ⟨x, env'⟩ :=
      ⟨(Stream.atop_nil x).symm, trivial⟩
    obtain ⟨hpanic, hstream, -⟩ := hover.exec h job
    rw [Stream.atop_nil] at hstream
    simp only [Errand.work, hpanic, hstream]
  | _ => rfl

theorem Surroundings.Steady.serve {c : Surroundings σ ε} (h : c.Steady) (env env' : ε)
    (e : Errand σ) (s : Share σ) : s.serve c env e = s.serve c env' e := by
  simp only [Share.serve, h.work env env']

theorem Surroundings.Steady.bill {c : Surroundings σ ε} (h : c.Steady) (env env' : ε) (e : Errand σ)
    (s : Share σ) : s.bill c env e = s.bill c env' e := by
  funext meter common
  simp only [Share.bill, h.work env env']

namespace Proxy

variable {p q : Proxy σ ε}

theorem serve_setup (p : Proxy σ ε) (ref : Nat) (e : Errand σ) :
    (p.serve ref e).setup = p.setup := by
  obtain ⟨_, _, _, _, _, _, _, _, h⟩ := serve_frame p ref e
  rw [h]
  rfl

theorem spend_setup (p : Proxy σ ε) (x : Moment σ) : (p.spend x).setup = p.setup := by
  cases x with
  | errand ref e => exact serve_setup p ref e
  | elapse ms => rfl

theorem foldl_setup (p : Proxy σ ε) (moments : List (Moment σ)) :
    (moments.foldl spend p).setup = p.setup := by
  induction moments generalizing p with
  | nil => rfl
  | cons x rest ih => exact (ih _).trans (spend_setup p x)

/-- A proxy set up like a steady one is steady. -/
theorem steady_of_setup (h : p.setup = q.setup) (hc : q.surroundings.Steady) :
    p.surroundings.Steady := by
  rw [show p.surroundings = q.surroundings from congrArg Setup.surroundings h]
  exact hc

/-- A stream's share after a moment is settled by its share before… -/
theorem share_spend (hc : p.surroundings.Steady) (hs : p.setup = q.setup) {ref : Nat}
    (h : p.share ref = q.share ref) (x : Moment σ) :
      (p.spend x).share ref = (q.spend x).share ref := by
  have hsurroundings : p.surroundings = q.surroundings := congrArg Setup.surroundings hs
  cases x with
  | errand ref' e =>
    by_cases hne : ref = ref'
    · subst hne
      simp only [spend, share_serve_self, h, ← hsurroundings]
      exact hc.serve _ _ e _
    · simp only [spend, share_serve_of_ne hne, h]
  | elapse ms => simp only [spend, share_elapse, h]

/-- …and is the same if the moment is not its concern. -/
theorem share_spend_of_not_concerns (p : Proxy σ ε) {ref : Nat} {x : Moment σ}
    (h : x.concerns ref = false) : (p.spend x).share ref = p.share ref := by
  cases x with
  | errand ref' e => exact share_serve_of_ne (fun heq => by simp [Moment.concerns, heq] at h) p e
  | elapse ms => cases h

/-- **What is not a stream's concern may be left out.** -/
theorem share_foldl (hc : p.surroundings.Steady) (hs : p.setup = q.setup) {ref : Nat}
    (h : p.share ref = q.share ref) (moments : List (Moment σ)) :
    (moments.foldl spend p).share ref
      = ((moments.filter (·.concerns ref)).foldl spend q).share ref := by
  induction moments generalizing p q with
  | nil => exact h
  | cons x rest ih =>
    have hc' := steady_of_setup (spend_setup p x) hc
    cases hx : x.concerns ref with
    | true =>
      rw [List.filter_cons_of_pos hx]
      exact ih hc' ((spend_setup p x).trans (hs.trans (spend_setup q x).symm))
        (share_spend hc hs h x)
    | false =>
      rw [List.filter_cons_of_neg (by simp [hx])]
      exact ih hc' ((spend_setup p x).trans hs) ((share_spend_of_not_concerns p hx).trans h)

namespace Agrees

theorem spend (h : p.Agrees q) (hc : p.surroundings.Steady) (x : Moment σ) :
    (p.spend x).Agrees (q.spend x) where
  share ref := share_spend hc h.setup (h.share ref) x
  setup := (spend_setup p x).trans (h.setup.trans (spend_setup q x).symm)
  commons := by
    have hsurroundings : p.surroundings = q.surroundings := congrArg Setup.surroundings h.setup
    have hmeter : p.meter = q.meter := congrArg Setup.meter h.setup
    cases x with
    | elapse ms => exact h.commons
    | errand ref e =>
      simp only [Proxy.spend, commons_serve, h.share, h.commons, hmeter, ← hsurroundings,
        hc.bill p.env q.env]

theorem foldl (h : p.Agrees q) (hc : p.surroundings.Steady) (moments : List (Moment σ)) :
    (moments.foldl Proxy.spend p).Agrees (moments.foldl Proxy.spend q) := by
  induction moments generalizing p q with
  | nil => exact h
  | cons x rest ih => exact ih (h.spend hc x) (steady_of_setup (spend_setup p x) hc)

/-- **Errands to two streams may change places.** -/
theorem swap (p : Proxy σ ε) (hc : p.surroundings.Steady) {ref ref' : Nat} (hne : ref ≠ ref')
    (e e' : Errand σ) : ((p.serve ref e).serve ref' e').Agrees ((p.serve ref' e').serve ref e) where
  share r := by
    -- no stream is concerned by both
    have hfilter : ([.errand ref e, .errand ref' e'] : List (Moment σ)).filter (·.concerns r)
        = [.errand ref' e', .errand ref e].filter (·.concerns r) := by
      by_cases h : ref = r <;> by_cases h' : ref' = r
      · exact absurd (h.trans h'.symm) hne
      all_goals simp [List.filter, Moment.concerns, h, h']
    refine (share_foldl hc rfl rfl [.errand ref e, .errand ref' e']).trans ?_
    rw [hfilter]
    exact (share_foldl hc rfl rfl [.errand ref' e', .errand ref e]).symm
  commons := by
    have twice {ref ref' : Nat} (hne : ref' ≠ ref) (e e' : Errand σ) :
        ((p.serve ref e).serve ref' e').commons = (p.share ref').bill p.surroundings
          p.env e' p.meter
          ((p.share ref).bill p.surroundings p.env e p.meter p.commons) := by
      have hsetup := serve_setup p ref e
      have hsurroundings : (p.serve ref e).surroundings = p.surroundings :=
        congrArg Setup.surroundings hsetup
      have hmeter : (p.serve ref e).meter = p.meter := congrArg Setup.meter hsetup
      rw [commons_serve, share_serve_of_ne hne, commons_serve, hsurroundings, hmeter,
        hc.bill (p.serve ref e).env p.env]
    rw [twice hne.symm, twice hne, Share.bill_comm]
  setup := by simp only [serve_setup]

end Agrees

end Proxy

/-- **Streams are independent.**  Take any proxy whose collaborators answer by what they are asked
alone, and anything that happens to its streams while no stream is made and the routing table stays.
Then a stream's share — its state, all that it logged, what waits for it — is the same if the
others' errands are left out; and errands to two streams that stand side by side may change places,
whatever goes before and follows. -/
theorem streams_independent (p : Proxy σ ε) (hc : p.surroundings.Steady)
    (moments : List (Moment σ)) :
    (∀ ref, (moments.foldl Proxy.spend p).share ref
      = ((moments.filter (·.concerns ref)).foldl Proxy.spend p).share ref) ∧
    ∀ later ref e ref' e', ref ≠ ref' →
      ((moments ++ Moment.errand ref e :: .errand ref' e' :: later).foldl Proxy.spend p).Agrees
        ((moments ++ Moment.errand ref' e' :: .errand ref e :: later).foldl Proxy.spend p) := by
  refine ⟨fun ref => Proxy.share_foldl hc rfl rfl moments, fun later ref e ref' e' hne => ?_⟩
  rw [List.foldl_append, List.foldl_append]
  have hbefore := Proxy.steady_of_setup (Proxy.foldl_setup p moments) hc
  refine (Proxy.Agrees.swap _ hbefore hne e e').foldl (Proxy.steady_of_setup ?_ hbefore) later
  rw [Proxy.serve_setup, Proxy.serve_setup]

/-! ## Two streams -/

/-- Collaborators that count their calls, and answer every call alike. -/
def counting : Surroundings Unit Nat where
  behaviour := passing
  routing := ⟨some fun _ => .ok (some default)⟩
  reload n routing := (routing, n + 1)
  choose n _ _ := (.ok (.ok default), n + 1)
  forward n _ _ _ := ({ handover := .kept }, n + 1)
  write n _ _ := (.ok (.ok ()), n + 1)

/-- A proxy with two streams. -/
def twofold : Proxy Unit Nat :=
  ({ surroundings := counting, env := 0 } : Proxy Unit Nat).newStream.2.newStream.2

/-- One stream is served while the other is forwarded and reset. -/
def interwoven : List (Moment Unit) :=
  [.errand 0 (.receive {}), .errand 1 (.receive {}), .errand 1 (.run (.receive {})),
    .errand 0 (.run (.receive {})), .errand 0 (.answer (.responded {})),
      .errand 1 (.terminate .reset),
    .errand 0 (.run (.response {})), .errand 1 (.run (.release .reset))]

/-- Each stream ends as it would by itself, though the collaborators were called by turns. -/
theorem streams_independent_interwoven :
    (∀ ref, (interwoven.foldl Proxy.spend twofold).share ref
      = ((interwoven.filter (·.concerns ref)).foldl Proxy.spend twofold).share ref) ∧
    claims ((interwoven.foldl Proxy.spend twofold).share 0).record = [.completed] ∧
    claims ((interwoven.foldl Proxy.spend twofold).share 1).record = [.reset] ∧
    (interwoven.foldl Proxy.spend twofold).env = 7 := by
  have hc : twofold.surroundings.Steady := by
    constructor <;> intros <;> exact ⟨rfl, trivial⟩
  exact ⟨(streams_independent twofold hc interwoven).1, by decide +kernel, by decide +kernel,
    by decide +kernel⟩

end FilterProxy

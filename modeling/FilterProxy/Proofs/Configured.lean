import FilterProxy.Proofs.Conduct

/-!
# Proofs/Configured — proxies of configured filters, end to end

A configuration whose filters every proxy knows resolves to a plan (`Catalog.mapM_builtins_iff`).
Whatever happens to a proxy built from it, its new streams are set up by that plan
(`Proxy.Configured`), and **each of them conducts itself as planned**
(`configured_filters_conduct`).
-/

namespace FilterProxy

variable {σ ε : Type}

open Board FilterProxy.Stream Life

/-! ## Configurations that resolve -/

/-- **What a configured filter is installed as**: its name tells which filter it is, and its
configuration what that writes or answers, and where. -/
inductive FilterConfig.Resolves (f : FilterConfig) : Registration Builtin → Prop
  | setHeader {headers} (hn : f.name = "set_header")
      (h : Builtin.readHeadersConfig f = .ok headers) :
      Resolves f (.request (.setHeader headers) (f.point.getD .beforeRoute))
  | directResponse {status headers} (hn : f.name = "direct_response")
      (h : Builtin.readDirectResponse f = .ok (status, headers))
        (hs : 100 ≤ status ∧ status ≤ 599) :
      Resolves f (.request (.directResponse status.toUInt16 headers) (f.point.getD .beforeRoute))
  | responseHeader {headers} (hn : f.name = "response_header")
      (h : Builtin.readHeadersConfig f = .ok headers) :
      Resolves f (.response (.responseHeader headers) .beforeSend)

namespace Catalog

/-- Every proxy knows three names. -/
theorem make_builtins (f : FilterConfig) : builtins.make f =
    if f.name = "response_header" then Builtin.makeResponseHeader f
    else if f.name = "direct_response" then Builtin.makeDirectResponse f
    else if f.name = "set_header" then Builtin.makeSetHeader f
    else .error (.unknownFilter f.name) := by
  have hmakers : builtins.makers = [("response_header", Builtin.makeResponseHeader),
      ("direct_response", Builtin.makeDirectResponse), ("set_header", Builtin.makeSetHeader)] := by
    simp [builtins, register]
  unfold make
  rw [hmakers]
  simp only [List.lookup_cons, List.lookup_nil, beq_eq_decide]
  by_cases h₁ : f.name = "response_header"
  · simp [h₁]
  by_cases h₂ : f.name = "direct_response"
  · simp [h₂]
  by_cases h₃ : f.name = "set_header" <;> simp [h₁, h₂, h₃]

/-- **A configured filter is made iff it resolves**, and then one filter is installed. -/
theorem make_builtins_iff {f : FilterConfig} {installer : Installer Builtin} :
    builtins.make f = .ok installer ↔ ∃ r, installer = [r] ∧ f.Resolves r := by
  rw [make_builtins]
  constructor
  · intro h
    split at h
    case isTrue hn =>
      unfold Builtin.makeResponseHeader at h
      split at h
      · cases h
      · exact ⟨_, (Except.ok.inj h).symm, .responseHeader hn ‹_›⟩
    case isFalse =>
    split at h
    case isTrue hn =>
      unfold Builtin.makeDirectResponse at h
      split at h
      · cases h
      · split at h
        · exact ⟨_, (Except.ok.inj h).symm, .directResponse hn ‹_› ‹_›⟩
        · cases h
    case isFalse =>
    split at h
    case isTrue hn =>
      unfold Builtin.makeSetHeader at h
      split at h
      · cases h
      · exact ⟨_, (Except.ok.inj h).symm, .setHeader hn ‹_›⟩
    case isFalse => cases h
  · rintro ⟨r, rfl, h⟩
    cases h with
    | setHeader hn h => simp [hn, Builtin.makeSetHeader, h, Builtin.pointOf]
    | directResponse hn h hs => simp [hn, Builtin.makeDirectResponse, h, hs, Builtin.pointOf]
    | responseHeader hn h => simp [hn, Builtin.makeResponseHeader, h]

/-- **All filters of a configuration are made iff they resolve**, in its order. -/
theorem mapM_builtins_iff {filters : List FilterConfig} {installers : List (Installer Builtin)} :
    filters.mapM builtins.make = .ok installers ↔
      ∃ plan : Plan, installers = plan.map ([·]) ∧
      List.Forall₂ FilterConfig.Resolves filters plan := by
  induction filters generalizing installers with
  | nil =>
    constructor
    · intro h
      exact ⟨[], (Except.ok.inj h).symm, .nil⟩
    · rintro ⟨plan, rfl, h⟩
      cases h
      rfl
  | cons f rest ih =>
    rw [List.mapM_cons]
    constructor
    · intro h
      cases hf : builtins.make f with
      | error failure => rw [hf] at h; cases h
      | ok installer =>
        cases hrest : rest.mapM builtins.make with
        | error failure => rw [hf, hrest] at h; cases h
        | ok installers =>
          rw [hf, hrest] at h
          obtain ⟨r, rfl, hr⟩ := make_builtins_iff.mp hf
          obtain ⟨plan, rfl, hplan⟩ := ih.mp hrest
          exact ⟨r :: plan, (Except.ok.inj h).symm, .cons hr hplan⟩
    · rintro ⟨plan, rfl, h⟩
      cases h with
      | @cons _ r _ plan hr hplan =>
        rw [make_builtins_iff.mpr ⟨r, rfl, hr⟩, ih.mpr ⟨plan, rfl, hplan⟩]
        rfl

end Catalog

/-! ## Proxies as they were configured -/

namespace Proxy

/-- **The proxy still is as it was configured**, whatever became of its streams. -/
structure Configured (plan : Plan) (p : Proxy Builtin ε) : Prop where
  convert : p.settings.convert = .keep
  installers : p.installers.flatten = plan
  behaviour : p.surroundings.behaviour = Builtin.behaviour

/-- **Whatever happens, the proxy stays as it was configured.** -/
theorem Configured.setUpLike {plan : Plan} {p q : Proxy Builtin ε} (h : p.Configured plan)
    (hq : p.SetUpLike q) :
    q.Configured plan :=
  ⟨hq.settings ▸ h.convert, hq.installers ▸ h.installers, hq.behaviour.trans h.behaviour⟩

/-- The proxy a configuration makes that resolves. -/
theorem ofConfig_builtins {config : Config} {plan : Plan}
    (hplan : List.Forall₂ FilterConfig.Resolves config.filters plan)
    (c : Surroundings Builtin ε) (env : ε) :
    ofConfig config Catalog.builtins c env = .ok
      { settings := config.settings, installers := plan.map ([·]), surroundings := c, env,
        meter := config.meter } := by
  unfold ofConfig
  rw [Catalog.mapM_builtins_iff.mpr ⟨plan, rfl, hplan⟩]

end Proxy

/-! ## Conduct -/

/-- The errand leaves the filters of the stream as they are configured: it adds none, and no program
runs through the kept handle of one, since they keep their handles to themselves. -/
def Errand.isPlain : Errand σ → Bool
  | .add _ | .act .. => false
  | _ => true

theorem Incident.Causes.plain {c : Surroundings Builtin ε}
    (hβ : c.behaviour = Builtin.behaviour) {ref : Nat}
    {x : Incident Builtin} (hx : ∀ e, x = .moment (.errand ref e) → e.isPlain = true)
    {d : Deed Builtin ε} (h : x.Causes c ref d) : d.Plain := by
  cases h with
  | errand e env byReply =>
    have he := hx e rfl
    cases e with
    | add | act => cases he
    | receive m => exact .nudge (.receive m)
    | resume => exact .nudge .resume
    | terminate ending => exact .nudge (.terminate ending)
    | answer x => exact .nudge (.answer x)
    | direct message convert => exact .nudge (.direct c message convert hβ)
    | run job => exact .run _ c env hβ
  | hand n x => exact .nudge (.answer x)
  | reset id ending => exact .nudge (.terminate ending)
  | shutdown => exact .nudge (.terminate .shutdown)

namespace Proxy

variable {plan : Plan} {p : Proxy Builtin ε} {ref : Nat} {l : Life Builtin}

/-- **A new stream of a configured proxy conducts itself as planned.** -/
theorem Tidy.conducts {stillborn : Finset Nat} (h : p.Tidy stillborn) (hp : p.Configured plan)
    {later : List (Incident Builtin)}
    (hplain : ∀ e, .moment (.errand p.streams.size e) ∈ later → e.isPlain = true) :
    plan.Conducts ((later.foldl Proxy.undergo p.newStream.2).share p.streams.size) := by
  have hbegun := lives_newStream p (h.vacant p.streams.size (Nat.le_refl _))
  rw [hp.installers, hp.behaviour] at hbegun
  obtain ⟨deeds, hlives, hdeeds⟩ := lives_foldl hbegun later
  have hnew := hp.setUpLike (setUpLike_undergo p .new)
  have hall : ∀ d ∈ deeds, d.Plain := fun d hd => by
    obtain ⟨x, hx, c, hc, hcause⟩ := hdeeds d hd
    exact hcause.plain (hc.trans hnew.behaviour) fun e he => hplain e (he ▸ hx)
  have hstage :=
    (Plan.Stage.begin plan ⟨p.nextId⟩ hp.convert).foldl (reached_after (ε := ε) ..) hall
  rw [← after_append] at hstage hlives
  exact hstage.conducts hlives (lived_after ..)

end Proxy

/-- **Configured filters, end to end.**  Take any configuration whose filters all resolve to those
every proxy knows, and any router, cluster manager, host and client.  A proxy can be made of it; and
whatever happened to that proxy before, and whatever happens next, a new stream — unless somebody
adds filters to it — does nothing until its request is taken in.  Then the request filters of each
point are called in order of configuration, up to the first that answers by itself.  The router sees
the request's headers with those of the filters before it written over them in order, the cluster
manager those further written over, and so does the host, who gets body and trailers as they were.
A filter that answers by itself has its reply sent, and no later filter and no collaborator is
asked; else what the host answers is sent.  The response filters' headers are written over
either. -/
theorem configured_filters_conduct {config : Config} {plan : Plan}
    (hplan : List.Forall₂ FilterConfig.Resolves config.filters plan) {c : Surroundings Builtin ε}
    (hβ : c.behaviour = Builtin.behaviour) (env : ε) :
    ∃ p, Proxy.ofConfig config Catalog.builtins c env = .ok p ∧
      ∀ before later : List (Incident Builtin),
      let q := before.foldl Proxy.undergo p
      (∀ e, .moment (.errand q.streams.size e) ∈ later → e.isPlain = true) →
        plan.Conducts ((later.foldl Proxy.undergo q.newStream.2).share q.streams.size) := by
  refine ⟨_, Proxy.ofConfig_builtins hplan c env, fun before later hplain => ?_⟩
  refine Proxy.Tidy.conducts (Proxy.Fresh.tidy ?_ |>.foldl before) ?_ hplain
  · exact ⟨⟨rfl, rfl, rfl⟩, rfl, rfl, rfl⟩
  · refine Proxy.Configured.setUpLike ?_ (Proxy.setUpLike_foldl _ before)
    exact ⟨rfl, List.flatMap_def.symm.trans (List.flatMap_singleton' plan), hβ⟩

/-! ## A gate -/

/-- Requests are stamped and, once they are routed, turned away. -/
def gate : Config where
  filters := [
    { name := "direct_response", point := some .afterRoute, config := .map [("status", .int 403)] },
    { name := "set_header", config := .map [("headers", .map [("X-Via", .text "gate")])] },
    { name := "response_header", config := .map [("headers", .map [("X-Via", .text "gate")])] }]

/-- There is always a route. -/
def signposted : Surroundings Builtin Unit :=
  { Surroundings.secluded Builtin.behaviour with routing := ⟨some fun _ => .ok (some default)⟩ }

/-- A request is taken in by the first stream. -/
def knock : List (Incident Builtin) :=
  [.moment (.errand 0 (.receive {})), .moment (.errand 0 (.run (.receive {})))]

/-- The stamp is called and then the gate; the router was asked, and the client is told. -/
theorem configured_filters_conduct_gate : let stamp := Headers.ofList [("x-via", "gate")]
    let plan : Plan := [.request (.directResponse 403 {}) .afterRoute,
      .request (.setHeader stamp) .beforeRoute,
      .response (.responseHeader stamp) .beforeSend]
    ∃ p, Proxy.ofConfig gate Catalog.builtins signposted () = .ok p ∧
      let share := (knock.foldl Proxy.undergo p.newStream.2).share p.streams.size
      plan.Conducts share ∧ (calls .request share.record).reverse = [1, 0] ∧
        (outward share.record).length = 2 := by
  intro stamp plan
  have hplan : List.Forall₂ FilterConfig.Resolves gate.filters plan :=
    .cons (.directResponse rfl (by decide +kernel) (by decide))
      (.cons (.setHeader rfl (by decide +kernel))
      (.cons (.responseHeader rfl (by decide +kernel)) .nil))
  obtain ⟨p, hp, hconduct⟩ := configured_filters_conduct hplan (c := signposted) rfl ()
  have hplain : ∀ e, .moment (.errand p.streams.size e) ∈ knock → e.isPlain = true := by
    intro e he
    simp only [knock, List.mem_cons, List.not_mem_nil, or_false, Incident.moment.injEq,
      Moment.errand.injEq] at he
    rcases he with ⟨-, rfl⟩ | ⟨-, rfl⟩ <;> rfl
  obtain rfl := Except.ok.inj (hp.symm.trans (Proxy.ofConfig_builtins hplan signposted ()))
  exact ⟨_, hp, hconduct [] knock hplain, by decide +kernel, by decide +kernel⟩

end FilterProxy

import FilterProxy.Proxy
import FilterProxy.Proofs.Deeds

/-!
# Proofs/Listing — which streams are listed

A proxy strikes a stream off its list as it takes in the events of a visit, so a claim must be among
the events of the visit in which it was made (`Board.Grows`).  So every stream on a list is one
nobody has claimed, **except those that were claimed before they were entered** (`Proxy.Sound`): a
filter of a new stream may end it as it is given its handle, and the proxy lists the stream
afterwards.
-/

namespace FilterProxy

variable {σ ε α : Type}

/-! ## What a visit leaves of a stream -/

/-- The log grew, and a claim made meanwhile is in what was added. -/
structure Board.Grows (b b' : Board σ) : Prop where
  context : b'.context = b.context
  owned : b'.owned = b.owned
  log : ∃ new, b'.log = new ++ b.log ∧
    (b.claimed = false → b'.claimed = true → ∃ e, .claimed e ∈ new)

namespace Board

variable {b b' b'' : Board σ}

namespace Grows

theorem refl (b : Board σ) : b.Grows b :=
  ⟨rfl, rfl, [], rfl, fun hc hc' => by rw [hc] at hc'; cases hc'⟩

theorem trans (h : b.Grows b') (h' : b'.Grows b'') : b.Grows b'' := by
  obtain ⟨new, hlog, hnew⟩ := h.log
  obtain ⟨new', hlog', hnew'⟩ := h'.log
  refine ⟨h'.context.trans h.context, h'.owned.trans h.owned, new' ++ new, ?_, fun hc hc'' => ?_⟩
  · rw [hlog', hlog, List.append_assoc]
  · cases hc' : b'.claimed with
    | true => exact (hnew hc hc').imp fun _ => List.mem_append_right _
    | false => exact (hnew' hc' hc'').imp fun _ => List.mem_append_left _

/-- Events are noted and fields change, but nobody claims. -/
theorem of_claimed_eq (new : List (Event σ)) (hlog : b'.log = new ++ b.log)
    (hcontext : b'.context = b.context) (howned : b'.owned = b.owned)
    (hc : b'.claimed = b.claimed) : b.Grows b' :=
  ⟨hcontext, howned, new, hlog, fun hn hc' => by rw [hc, hn] at hc'; cases hc'⟩

theorem note (b : Board σ) (e : Event σ) : b.Grows (b.note e) := of_claimed_eq [e] rfl rfl rfl rfl

end Grows

theorem mem_claimEvents_self (e : Ending) : .claimed e ∈ claimEvents (σ := σ) e := by
  cases he : e.isAbort <;> simp [claimEvents, he]

theorem Move.grows (h : Move b b') : b.Grows b' := by
  have howned := h.owned
  have hcontext := h.context
  cases h with
  | edit h => exact .of_claimed_eq [] h.log hcontext howned h.claimed
  | raise code headers =>
    unfold Board.raise at hcontext howned ⊢
    split
    · exact .of_claimed_eq [.replied code headers false] rfl rfl rfl rfl
    · exact .of_claimed_eq [.replied code headers true] rfl rfl rfl rfl
  | note h => exact .note _ _
  | effect h hc => exact .note _ _
  | publish h hc => exact .of_claimed_eq [_] rfl rfl rfl rfl
  | claim e =>
    cases hc : b.claimed with
    | true => rw [claim_of_claimed hc]; exact .refl b
    | false =>
      refine ⟨hcontext, howned, claimEvents e, by rw [claim_of_unclaimed hc], fun _ _ => ?_⟩
      exact ⟨e, mem_claimEvents_self e⟩
  | terminate e ho =>
    cases hc : b.claimed with
    | true => rw [terminate_of_claimed hc]; exact .refl b
    | false =>
      refine ⟨hcontext, howned, .scheduled (.release e) :: claimEvents e,
        by rw [terminate_of_unclaimed ho hc]; rfl, fun _ _ => ?_⟩
      exact ⟨e, List.mem_cons_of_mem _ (mem_claimEvents_self e)⟩

theorem Moves.grows (h : Moves b b') : b.Grows b' := by
  induction h with
  | refl => exact .refl b
  | tail _ h ih => exact ih.trans h.grows

end Board

theorem Board.moves_introduce {b : Board σ} (ho : b.owned = true) (β : Behaviour σ)
    (s : FilterSet σ) (r : Registration σ) : Board.Moves b (s.introduce β b r).2 :=
  (FilterSet.touched_introduce β s b r).moves (fun _ => Event.isQuiet_of_isIntroduction) ho

/-- A stream as proxies hold it: it has an owner, and it is not paused once it was released. -/
structure Stream.Fit (s : Stream σ) : Prop where
  owned : s.board.owned = true
  poised : s.phase = .done → s.pausedBy = none

/-- **What a visit leaves.** -/
structure Stream.Kept (s s' : Stream σ) : Prop where
  grows : s.board.Grows s'.board
  poised : s'.phase = .done → s'.pausedBy = none

namespace Stream

open Board

variable {s s' : Stream σ}

theorem fit_create (id : StreamId) (settings : Settings) :
    (create id settings : Stream σ).Fit := ⟨rfl, nofun⟩

theorem Fit.kept (h : s.Fit) : s.Kept s := ⟨.refl _, h.poised⟩

theorem Kept.fit (h : s.Kept s') (hf : s.Fit) : s'.Fit := ⟨h.grows.owned.trans hf.owned, h.poised⟩

/-- Only the board moved. -/
theorem Fit.kept_board (h : s.Fit) {b : Board σ} (hm : Moves s.board b) :
    s.Kept { s with board := b } := ⟨hm.grows, h.poised⟩

theorem Fit.kept_addFilter (h : s.Fit) (β : Behaviour σ) (r : Registration σ) :
    s.Kept (s.addFilter β r) :=
  ⟨(moves_introduce h.owned β s.filters r).grows, h.poised⟩

theorem Fit.kept_install (h : s.Fit) (β : Behaviour σ) (installers : List (Installer σ)) :
    s.Kept (s.install β installers) :=
  List.foldlRecOn _ _ h.kept fun _ hs r _ =>
    have hadded := (hs.fit h).kept_addFilter β r
    ⟨hs.grows.trans hadded.grows, hadded.poised⟩

theorem kept_release (β : Behaviour σ) (ending : Ending) (ho : s.board.owned = true) :
    s.Kept (s.release β ending).2 := by
  obtain ⟨count, hp⟩ := FilterSet.parting_destroy β s.filters s.board ho
  rw [release_eq]
  refine ⟨?_, fun _ => rfl⟩
  cases (s.filters.destroy β s.board).1 with
  | some p => exact hp.moves.grows
  | none => exact hp.moves.grows.trans (.of_claimed_eq [_] rfl rfl rfl rfl)

theorem Fit.kept_finish (h : s.Fit) (β : Behaviour σ) (ending : Ending) :
    s.Kept (s.finish β ending).2 := by
  cases hc : s.board.claimed with
  | true => rw [finish_of_claimed β hc]; exact h.kept
  | false =>
    have hclaim : Move s.board (s.board.claim ending).2 := .claim _ _
    obtain ⟨hgrows, hpoised⟩ := kept_release (s := { s with board := (s.board.claim ending).2 })
      β ending (hclaim.owned.trans h.owned)
    rw [finish_of_unclaimed β hc]
    exact ⟨hclaim.grows.trans hgrows, hpoised⟩

/-- **A drive keeps the stream it started with.** -/
theorem leads_kept (β : Behaviour σ) (s₀ : Stream σ) (ho : s₀.board.owned = true) :
    Leads β (fun _ s => s₀.board.Grows s.board ∧ s.phase ≠ .done) (fun _ s => s₀.Kept s) where
  owned h := h.1.owned.trans ho
  notDone h := h.2
  halt h _ := ⟨h.1, fun hd => absurd hd h.2⟩
  stay h hl hx _ _ := by
    refine ⟨h.1.trans (hx.moves hl).grows, fun hd => ?_⟩
    rw [hx.phase] at hd
    exact absurd hd h.2
  finish := by
    intro start s step s' new is h hl hx _ ending
    have hgrows := h.1.trans (hx.moves hl).grows
    have hfit : s'.Fit :=
      ⟨hgrows.owned.trans ho, fun hd => by rw [hx.phase] at hd; exact absurd hd h.2⟩
    obtain ⟨hgrows', hpoised⟩ := hfit.kept_finish β ending
    exact ⟨hgrows.trans hgrows', hpoised⟩
  next := by
    intro start s s' new is h hl hx
    refine ⟨(h.1.trans (hx.moves hl).grows).trans (.note _ _), ?_⟩
    cases hx with
    | next hw ha hp =>
      rw [advanced_phase, hw.phase]
      exact Phase.next_ne_done hp
  goto := by
    intro start s q s' new is h hl hx
    refine ⟨h.1.trans (hx.moves hl).grows, ?_⟩
    cases hx with
    | reply => exact nofun
  jump := by
    intro start s q s' new is rest h hl hx hj
    refine ⟨(h.1.trans (hx.moves hl).grows).trans (.note _ _), ?_⟩
    cases hx with
    | jump hw ha hp hq hr =>
      rcases hq with rfl | rfl <;> exact nofun

end Stream

namespace Turn

open Board FilterProxy.Stream

/-- **Every job keeps its stream.** -/
theorem kept_exec (c : Surroundings σ ε) (t : Turn σ ε) (job : Job) (hf : t.stream.Fit) :
    t.stream.Kept (t.exec c job).2.stream := by
  have drive {start : Nat} {t' : Turn σ ε} (hg : t.stream.board.Grows t'.stream.board)
      (hd : t'.stream.phase ≠ .done) : t.stream.Kept (t'.drive c start).2.stream :=
    drive_induction c (leads_kept c.behaviour t.stream hf.owned) start t' ⟨hg, hd⟩
  have awake {index : Nat} (hp : t.stream.pausedBy = some index) : t.stream.phase ≠ .done :=
    fun hd => by rw [hf.poised hd] at hp; cases hp
  have hran := ran_exec c t job
  generalize t.exec c job = r at hran ⊢
  cases hran with
  | idle => exact hf.kept
  | drive ho =>
    cases ho with
    | receive hc hp => exact drive (.refl _) (fun hd => by rw [hd] at hp; cases hp)
    | resume hc hp => exact drive (.of_claimed_eq [_] rfl rfl rfl rfl) (awake hp)
    | reroute hc hp => exact drive (.of_claimed_eq [.published .running] rfl rfl rfl rfl) nofun
    | response hc hp =>
      exact drive (.of_claimed_eq [.stat (.phaseCompleted .awaitResponse)] rfl rfl rfl rfl) nofun
  | timeout hp => exact hf.kept_finish c.behaviour .stopTimeout
  | release ending => exact kept_release c.behaviour ending hf.owned

end Turn

namespace Stream

open Board FilterSet

variable {s : Stream σ}

/-- **A direct run keeps its stream.** -/
theorem Fit.kept_runResponseFilters (h : s.Fit) (β : Behaviour σ) (message : Message)
    (convert : Converter) :
    s.Kept (s.runResponseFilters β .beforeSend message convert).2 := by
  obtain ⟨new, is, hp⟩ := passResponses_spec β 0 convert s.filters ⟨s.board, message.parts⟩
    .beforeSend h.owned
  rw [runResponseFilters_eq β message convert rfl]
  generalize passResponses β .beforeSend 0 convert s.filters ⟨s.board, message.parts⟩ = r at hp ⊢
  have hkept : s.Kept { s with
      filters := r.filters, board := r.bench.board, response := r.bench.parts.message } :=
    ⟨hp.moves.grows, h.poised⟩
  split
  case h_1 cause hcause =>
    obtain ⟨-, -, -, hmoves, heq⟩ := noteAbort_spec { s with
      filters := r.filters, board := r.bench.board, response := r.bench.parts.message } cause
    have hnoted := (hkept.fit h).kept_board hmoves
    rw [← heq] at hnoted
    have hfinish := (hnoted.fit (hkept.fit h)).kept_finish β cause.ending
    exact ⟨(hkept.grows.trans hnoted.grows).trans hfinish.grows, hfinish.poised⟩
  case h_2 => exact hkept

end Stream

/-! ## Lists -/

namespace Registry

variable {r : Registry} {id : StreamId} {x : StreamId × Nat}

theorem mem_erase : x ∈ (r.erase id).entries ↔ x ∈ r.entries ∧ x.1 ≠ id := by
  simp [erase, List.mem_filter]

theorem mem_insert {stream : Nat} (h : x ∈ (r.insert id stream).entries) :
    x ∈ r.entries ∨ x = (id, stream) := by
  rcases List.mem_append.mp h with h | h
  · exact .inl (mem_erase.mp h).1
  · exact .inr (List.mem_singleton.mp h)

end Registry

namespace Proxy

/-- The stream a proxy makes next, with the filters of its installers. -/
def opening (p : Proxy σ ε) : Stream σ :=
  (Stream.create ⟨p.nextId⟩ p.settings).install p.surroundings.behaviour p.installers

theorem kept_opening (p : Proxy σ ε) : (Stream.create ⟨p.nextId⟩ p.settings).Kept p.opening :=
  (Stream.fit_create _ _).kept_install _ _

theorem fit_opening (p : Proxy σ ε) : p.opening.Fit := p.kept_opening.fit (Stream.fit_create _ _)

theorem opening_context (p : Proxy σ ε) :
    p.opening.board.context = ⟨⟨p.nextId⟩, p.settings.proxy⟩ :=
  p.kept_opening.grows.context

/-- The streams listed there. -/
def list (p : Proxy σ ε) : Listing → Registry
  | .nowhere => {}
  | .proxy => p.active
  | .aside => p.aside

/-- **Every stream is as proxies hold it, and those on a list are nobody's yet**: each stands where
it was listed, under its identity, and none of them was claimed but the stillborn. -/
structure Sound (p : Proxy σ ε) (stillborn : Nat → Prop) : Prop where
  fit : ∀ (ref : Nat) (m : Member σ), p.streams[ref]? = some m → m.stream.Fit
  listed : ∀ listing id ref, (id, ref) ∈ (p.list listing).entries →
    ∃ m : Member σ, p.streams[ref]? = some m ∧ m.listing = listing ∧
      m.stream.board.context.id = id ∧
      (m.stream.claimed = false ∨ stillborn ref)

/-! ## Taking events in -/

section

variable (ref : Nat) (listing : Listing) (id : StreamId) (p : Proxy σ ε)

theorem obey_streams (e : Event σ) : (p.obey ref listing id e).streams = p.streams := by
  unfold obey
  split
  case h_3 => cases listing <;> rfl
  case h_5 => split <;> rfl
  all_goals rfl

theorem obey_list (e : Event σ) (listing' : Listing) :
    (p.obey ref listing id e).list listing' = p.list listing' ∨
      listing' = listing ∧ (p.obey ref listing id e).list listing'
        = (p.list listing').erase id := by
  unfold obey
  split
  case h_3 =>
    cases listing <;> cases listing' <;> first | exact .inl rfl | exact .inr ⟨rfl, rfl⟩
  case h_5 => split <;> (cases listing' <;> exact .inl rfl)
  all_goals (cases listing' <;> exact .inl rfl)

/-- A claim strikes the stream off its list. -/
theorem obey_claimed (ending : Ending) :
    (p.obey ref listing id (.claimed ending : Event σ)).list listing
      = (p.list listing).erase id := by
  cases listing <;> rfl

end

/-- **What taking events in does to the streams and lists.** -/
theorem absorb_spec (ref : Nat) (listing : Listing) (id : StreamId) (events : List (Event σ))
    (p : Proxy σ ε) :
    let p' := p.absorb ref listing id events
    p'.streams = p.streams ∧
      (∀ listing' x, x ∈ (p'.list listing').entries → x ∈ (p.list listing').entries) ∧
      ((∃ e, .claimed e ∈ events) → ∀ ref', (id, ref') ∉ (p'.list listing).entries) := by
  induction events generalizing p with
  | nil => exact ⟨rfl, fun _ _ hx => hx, by rintro ⟨e, he⟩; cases he⟩
  | cons e events ih =>
    obtain ⟨hstreams, hsub, hclaimed⟩ :=
      ih { p.obey ref listing id e with log := (ref, e) :: p.log }
    have hlist (listing' : Listing) :
        ({ p.obey ref listing id e with log := (ref, e) :: p.log } : Proxy σ ε).list listing'
          = (p.obey ref listing id e).list listing' := by cases listing' <;> rfl
    refine ⟨hstreams.trans (obey_streams ref listing id p e), fun listing' x hx => ?_, ?_⟩
    · have hx := hsub listing' x hx
      rw [hlist] at hx
      rcases obey_list ref listing id p e listing' with h | ⟨-, h⟩
      · rwa [h] at hx
      · rw [h] at hx
        exact (Registry.mem_erase.mp hx).1
    · rintro ⟨r, hr⟩ ref' hx
      rcases List.mem_cons.mp hr with rfl | hr
      · have hx := hsub listing _ hx
        rw [hlist, obey_claimed] at hx
        exact (Registry.mem_erase.mp hx).2 rfl
      · exact hclaimed ⟨r, hr⟩ ref' hx

/-- A change finds its stream where it was. -/
theorem change_getElem? {p : Proxy σ ε} (ref : Nat) {m : Member σ} (f : Stream σ → Stream σ)
    (hm : p.streams[ref]? = some m) :
    ∃ m' : Member σ, (p.change ref f).streams[ref]? = some m' ∧ m'.listing = m.listing ∧
      m'.stream.board.context = (f m.stream).board.context ∧
      m'.stream.claimed = (f m.stream).claimed := by
  have hlt := (Array.getElem?_eq_some_iff.mp hm).1
  simp only [Proxy.change, Proxy.visit, hm, Option.map_some, (absorb_spec _ _ _ _ _).1]
  exact ⟨_, Array.getElem?_setIfInBounds_self_of_lt hlt, rfl, rfl, rfl⟩

namespace Sound

variable {p p' : Proxy σ ε} {stillborn : Nat → Prop} {ref : Nat}

theorem mono {stillborn' : Nat → Prop} (h : p.Sound stillborn)
    (hs : ∀ ref, stillborn ref → stillborn' ref) :
    p.Sound stillborn' where
  fit := h.fit
  listed listing id ref hx := by
    obtain ⟨m, hm, hlisting, hid, hc⟩ := h.listed listing id ref hx
    exact ⟨m, hm, hlisting, hid, hc.imp_right (hs ref)⟩

/-- Only streams and lists matter. -/
theorem congr (h : p.Sound stillborn) (hs : p'.streams = p.streams) (ha : p'.active = p.active)
    (hb : p'.aside = p.aside) : p'.Sound stillborn where
  fit := hs ▸ h.fit
  listed listing id ref hx := by
    have hlist : p'.list listing = p.list listing := by
      cases listing
      · rfl
      · exact ha
      · exact hb
    rw [hs]
    exact h.listed listing id ref (hlist ▸ hx)

/-- **Every visit that keeps its stream leaves the proxy sound.** -/
theorem visit (h : p.Sound stillborn) {f : Turn σ ε → α × Turn σ ε}
    (hf : ∀ t : Turn σ ε, t.stream.Fit → t.stream.Kept (f t).2.stream) {r : α × Proxy σ ε}
    (hr : p.visit ref f = some r) : r.2.Sound stillborn := by
  obtain ⟨m, hm, rfl⟩ := Option.map_eq_some_iff.mp hr
  have hkept := hf ⟨m.stream, p.env⟩ (h.fit ref m hm)
  dsimp only
  generalize f ⟨m.stream, p.env⟩ = r at hkept ⊢
  obtain ⟨hstreams, hsub, hclaimed⟩ := absorb_spec ref m.listing r.2.stream.board.context.id
    r.2.stream.board.log.reverse { p with
      streams := p.streams.setIfInBounds ref { m with stream :=
        { r.2.stream with board := { r.2.stream.board with log := [] } } }, env := r.2.env }
  have hlt : ref < p.streams.size := (Array.getElem?_eq_some_iff.mp hm).1
  refine ⟨fun ref' m' hm' => ?_, fun listing id ref' hx => ?_⟩
  · rw [hstreams] at hm'
    by_cases heq : ref = ref'
    · subst heq
      obtain rfl := Option.some.inj ((Array.getElem?_setIfInBounds_self_of_lt hlt).symm.trans hm')
      have hfit := hkept.fit (h.fit ref m hm)
      exact ⟨hfit.owned, hfit.poised⟩
    · exact h.fit ref' m' ((Array.getElem?_setIfInBounds_ne heq).symm.trans hm')
  · have hold : (id, ref') ∈ (p.list listing).entries := by
      have := hsub listing _ hx
      cases listing <;> exact this
    obtain ⟨m', hm', hlisting, hid, hlisted⟩ := h.listed listing id ref' hold
    rw [hstreams]
    by_cases heq : ref = ref'
    case neg =>
      exact ⟨m', (Array.getElem?_setIfInBounds_ne heq).trans hm', hlisting, hid, hlisted⟩
    case pos =>
      subst heq
      obtain rfl : m = m' := Option.some.inj (hm.symm.trans hm')
      have hid' : r.2.stream.board.context.id = id := by rw [hkept.grows.context]; exact hid
      refine ⟨_, Array.getElem?_setIfInBounds_self_of_lt hlt, hlisting, hid',
        hlisted.imp_left fun hunclaimed => ?_⟩
      -- a claim of this visit would have struck the stream off
      cases hc : r.2.stream.board.claimed with
      | false => exact hc
      | true =>
        obtain ⟨new, hlog, hnew⟩ := hkept.grows.log
        obtain ⟨e, he⟩ := hnew hunclaimed hc
        refine absurd hx ?_
        rw [← hlisting, ← hid']
        exact hclaimed ⟨e, by rw [hlog, List.mem_reverse]; exact List.mem_append_left _ he⟩ ref

theorem change (h : p.Sound stillborn) (ref : Nat) {f : Stream σ → Stream σ}
    (hf : ∀ s : Stream σ, s.Fit → s.Kept (f s)) :
    (p.change ref f).Sound stillborn := by
  unfold Proxy.change
  split
  case h_1 r hr => exact h.visit (fun t => hf t.stream) hr
  case h_2 => exact h

/-- A stream nobody has claimed may be entered where it is to be listed. -/
theorem insert (h : p.Sound stillborn) {m : Member σ} (hm : p.streams[ref]? = some m)
    (hc : m.stream.claimed = false ∨ stillborn ref) (hs : p'.streams = p.streams)
    (hl : ∀ listing x, x ∈ (p'.list listing).entries → x ∈ (p.list listing).entries ∨
      listing = m.listing ∧ x = (m.stream.board.context.id, ref)) : p'.Sound stillborn where
  fit := hs ▸ h.fit
  listed listing id ref' hx := by
    rw [hs]
    rcases hl listing _ hx with hx | ⟨rfl, heq⟩
    · exact h.listed listing id ref' hx
    · obtain ⟨rfl, rfl⟩ := Prod.mk.inj heq
      exact ⟨m, hm, rfl, rfl, hc⟩

theorem push (h : p.Sound stillborn) {m : Member σ} (hm : m.stream.Fit) :
    ({ p with streams := p.streams.push m } : Proxy σ ε).Sound stillborn where
  fit ref m' hm' := by
    rw [Array.getElem?_push] at hm'
    split at hm'
    · obtain rfl := Option.some.inj hm'
      exact hm
    · exact h.fit ref m' hm'
  listed listing id ref hx := by
    have hold : (id, ref) ∈ (p.list listing).entries := by cases listing <;> exact hx
    obtain ⟨m', hm', hlisted⟩ := h.listed listing id ref hold
    have hlt := (Array.getElem?_eq_some_iff.mp hm').1
    exact ⟨m', by rw [Array.getElem?_push, if_neg (Nat.ne_of_lt hlt)]; exact hm', hlisted⟩

/-- A new stream is nobody's yet, or stillborn. -/
theorem enrol (h : p.Sound stillborn) {s : Stream σ} (hs : s.Fit)
    (hc : s.claimed = false ∨ stillborn p.streams.size) (listing : Listing) :
    (p.enrol s listing).2.Sound stillborn := by
  have hpushed := (h.push (m := ⟨s, listing⟩) hs).change p.streams.size (f := id)
    fun s hs => hs.kept
  obtain ⟨m, hm, hlisting, hid, hunclaimed⟩ := change_getElem?
    (p := { p with streams := p.streams.push ⟨s, listing⟩ }) p.streams.size (m := ⟨s, listing⟩) id
    Array.getElem?_push_size
  have hentry : (s.board.context.id, p.streams.size)
      = (m.stream.board.context.id, p.streams.size) := by rw [hid]; rfl
  refine hpushed.insert hm (hc.imp_left hunclaimed.trans) ?_ fun listing' x hx => ?_
  · cases listing <;> rfl
  · rw [hlisting, ← hentry]
    cases listing <;> cases listing' <;>
      first
      | exact .inl hx
      | exact (Registry.mem_insert hx).imp_right fun hx => ⟨rfl, hx⟩

/-- **A stream that was claimed as it was made is stillborn.** -/
theorem newStream (h : p.Sound stillborn) :
    p.newStream.2.Sound fun ref => stillborn ref ∨ ref = p.streams.size ∧
      p.opening.claimed = true := by
  have hnext : ({ p with nextId := p.nextId + 1 } : Proxy σ ε).Sound
      fun ref => stillborn ref ∨ ref = p.streams.size ∧ p.opening.claimed = true :=
    (h.mono fun _ => .inl).congr rfl rfl rfl
  refine hnext.enrol p.fit_opening ?_ .proxy
  cases hc : p.opening.claimed with
  | false => exact .inl rfl
  | true => exact .inr (.inr ⟨rfl, rfl⟩)

theorem newOutside (h : p.Sound stillborn) (id : StreamId) (settings : Settings) (listed : Bool) :
    (p.newOutside id settings listed).2.Sound stillborn :=
  h.enrol (Stream.fit_create id settings) (.inl rfl) _

theorem schedule (h : p.Sound stillborn) (ref : Nat) (job : Job) :
    (p.schedule ref job).Sound stillborn :=
  h.change ref fun s hs => by
    rw [Board.schedule_of_owned hs.owned]
    exact ⟨.note _ _, hs.poised⟩

theorem terminate (h : p.Sound stillborn) (ref : Nat) (ending : Ending) :
    (p.terminate ref ending).2.Sound stillborn := by
  unfold Proxy.terminate
  cases hr : p.visit ref (·.alone (·.terminate ending)) with
  | none => exact h
  | some r =>
    exact h.visit (fun t ht => ht.kept_board (.single (.terminate _ ending ht.owned))) hr

theorem reset (h : p.Sound stillborn) (id : StreamId) (ending : Ending) :
    (p.reset id ending).2.Sound stillborn := by
  unfold Proxy.reset
  split
  · exact h.terminate _ ending
  · exact h

theorem shutdown (h : p.Sound stillborn) : p.shutdown.2.Sound stillborn := by
  unfold Proxy.shutdown
  generalize p.active.streams = refs
  have hfold (r : Nat × Proxy σ ε) (hr : r.2.Sound stillborn) : (refs.foldl (fun r ref =>
      let t := r.2.terminate ref .shutdown
      (if t.1 then r.1 + 1 else r.1, t.2)) r).2.Sound stillborn := by
    induction refs generalizing r with
    | nil => exact hr
    | cons ref refs ih => exact ih _ (hr.terminate ref .shutdown)
  exact hfold (0, p) h

theorem useHandover (h : p.Sound stillborn) (n : Nat) (x : Handover) :
    (p.useHandover n x).2.Sound stillborn := by
  have hanswer (s : Stream σ) (hs : s.Fit) : s.Kept (Turn.answer s x) := by
    obtain ⟨-, -, -, hmoves, heq⟩ := Turn.answer_spec s x hs.owned
    rw [heq]
    exact hs.kept_board hmoves
  unfold Proxy.useHandover
  split
  case h_1 ref _ =>
    have hused : ({ p with handovers := p.handovers.setIfInBounds n none } : Proxy σ ε).Sound
      stillborn :=
      h.congr rfl rfl rfl
    dsimp only
    exact hused.change ref hanswer
  case h_2 => exact h

theorem runJob (h : p.Sound stillborn) (ref : Nat) (job : Job) :
    (p.runJob ref job).Sound stillborn := by
  unfold Proxy.runJob
  dsimp only
  cases hr : p.visit ref _ with
  | none => exact h
  | some r =>
    refine h.visit (fun t ht => ?_) hr
    have hkept := t.kept_exec p.surroundings job ht
    dsimp only
    split
    · exact ⟨hkept.grows.trans (.note _ _), hkept.poised⟩
    · exact hkept

end Sound

/-! ## Every proxy is sound -/

/-- One thing that happens to a proxy. -/
inductive Step : Proxy σ ε → Proxy σ ε → Prop
  | newStream (p) : Step p p.newStream.2
  | newOutside (p id settings listed) : Step p (p.newOutside id settings listed).2
  | addFilter (p ref r) : Step p (p.addFilter ref r)
  | receive (p ref request) : Step p (p.receive ref request)
  | resume (p ref) : Step p (p.resume ref)
  | terminate (p ref ending) : Step p (p.terminate ref ending).2
  | reset (p id ending) : Step p (p.reset id ending).2
  | shutdown (p) : Step p p.shutdown.2
  | through {p ref side filter index} {program : Program side Unit} {r}
      (h : p.through ref filter index program = some r) : Step p r.2
  | runResponseFilters {p ref message convert r}
      (h : p.runResponseFilters ref message convert = some r) : Step p r.2
  | useHandover (p n h) : Step p (p.useHandover n h).2
  | updateRoutes (p table) : Step p (p.updateRoutes table)
  /-- A job of a stream is run, in its turn or out of it. -/
  | runJob (p ref job) : Step p (p.runJob ref job)
  | runNext {p p'} (h : p.runNext? = some p') : Step p p'
  | elapse (p ms) : Step p (p.elapse ms).2
  | fire (p ref) : Step p { p with pool := p.pool.fire ref }
  | takeLog (p) : Step p p.takeLog.2

/-- **The stream at `ref` was made on the way, and claimed before it was entered**: a filter ended
it as it was given its handle. -/
def Stillborn (p p' : Proxy σ ε) (ref : Nat) : Prop :=
  ∃ q, Relation.ReflTransGen Step p q ∧ Relation.ReflTransGen Step q.newStream.2 p' ∧
    ref = q.streams.size ∧ q.opening.claimed = true

variable {p p' : Proxy σ ε} {stillborn : Nat → Prop}

/-- Only a new stream may be stillborn. -/
theorem Sound.step (h : p.Sound stillborn) (hs : Step p p') :
    p'.Sound fun ref => stillborn ref ∨ p' = p.newStream.2 ∧ ref = p.streams.size ∧
      p.opening.claimed = true := by
  have kept (h : p'.Sound stillborn) :
      p'.Sound fun ref => stillborn ref ∨ p' = p.newStream.2 ∧ ref = p.streams.size ∧
        p.opening.claimed = true :=
    h.mono fun _ => .inl
  cases hs with
  | newStream => exact h.newStream.mono fun ref href => href.imp_right fun hnew => ⟨rfl, hnew⟩
  | newOutside id settings listed => exact kept (h.newOutside id settings listed)
  | addFilter ref r => exact kept (h.change ref fun s hs => hs.kept_addFilter _ r)
  | receive ref request => exact kept (h.schedule ref _)
  | resume ref => exact kept (h.schedule ref _)
  | terminate ref ending => exact kept (h.terminate ref ending)
  | reset id ending => exact kept (h.reset id ending)
  | shutdown => exact kept h.shutdown
  | @through ref side filter index program r hr =>
    exact kept (h.visit (fun t ht => ht.kept_board
      ((Board.touched_run filter index program t.stream.board).moves
        (fun _ => Event.isQuiet_of_isLook) ht.owned)) hr)
  | @runResponseFilters ref message convert r hr =>
    exact kept (h.visit (fun t ht => ht.kept_runResponseFilters _ message convert) hr)
  | useHandover n x => exact kept (h.useHandover n x)
  | updateRoutes table => exact kept (h.congr rfl rfl rfl)
  | runJob ref job => exact kept (h.runJob ref job)
  | runNext hr =>
    obtain ⟨r, -, rfl⟩ := Option.map_eq_some_iff.mp hr
    have htaken : ({ p with pool := r.2 } : Proxy σ ε).Sound stillborn := h.congr rfl rfl rfl
    exact kept (htaken.runJob r.1.1 r.1.2)
  | elapse ms => exact kept (h.congr rfl rfl rfl)
  | fire ref => exact kept (h.congr rfl rfl rfl)
  | takeLog => exact kept (h.congr rfl rfl rfl)

/-- A proxy without streams. -/
structure Empty (p : Proxy σ ε) : Prop where
  streams : p.streams = #[]
  active : p.active = {}
  aside : p.aside = {}

theorem Empty.sound (h : p.Empty) : p.Sound stillborn := by
  refine ⟨fun ref m hm => ?_, fun listing id ref hx => ?_⟩
  · rw [h.streams] at hm
    cases hm
  · have hlist : p.list listing = {} := by
      cases listing
      · rfl
      · exact h.active
      · exact h.aside
    rw [hlist] at hx
    cases hx

/-- **Whatever happens to a proxy, it stays sound**, but for the stillborn streams. -/
theorem sound_of_steps (h : p.Empty) (hs : Relation.ReflTransGen Step p p') :
    p'.Sound (p.Stillborn p') := by
  induction hs with
  | refl => exact h.sound
  | @tail q q' hbefore hstep ih =>
    refine (ih.step hstep).mono fun ref href => ?_
    rcases href with ⟨x, hx, hlater, hborn⟩ | ⟨rfl, hborn⟩
    · exact ⟨x, hx, hlater.tail hstep, hborn⟩
    · exact ⟨q, hbefore, .refl, hborn⟩

/-- **A claimed stream on a list is stillborn.** -/
theorem Sound.stillborn_of_listed (h : p.Sound stillborn) {ref : Nat} {m : Member σ}
    (hm : p.streams[ref]? = some m) (hc : m.stream.claimed = true) (listing : Listing)
    {id : StreamId} (hx : (id, ref) ∈ (p.list listing).entries) : stillborn ref := by
  obtain ⟨m', hm', -, -, hc'⟩ := h.listed listing id ref hx
  obtain rfl : m = m' := Option.some.inj (hm.symm.trans hm')
  refine hc'.resolve_left fun hunclaimed => ?_
  rw [hc] at hunclaimed
  cases hunclaimed

end Proxy

end FilterProxy

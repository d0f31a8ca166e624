import Mathlib.Algebra.BigOperators.Group.Finset.Piecewise
import Mathlib.Data.List.Nodup
import FilterProxy.Proofs.Commons
import FilterProxy.Proofs.Listing
import FilterProxy.Proofs.Outcome
import FilterProxy.Proofs.Tenancy

/-!
# Proofs/Accounts — the list of streams and the statistics agree

A proxy lists a stream once its filters have their handles, and strikes it off as it is claimed;
the statistics are told of both.  Whatever happens, **the streams listed are those nobody has
claimed and those that are stillborn** (`Proxy.Tidy`), so that the books can be balanced
(`Proxy.Reckoning`): created less cleaned is listed less stillborn, and cleaned less terminated is
completed.
-/

namespace FilterProxy

variable {σ ε : Type}

open Board FilterProxy.Stream Life

/-! ## Errands and lists -/

/-- **Every errand keeps its stream.** -/
theorem Errand.kept (c : Surroundings σ ε) (e : Errand σ) {t : Turn σ ε} (h : t.stream.Fit) :
    t.stream.Kept (e.work c t).stream := by
  have posted (job : Job) :
    t.stream.Kept { t.stream with board := t.stream.board.schedule job } := by
    rw [schedule_of_owned h.owned]
    exact ⟨.note _ _, h.poised⟩
  cases e with
  | add r => exact h.kept_addFilter c.behaviour r
  | receive m => exact posted (.receive m)
  | resume => exact posted (.resume none)
  | terminate ending => exact h.kept_board (.single (.terminate _ ending h.owned))
  | act filter index program =>
    exact h.kept_board ((touched_run filter index program t.stream.board).moves
      (fun _ => Event.isQuiet_of_isLook) h.owned)
  | answer x =>
    obtain ⟨-, -, -, hmoves, heq⟩ := Turn.answer_spec t.stream x h.owned
    rw [work, heq]
    exact h.kept_board hmoves
  | direct message convert => exact h.kept_runResponseFilters _ message convert
  | run job =>
    have hkept := t.kept_exec c job h
    rw [work]
    cases (t.exec c job).1 with
    | none => exact hkept
    | some panic => exact ⟨hkept.grows.trans (.note _ _), hkept.poised⟩

namespace Share

variable {s : Share σ}

/-- No errand comes to a stream that is yet to be made. -/
theorem Vacant.serve (h : s.Vacant) (hm : s.member = none) (c : Surroundings σ ε) (env : ε)
    (e : Errand σ) :
    (s.serve c env e).Vacant ∧ (s.serve c env e).member = none := by
  unfold Share.serve
  cases e with
  | run job =>
    rw [draw, if_neg (by rw [h.jobs]; exact List.not_mem_nil)]
    exact ⟨h, hm⟩
  | answer x =>
    rw [draw]
    split
    case h_1 s' hd =>
      split at hd
      · obtain rfl := Option.some.inj hd
        simp only [visited, hm]
        exact ⟨⟨h.record, h.jobs, h.alarms⟩, trivial⟩
      · cases hd
    case h_2 => exact ⟨h, hm⟩
  | _ =>
    simp only [draw, visited, hm]
    exact ⟨h, trivial⟩

end Share

namespace Proxy

/-- No two streams have the same identity. -/
def Unique (p : Proxy σ ε) : Prop :=
  ∀ (ref ref' : Nat) (m m' : Member σ), p.streams[ref]? = some m → p.streams[ref']? = some m' →
    m.stream.board.context.id = m'.stream.board.context.id → ref = ref'

theorem unique_of_nodup {p : Proxy σ ε}
    (h : (p.streams.toList.map fun m => m.stream.board.context.id).Nodup) : p.Unique := by
  intro ref ref' m m' hm hm' hid
  have hlt : ref < p.streams.size := (Array.getElem?_eq_some_iff.mp hm).1
  refine (List.getElem?_inj (by simpa using hlt) h).mp ?_
  simp [hm, hm', hid]

/-- **The streams of a proxy in good order**: each leads a life, and those nobody has claimed are
listed, **and so are the stillborn**, which were claimed before they were entered. -/
structure Tidy (p : Proxy σ ε) (stillborn : Finset Nat) : Prop where
  sound : p.Sound (· ∈ stillborn)
  lives : ∀ (ref : Nat) (m : Member σ), p.streams[ref]? = some m → m.listing = .proxy ∧
    ∃ id settings, ∃ deeds : List (Deed σ ε), (p.share ref).Lives (after id settings deeds)
  vacant : ∀ ref, p.streams.size ≤ ref → (p.share ref).Vacant
  once : p.active.streams.Nodup
  enlisted : p.Unique → ∀ (ref : Nat) (m : Member σ), p.streams[ref]? = some m →
    m.stream.claimed = false ∨ ref ∈ stillborn → (m.stream.board.context.id, ref) ∈ p.active.entries
  claimed : ∀ ref ∈ stillborn, ∃ m : Member σ, p.streams[ref]? = some m ∧ m.stream.claimed = true

variable {p q : Proxy σ ε} {ref : Nat} {e : Errand σ}

theorem Sound.engage {stillborn : Nat → Prop} (h : p.Sound stillborn) {g : Turn σ ε → Turn σ ε}
    (hg : ∀ t : Turn σ ε, t.stream.Fit → t.stream.Kept (g t).stream) :
      (p.engage ref g).Sound stillborn := by
  unfold Proxy.engage
  cases hr : p.visit ref fun t => ((), g t) with
  | none => exact h
  | some r => exact h.visit hg hr

end Proxy

/-- At most one claim is on record. -/
theorem Board.Books.length_claims_le {b : Board σ} (h : b.Books) : (claims b.log).length ≤ 1 := by
  cases hc : b.claimed with
  | false => simp [h.unclaimed hc]
  | true =>
    obtain ⟨r, hr⟩ := h.claimed hc
    simp [hr]

namespace Share.Lives

variable {s : Share σ} {l : Life σ}

theorem claimed (h : s.Lives l) {m : Member σ} (hm : s.member = some m) :
    l.stream.claimed = m.stream.claimed := by
  obtain ⟨m', hm', -, hstream⟩ := h.member
  obtain rfl : m = m' := Option.some.inj (hm.symm.trans hm')
  rw [hstream, Stream.atop_claimed]

/-- A stream is claimed iff a claim is on record. -/
theorem claims_eq_nil (h : s.Lives l) (hl : Reached none l) {m : Member σ}
    (hm : s.member = some m) :
    claims s.record = [] ↔ m.stream.claimed = false := by
  rw [← h.claimed hm, ← h.log]
  have hb := hl.orderly.books
  refine ⟨fun hnone => Bool.eq_false_iff.mpr fun hc => ?_, hb.unclaimed⟩
  obtain ⟨r, hr⟩ := hb.claimed hc
  rw [show claims l.stream.board.log = [] from hnone] at hr
  cases hr

/-- **A visit that leaves the stream unclaimed, or finds it claimed**, claims nothing, so nothing of
it strikes the stream off. -/
theorem quiet (h : s.Lives l) (hl : Reached none l) {m : Member σ} (hm : s.member = some m)
    {s' : Share σ} {f : Stream σ → Stream σ} {l' : Life σ} (h' : (s'.visited f).Lives l')
    (hl' : Reached none l') (hs : s'.member = s.member ∧ s'.record = s.record)
    (hc : (f m.stream).claimed = false ∨ m.stream.claimed = true) :
    (f m.stream).claimed = m.stream.claimed ∧ (f m.stream).board.log.any
    (·.claim?.isSome) = false := by
  have hm' := hs.1.trans hm
  have hbefore := h.claims_eq_nil hl hm
  have hafter : claims (s'.visited f).record = [] ↔ (f m.stream).claimed = false :=
    h'.claims_eq_nil hl' (visited_member hm' f)
  have hrecord : claims (s'.visited f).record = claims (f m.stream).board.log
    ++ claims s.record := by
    rw [visited_record hm', claims, List.filterMap_append, hs.2]
    rfl
  have hatmost := hl'.orderly.books.length_claims_le
  rw [show claims l'.stream.board.log = claims (s'.visited f).record
    from congrArg claims h'.log] at hatmost
  rw [hrecord] at hafter hatmost
  have hnew : claims (f m.stream).board.log = [] := by
    rcases hc with hc | hc
    · exact (List.append_eq_nil_iff.mp (hafter.mpr hc)).1
    · have hsome : claims s.record ≠ [] := fun hnone => by
        rw [hbefore.mp hnone] at hc
        cases hc
      have := List.length_pos_iff.mpr hsome
      rw [List.length_append] at hatmost
      exact List.length_eq_zero_iff.mp (by omega)
  rw [hnew, List.nil_append, hbefore] at hafter
  refine ⟨Bool.eq_iff_iff.mpr (by simpa using not_congr hafter.symm), ?_⟩
  rw [List.any_eq_false]
  intro e he
  simp [List.filterMap_eq_nil_iff.mp hnew e he]

end Share.Lives

namespace Proxy

variable {p q : Proxy σ ε} {stillborn : Finset Nat} {ref : Nat} {e : Errand σ}

/-- What a visit strikes off. -/
theorem active_engage (p : Proxy σ ε) (g : Turn σ ε → Turn σ ε) {m : Member σ}
    (hm : p.streams[ref]? = some m) (hlisting : m.listing = .proxy) :
    let x := (g ⟨m.stream, p.env⟩).stream
    (p.engage ref g).active = p.active.eraseIf (x.board.log.any (·.claim?.isSome))
      x.board.context.id := by
  have hcommons := congrArg Commons.active (commons_engage p ref g)
  unfold Share.charge at hcommons
  rw [show (p.share ref).member = some m from hm] at hcommons
  dsimp only at hcommons ⊢
  rw [Commons.foldl_bear_active, List.any_reverse, hlisting, decide_eq_true rfl,
    Bool.and_true] at hcommons
  exact hcommons

theorem mem_eraseIf {r : Registry} {b : Bool} {id : StreamId} {x : StreamId × Nat}
    (hx : x ∈ r.entries) (hid : b = true → x.1 ≠ id) : x ∈ (r.eraseIf b id).entries := by
  cases b with
  | false => exact hx
  | true => exact Registry.mem_erase.mpr ⟨hx, hid rfl⟩

theorem nodup_eraseIf {r : Registry} (h : r.streams.Nodup) (b : Bool) (id : StreamId) :
    (r.eraseIf b id).streams.Nodup := by
  cases b with
  | false => exact h
  | true => exact h.sublist (List.filter_sublist.map _)

/-- Streams that keep their identities were as unique before. -/
theorem Unique.of_members (h : q.Unique)
    (hback : ∀ (ref : Nat) (m : Member σ), p.streams[ref]? = some m →
    ∃ m' : Member σ, q.streams[ref]? = some m' ∧
      m'.stream.board.context.id = m.stream.board.context.id) :
    p.Unique := by
  intro ref ref' m m' hm hm' hid
  obtain ⟨x, hx, hxid⟩ := hback ref m hm
  obtain ⟨x', hx', hxid'⟩ := hback ref' m' hm'
  exact h ref ref' x x' hx hx' (by rw [hxid, hxid', hid])

/-- An errand to a stream that is yet to be made is nothing. -/
theorem Tidy.engage_of_none (h : p.Tidy stillborn) (hd : p.Drawn ref e q)
    (hm : p.streams[ref]? = none) :
    (q.engage ref (e.work p.surroundings)).Tidy stillborn := by
  have hself := hd.share_engage
  have hother {r : Nat} (hne : r ≠ ref) := hd.share_engage_of_ne hne
  obtain ⟨⟨pool, handovers, rfl⟩, -, -⟩ := hd
  have heq : Proxy.engage { p with pool, handovers } ref (e.work p.surroundings)
    = { p with pool, handovers } := by
    unfold Proxy.engage visit
    rw [show ({ p with pool, handovers } : Proxy σ ε).streams[ref]? = none from hm]
    rfl
  rw [heq] at hself hother ⊢
  refine ⟨h.sound.congr rfl rfl rfl, fun r m hr => ?_, fun r hr => ?_, h.once,
    h.enlisted, h.claimed⟩
  · have hr : p.streams[r]? = some m := hr
    have hne : r ≠ ref := by
      rintro rfl
      rw [hm] at hr
      cases hr
    rw [hother hne]
    exact h.lives r m hr
  · by_cases hne : r = ref
    · subst hne
      rw [hself]
      exact ((h.vacant r hr).serve (s := p.share r) hm p.surroundings p.env e).1
    · rw [hother hne]
      exact h.vacant r hr

/-- **What an errand to a stream leaves**: the stream is there under its identity, the others as
they were; it is struck off, or not, and stays on the list if nobody claimed it, or somebody had
before. -/
structure Visits (p p' : Proxy σ ε) (stillborn : Finset Nat) (ref : Nat)
    (m m' : Member σ) : Prop where
  found : p.streams[ref]? = some m
  left : p'.streams[ref]? = some m'
  others : ∀ r, r ≠ ref → p'.share r = p.share r
  size : p'.streams.size = p.streams.size
  listing : m'.listing = m.listing
  id : m'.stream.board.context.id = m.stream.board.context.id
  sound : p'.Sound (· ∈ stillborn)
  active : ∃ b, p'.active = p.active.eraseIf b m.stream.board.context.id ∧
    (m'.stream.claimed = false ∨ m.stream.claimed = true →
      m'.stream.claimed = m.stream.claimed ∧ b = false)
  lives : ∃ id settings, ∃ deeds : List (Deed σ ε), (p'.share ref).Lives (after id settings deeds)

theorem Tidy.visits (h : p.Tidy stillborn) (hd : p.Drawn ref e q) {m : Member σ}
    (hm : p.streams[ref]? = some m) :
    ∃ m', p.Visits (q.engage ref (e.work p.surroundings)) stillborn ref m m' := by
  obtain ⟨hlisting, id, settings, deeds, hl⟩ := h.lives ref m hm
  obtain ⟨more, hl', -⟩ := hl.serve p.surroundings p.env e
  rw [← hd.share_engage, ← after_append] at hl'
  have hothers (r : Nat) (hne : r ≠ ref) := hd.share_engage_of_ne hne
  obtain ⟨⟨pool, handovers, rfl⟩, hown, -⟩ := hd
  have hkept := e.kept p.surroundings (t := ⟨m.stream, p.env⟩) (h.sound.fit ref m hm)
  have hsound : ({ p with pool, handovers } : Proxy σ ε).Sound (· ∈ stillborn) :=
    h.sound.congr rfl rfl rfl
  have hactive := active_engage { p with pool, handovers } (e.work p.surroundings) hm hlisting
  obtain ⟨_, _, _, _, _, _, _, _, hframe, hsize⟩ :=
    engage_frame { p with pool, handovers } ref (e.work p.surroundings)
  have hvisited := share_engage_self { p with pool, handovers } ref (e.work p.surroundings)
  refine ⟨_, hm, (congrArg Share.member hvisited).trans (Share.visited_member hm _),
    hothers, ?_, rfl,
    congrArg Context.id hkept.grows.context, hsound.engage fun t ht => e.kept p.surroundings ht, ?_,
    id, settings, deeds ++ more, hl'⟩
  · rw [hframe]
    exact hsize
  · refine ⟨_, hactive.trans (congrArg _ (congrArg Context.id hkept.grows.context)), fun hc => ?_⟩
    rw [hvisited] at hl'
    exact hl.quiet (reached_after ..) hm hl' (reached_after ..) ⟨rfl, rfl⟩ hc

theorem Visits.tidy {p' : Proxy σ ε} {m m' : Member σ} (hv : p.Visits p' stillborn ref m m')
    (h : p.Tidy stillborn) : p'.Tidy stillborn := by
  have hmember {r : Nat} (hne : r ≠ ref) : p'.streams[r]? = p.streams[r]? :=
    congrArg Share.member (hv.others r hne)
  obtain ⟨b, hactive, hquiet⟩ := hv.active
  have hclaimed (href : ref ∈ stillborn) : m.stream.claimed = true := by
    obtain ⟨x, hx, hc⟩ := h.claimed ref href
    obtain rfl : m = x := Option.some.inj (hv.found.symm.trans hx)
    exact hc
  refine ⟨hv.sound, fun r x hx => ?_, fun r hr => ?_, ?_, fun hunique r x hx hc => ?_,
    fun r hr => ?_⟩
  · by_cases hne : r = ref
    · subst hne
      obtain rfl : m' = x := Option.some.inj (hv.left.symm.trans hx)
      exact ⟨hv.listing.trans (h.lives r m hv.found).1, hv.lives⟩
    · rw [hv.others r hne]
      exact h.lives r x (hmember hne ▸ hx)
  · rw [hv.size] at hr
    have hne : r ≠ ref := fun heq => by
      have hlt := (Array.getElem?_eq_some_iff.mp hv.found).1
      omega
    rw [hv.others r hne]
    exact h.vacant r hr
  · rw [hactive]
    exact nodup_eraseIf h.once b _
  · have hbefore : p.Unique := hunique.of_members fun r x hx => by
      by_cases hne : r = ref
      · subst hne
        obtain rfl : m = x := Option.some.inj (hv.found.symm.trans hx)
        exact ⟨m', hv.left, hv.id⟩
      · exact ⟨x, (hmember hne).trans hx, rfl⟩
    rw [hactive]
    by_cases hne : r = ref
    · subst hne
      obtain rfl : m' = x := Option.some.inj (hv.left.symm.trans hx)
      obtain ⟨hsame, rfl⟩ := hquiet (hc.imp_right hclaimed)
      rw [hv.id]
      exact h.enlisted hbefore r m hv.found (hc.imp_left hsame.symm.trans)
    · have hx' := hmember hne ▸ hx
      refine mem_eraseIf (h.enlisted hbefore r x hx' hc) fun _ hid => hne ?_
      exact hbefore r ref x m hx' hv.found hid
  · by_cases hne : r = ref
    · subst hne
      exact ⟨m', hv.left, (hquiet (.inr (hclaimed hr))).1.trans (hclaimed hr)⟩
    · obtain ⟨x, hx, hc⟩ := h.claimed r hr
      exact ⟨x, (hmember hne).trans hx, hc⟩

/-- **An errand leaves the streams in good order.** -/
theorem Tidy.engage (h : p.Tidy stillborn) (hd : p.Drawn ref e q) :
    (q.engage ref (e.work p.surroundings)).Tidy stillborn := by
  cases hm : p.streams[ref]? with
  | none => exact h.engage_of_none hd hm
  | some m =>
    obtain ⟨m', hv⟩ := h.visits hd hm
    exact hv.tidy h

theorem Tidy.serve (h : p.Tidy stillborn) (ref : Nat) (e : Errand σ) :
    (p.serve ref e).Tidy stillborn := by
  rw [serve_eq]
  cases hq : p.draw ref e with
  | none => exact h
  | some q => exact h.engage (drawn_of_draw hq)

theorem Tidy.useHandover (h : p.Tidy stillborn) (n : Nat) (x : Handover) :
    (p.useHandover n x).2.Tidy stillborn := by
  rcases useHandover_cases p n x with heq | ⟨ref, hn, heq⟩
  · rwa [heq]
  · rw [heq]
    exact h.engage (drawn_handover p hn x)

theorem Tidy.shutdown (h : p.Tidy stillborn) : p.shutdown.2.Tidy stillborn := by
  rw [shutdown_eq]
  exact List.foldlRecOn (motive := (Tidy · stillborn)) _ _ h fun _ hq ref _ =>
    hq.serve ref (.terminate .shutdown)

theorem insert_eraseIf (r : Registry) (b : Bool) (id : StreamId) (ref : Nat) :
    (r.eraseIf b id).insert id ref = r.insert id ref := by
  cases b <;> simp [Registry.eraseIf, Registry.insert, Registry.erase]

/-- The list once a stream was made: a claim of it struck nothing off, for it is entered only
now. -/
theorem active_newStream (p : Proxy σ ε) :
    p.newStream.2.active = p.active.insert ⟨p.nextId⟩ p.streams.size := by
  have hopening : p.grown.streams[p.streams.size]? = some ⟨p.opening, .proxy⟩ :=
    Array.getElem?_push_size
  rw [newStream_eq]
  dsimp only
  rw [active_engage p.grown id hopening rfl]
  rw [show (id (⟨p.opening, p.grown.env⟩ : Turn σ ε)).stream.board.context.id = ⟨p.nextId⟩ from
    congrArg Context.id p.opening_context]
  exact insert_eraseIf ..

/-- A new stream stands behind the others. -/
theorem streams_newStream (p : Proxy σ ε) : p.newStream.2.streams.size = p.streams.size + 1 ∧
    p.newStream.2.streams[p.streams.size]?
      = some ⟨{ p.opening with board := { p.opening.board with log := [] } }, .proxy⟩ := by
  have hgrown : (p.grown.share p.streams.size).member = some ⟨p.opening, .proxy⟩ :=
    Array.getElem?_push_size
  obtain ⟨_, _, _, _, _, _, _, _, hframe, hsize⟩ := engage_frame p.grown p.streams.size id
  refine ⟨?_, ?_⟩
  · rw [newStream_eq]
    dsimp only
    rw [hframe]
    exact hsize.trans (Array.size_push _)
  · refine (congrArg Share.member (share_newStream p p.streams.size)).trans ?_
    rw [share_engage_self]
    exact Share.visited_member hgrown _

/-- The stream that is stillborn as this happens, if one is: **a filter ends the stream that is made
as it is given its handle**. -/
def stillbirth (p : Proxy σ ε) : Incident σ → Finset Nat
  | .new => if p.opening.claimed then {p.streams.size} else ∅
  | _ => ∅

theorem mem_stillbirth_new (p : Proxy σ ε) {ref : Nat} :
    ref ∈ p.stillbirth .new ↔ ref = p.streams.size ∧ p.opening.claimed = true := by
  cases hc : p.opening.claimed <;> simp [stillbirth, hc]

/-- The streams before it stay as they are. -/
theorem streams_newStream_of_found (p : Proxy σ ε) {m : Member σ} (hm : p.streams[ref]? = some m) :
    ref ≠ p.streams.size ∧ p.newStream.2.streams[ref]? = some m := by
  have hne := Nat.ne_of_lt (Array.getElem?_eq_some_iff.mp hm).1
  exact ⟨hne, (congrArg Share.member (share_newStream_of_ne p hne)).trans hm⟩

theorem Tidy.nodup_newStream (h : p.Tidy stillborn) : p.newStream.2.active.streams.Nodup := by
  rw [active_newStream, Registry.streams, Registry.insert, List.map_append, List.nodup_append]
  refine ⟨h.once.sublist (List.filter_sublist.map _), List.nodup_singleton _,
    fun r hr r' hr' heq => ?_⟩
  obtain ⟨x, hx, rfl⟩ := List.mem_map.mp hr
  obtain ⟨m, hm, -⟩ := h.sound.listed .proxy x.1 x.2 (Registry.mem_erase.mp hx).1
  exact (streams_newStream_of_found p hm).1 (heq.trans (by simpa using hr'))

/-- **A new stream is listed**, and whoever was listed before still is, as identities are unique. -/
theorem Tidy.enlisted_newStream (h : p.Tidy stillborn) (hunique : p.newStream.2.Unique)
    {m : Member σ} (hm : p.newStream.2.streams[ref]? = some m)
    (hc : ref ≠ p.streams.size → m.stream.claimed = false ∨ ref ∈ stillborn) :
    (m.stream.board.context.id, ref) ∈ p.newStream.2.active.entries := by
  have hid : p.opening.board.context.id = ⟨p.nextId⟩ := congrArg Context.id p.opening_context
  obtain ⟨-, hnew⟩ := streams_newStream p
  rw [active_newStream]
  by_cases hne : ref = p.streams.size
  · subst hne
    obtain rfl := Option.some.inj (hnew.symm.trans hm)
    exact List.mem_append_right _ (List.mem_singleton.mpr (congrArg (·, _) hid))
  · have hm' : p.streams[ref]? = some m :=
      (congrArg Share.member (share_newStream_of_ne p hne)).symm.trans hm
    have hbefore : p.Unique := hunique.of_members fun r m hm =>
      ⟨m, (streams_newStream_of_found p hm).2, rfl⟩
    refine List.mem_append_left _
      (Registry.mem_erase.mpr ⟨h.enlisted hbefore ref m hm' (hc hne), fun hsame => hne ?_⟩)
    exact hunique ref p.streams.size m _ hm hnew (hsame.trans hid.symm)

/-- **A new stream** is stillborn iff it was claimed as its filters were given their handles. -/
theorem Tidy.newStream (h : p.Tidy stillborn) :
    p.newStream.2.Tidy (stillborn ∪ p.stillbirth .new) := by
  have hlives := lives_newStream p (h.vacant p.streams.size (Nat.le_refl _))
  obtain ⟨hsize, hnew⟩ := streams_newStream p
  have hother {r : Nat} (hne : r ≠ p.streams.size) : p.newStream.2.share r = p.share r :=
    share_newStream_of_ne p hne
  have hborn {r : Nat} : r ∈ stillborn ∪ p.stillbirth .new ↔
      r ∈ stillborn ∨ r = p.streams.size ∧ p.opening.claimed = true := by
    rw [Finset.mem_union, mem_stillbirth_new]
  refine ⟨h.sound.newStream.mono fun _ => hborn.mpr, fun r m hm => ?_, fun r hr => ?_,
    h.nodup_newStream, fun hunique r m hm hc => h.enlisted_newStream hunique hm fun hne => ?_,
    fun r hr => ?_⟩
  · by_cases hne : r = p.streams.size
    · subst hne
      obtain rfl := Option.some.inj (hnew.symm.trans hm)
      exact ⟨rfl, _, _, _, hlives⟩
    · rw [hother hne]
      exact h.lives r m ((congrArg Share.member (hother hne)).symm.trans hm)
  · rw [hsize] at hr
    rw [hother (by omega)]
    exact h.vacant r (by omega)
  · exact hc.imp_right fun hr => (hborn.mp hr).resolve_right fun h => hne h.1
  · rcases hborn.mp hr with hr | ⟨rfl, hc⟩
    · obtain ⟨m, hm, hc⟩ := h.claimed r hr
      exact ⟨m, (streams_newStream_of_found p hm).2, hc⟩
    · exact ⟨_, hnew, hc⟩

/-- Time passes. -/
theorem Tidy.elapse (h : p.Tidy stillborn) (ms : Nat) : (p.elapse ms).2.Tidy stillborn := by
  refine ⟨h.sound.congr rfl rfl rfl, fun r m hm => ?_, fun r hr => ?_, h.once,
    h.enlisted, h.claimed⟩
  · obtain ⟨hlisting, id, settings, deeds, hl⟩ := h.lives r m hm
    rw [share_elapse]
    exact ⟨hlisting, id, settings, deeds, hl.elapse ms⟩
  · obtain ⟨hrecord, hjobs, halarms⟩ := h.vacant r hr
    rw [share_elapse]
    exact ⟨hrecord, by simp [Share.elapse, hjobs, halarms], by simp [Share.elapse, halarms]⟩

/-- Where nothing is stillborn. -/
theorem Tidy.kept (h : p.Tidy stillborn) : p.Tidy (stillborn ∪ ∅) := by rwa [Finset.union_empty]

/-- **Whatever happens to a proxy, its streams stay in good order.** -/
theorem Tidy.undergo (h : p.Tidy stillborn) (x : Incident σ) :
    (p.undergo x).Tidy (stillborn ∪ p.stillbirth x) := by
  cases x with
  | new => exact h.newStream
  | moment x =>
    cases x with
    | errand ref e => exact (h.serve ref e).kept
    | elapse ms => exact (h.elapse ms).kept
  | hand n x => exact (h.useHandover n x).kept
  | reset id ending =>
    rw [Proxy.undergo, Proxy.reset]
    split
    case h_1 ref _ => exact (h.serve ref (.terminate ending)).kept
    case h_2 => exact h.kept
  | shutdown => exact h.shutdown.kept
  | reroute table =>
    have htidy : (p.updateRoutes table).Tidy stillborn :=
      ⟨h.sound.congr rfl rfl rfl, h.lives, h.vacant, h.once, h.enlisted, h.claimed⟩
    exact htidy.kept

/-- The streams that are stillborn as all of this happens. -/
def stillbirths (p : Proxy σ ε) : List (Incident σ) → Finset Nat
  | [] => ∅
  | x :: rest => p.stillbirth x ∪ (p.undergo x).stillbirths rest

/-- A proxy to which nothing has happened yet. -/
structure Fresh (p : Proxy σ ε) : Prop extends p.Empty where
  pool : p.pool = {}
  handovers : p.handovers = #[]
  log : p.log = []

theorem Fresh.tidy (h : p.Fresh) : p.Tidy ∅ where
  sound := h.toEmpty.sound
  lives r m hm := by rw [h.streams] at hm; cases hm
  vacant r _ := by
    refine ⟨?_, ?_, ?_⟩
    · simp [share, h.log]
    · simp [share, Pool.jobs, h.pool]
    · simp [share, Pool.alarms, h.pool]
  once := by rw [h.active]; exact List.nodup_nil
  enlisted _ r m hm := by rw [h.streams] at hm; cases hm
  claimed r hr := absurd hr (Finset.notMem_empty r)

theorem Tidy.foldl (h : p.Tidy stillborn) (incidents : List (Incident σ)) :
    (incidents.foldl Proxy.undergo p).Tidy (stillborn ∪ p.stillbirths incidents) := by
  induction incidents generalizing p stillborn with
  | nil => exact h.kept
  | cons x rest ih =>
    rw [stillbirths, ← Finset.union_assoc]
    exact ih (h.undergo x)

end Proxy

/-! ## The books of a proxy -/

/-- A log is the records of its streams. -/
theorem countP_log (q : Event σ → Bool) (n : Nat) {log : List (Nat × Event σ)}
    (h : ∀ x ∈ log, x.1 < n) :
    log.countP (q ·.2) = ∑ ref ∈ Finset.range n, ((log.filter (·.1 = ref)).map (·.2)).countP q := by
  induction log with
  | nil => simp
  | cons x log ih =>
    have hcons (ref : Nat) : (((x :: log).filter (·.1 = ref)).map (·.2)).countP q
        = ((log.filter (·.1 = ref)).map (·.2)).countP q + if x.1 = ref then (if q x.2 then 1 else 0)
          else 0 := by
      by_cases heq : x.1 = ref <;> simp [heq, List.countP_cons]
    have hx : x.1 ∈ Finset.range n := Finset.mem_range.mpr (h x List.mem_cons_self)
    rw [List.countP_cons, ih fun y hy => h y (List.mem_cons_of_mem _ hy),
      Finset.sum_congr rfl fun ref _ => hcons ref,
      Finset.sum_add_distrib, Finset.sum_ite_eq, if_pos hx]

namespace Proxy

/-- How many events of a kind the proxy was told of. -/
def count (p : Proxy σ ε) (q : Event σ → Bool) : Nat := p.log.countP (q ·.2)

/-- The streams that were completed: the claim on record is one of a completion. -/
def completed (p : Proxy σ ε) : Finset Nat :=
  {ref ∈ Finset.range p.streams.size | claims (p.share ref).record = [.completed]}

/-- **The books of a proxy.** -/
structure Accounts (p : Proxy σ ε) : Prop where
  /-- The streams listed are those nobody has claimed. -/
  listed : ∀ id ref, (id, ref) ∈ p.active.entries ↔ ∃ m : Member σ, p.streams[ref]? = some m ∧
    m.stream.board.context.id = id ∧ m.stream.claimed = false
  /-- Created less cleaned is listed. -/
  active : p.count Event.isCreation = p.count Event.isCleaning + p.active.size
  /-- Cleaned less terminated is completed. -/
  completed : p.count Event.isCleaning = p.count (·.termination?.isSome) + p.completed.card
  /-- A stream is reset iff it is listed. -/
  reset : ∀ id ending, (p.reset id ending).1 = true ↔ p.active.contains id = true

/-- **What the books come to when streams were stillborn**: these stay listed although they were
claimed, and cannot be reset. -/
structure Reckoning (p : Proxy σ ε) (stillborn : Finset Nat) : Prop where
  listed : ∀ id ref, (id, ref) ∈ p.active.entries ↔ ∃ m : Member σ, p.streams[ref]? = some m ∧
    m.stream.board.context.id = id ∧ (m.stream.claimed = false ∨ ref ∈ stillborn)
  claimed : ∀ ref ∈ stillborn, ∃ m : Member σ, p.streams[ref]? = some m ∧ m.stream.claimed = true
  /-- Created less cleaned is listed less stillborn. -/
  active : p.count Event.isCreation + stillborn.card = p.count Event.isCleaning + p.active.size
  completed : p.count Event.isCleaning = p.count (·.termination?.isSome) + p.completed.card
  reset : ∀ id ending, (p.reset id ending).1 = true ↔ ∃ ref ∉ stillborn,
    (id, ref) ∈ p.active.entries

variable {p : Proxy σ ε} {stillborn : Finset Nat}

theorem Tidy.count_eq (h : p.Tidy stillborn) (q : Event σ → Bool) :
    p.count q = ∑ ref ∈ Finset.range p.streams.size, (p.share ref).record.countP q := by
  refine countP_log q p.streams.size fun x hx => Nat.lt_of_not_le fun hle => ?_
  have hrecord := (h.vacant x.1 hle).record
  have hmem : x.2 ∈ (p.share x.1).record :=
    List.mem_map.mpr ⟨x, List.mem_filter.mpr ⟨hx, by simp⟩, rfl⟩
  rw [hrecord] at hmem
  cases hmem

/-- **The books on one stream.** -/
theorem Tidy.record (h : p.Tidy stillborn) {ref : Nat} (hlt : ref < p.streams.size) :
    let record := (p.share ref).record
    record.countP Event.isCreation = 1 ∧
      (record.countP Event.isCleaning + if claims record = [] then 1 else 0) = 1 ∧
      record.countP Event.isCleaning
        = record.countP (·.termination?.isSome) +
          if claims record = [.completed] then 1 else 0 := by
  obtain ⟨-, id, settings, deeds, hl⟩ := h.lives ref _ (Array.getElem?_eq_getElem hlt)
  have hb := (reached_after id settings deeds).orderly.books
  have hcreated := created_after id settings deeds
  have hcleanings := hb.cleanings
  have hterminations := congrArg List.length hb.terminations
  rw [terminations, List.length_filterMap_eq_countP] at hterminations
  rw [cleanings] at hcleanings
  change List.countP _ (after id settings deeds).log
    = (claims (after id settings deeds).log).length at hcleanings
  change List.countP _ (after id settings deeds).log
    = ((claims (after id settings deeds).log).filter Ending.isAbort).length at hterminations
  have hclaims : claims (after id settings deeds).log = [] ∨
    ∃ r, claims (after id settings deeds).log = [r] := by
    cases hc : (after id settings deeds).stream.board.claimed with
    | false => exact .inl (hb.unclaimed hc)
    | true => exact .inr (hb.claimed hc)
  rw [hl.log] at hcreated hcleanings hterminations hclaims
  refine ⟨hcreated, ?_⟩
  rcases hclaims with hnone | ⟨r, hr⟩
  · simp [hcleanings, hterminations, hnone]
  · rw [hr] at hcleanings hterminations
    rw [hcleanings, hterminations, hr]
    cases r <;> exact ⟨rfl, rfl⟩

theorem Tidy.listed (h : p.Tidy stillborn) (hunique : p.Unique) (id : StreamId) (ref : Nat) :
    (id, ref) ∈ p.active.entries ↔ ∃ m : Member σ, p.streams[ref]? = some m ∧
      m.stream.board.context.id = id ∧ (m.stream.claimed = false ∨ ref ∈ stillborn) := by
  constructor
  · intro hx
    obtain ⟨m, hm, -, hid, hc⟩ := h.sound.listed .proxy id ref hx
    exact ⟨m, hm, hid, hc⟩
  · rintro ⟨m, hm, rfl, hc⟩
    exact h.enlisted hunique ref m hm hc

/-- **As many streams are listed as nobody has claimed or are stillborn.** -/
theorem Tidy.size_active (h : p.Tidy stillborn) (hunique : p.Unique) : p.active.size
    = (∑ ref ∈ Finset.range p.streams.size, if claims (p.share ref).record = [] then 1 else 0)
      + stillborn.card := by
  have hclaims {ref : Nat} {m : Member σ} (hm : p.streams[ref]? = some m) :
      claims (p.share ref).record = [] ↔ m.stream.claimed = false := by
    obtain ⟨-, _, _, _, hl⟩ := h.lives ref m hm
    exact hl.claims_eq_nil (reached_after ..) hm
  let unclaimed : Finset Nat :=
    {ref ∈ Finset.range p.streams.size | claims (p.share ref).record = []}
  have hunclaimed {ref : Nat} : ref ∈ unclaimed ↔
      ∃ m : Member σ, p.streams[ref]? = some m ∧ m.stream.claimed = false := by
    rw [Finset.mem_filter, Finset.mem_range]
    constructor
    · rintro ⟨hlt, hnone⟩
      exact ⟨_, Array.getElem?_eq_getElem hlt, (hclaims (Array.getElem?_eq_getElem hlt)).mp hnone⟩
    · rintro ⟨m, hm, hc⟩
      exact ⟨(Array.getElem?_eq_some_iff.mp hm).1, (hclaims hm).mpr hc⟩
  have hmem : p.active.streams.toFinset = unclaimed ∪ stillborn := by
    ext ref
    rw [List.mem_toFinset, Finset.mem_union, hunclaimed]
    constructor
    · intro href
      obtain ⟨x, hx, rfl⟩ := List.mem_map.mp href
      obtain ⟨m, hm, -, hc⟩ := (h.listed hunique x.1 x.2).mp hx
      exact hc.imp_left fun hc => ⟨m, hm, hc⟩
    · rintro (⟨m, hm, hc⟩ | hborn)
      · exact List.mem_map.mpr ⟨_, (h.listed hunique _ ref).mpr ⟨m, hm, rfl, .inl hc⟩, rfl⟩
      · obtain ⟨m, hm, -⟩ := h.claimed ref hborn
        exact List.mem_map.mpr ⟨_, (h.listed hunique _ ref).mpr ⟨m, hm, rfl, .inr hborn⟩, rfl⟩
  have hdisjoint : Disjoint unclaimed stillborn := Finset.disjoint_left.mpr fun ref href hborn => by
    obtain ⟨m, hm, hc⟩ := hunclaimed.mp href
    obtain ⟨m', hm', hc'⟩ := h.claimed ref hborn
    obtain rfl : m = m' := Option.some.inj (hm.symm.trans hm')
    rw [hc] at hc'
    cases hc'
  rw [← Finset.card_filter, ← Finset.card_union_of_disjoint hdisjoint, ← hmem,
    List.toFinset_card_of_nodup h.once, Registry.streams, List.length_map, Registry.size]

/-- **An identity is reset iff the stream found under it is unclaimed.** -/
theorem Tidy.reset (h : p.Tidy stillborn) (id : StreamId) (ending : Ending) :
    (p.reset id ending).1 = true ↔
    ∃ ref, p.active.find? id = some ref ∧ ref ∉ stillborn := by
  unfold Proxy.reset
  cases hfound : p.active.find? id with
  | none => simp
  | some ref =>
    obtain ⟨x, hx, rfl⟩ := Option.map_eq_some_iff.mp hfound
    obtain ⟨m, hm, -, -, hc⟩ := h.sound.listed .proxy x.1 x.2 (List.mem_of_find?_eq_some hx)
    have hended : (p.terminate x.2 ending).1 = (m.stream.terminate ending).1 := by
      unfold Proxy.terminate visit
      rw [hm]
      rfl
    have hborn : x.2 ∈ stillborn ↔ m.stream.claimed = true := by
      refine ⟨fun hborn => ?_, fun hclaimed => hc.resolve_left (by simp [hclaimed])⟩
      obtain ⟨m', hm', hc'⟩ := h.claimed x.2 hborn
      obtain rfl : m = m' := Option.some.inj (hm.symm.trans hm')
      exact hc'
    have hgranted : (m.stream.terminate ending).1 = true ↔ m.stream.claimed = false := by
      unfold Stream.terminate
      cases hclaimed : m.stream.claimed with
      | false => simp [terminate_of_unclaimed (h.sound.fit x.2 m hm).owned hclaimed]
      | true => simp [terminate_of_claimed hclaimed]
    simp [hended, hgranted, hborn]

/-- Who is listed under an identity is found, if no other is. -/
theorem Tidy.find?_active (h : p.Tidy stillborn) (hunique : p.Unique) {id : StreamId} {ref : Nat} :
    p.active.find? id = some ref ↔ (id, ref) ∈ p.active.entries := by
  constructor
  · intro hfound
    obtain ⟨x, hx, rfl⟩ := Option.map_eq_some_iff.mp hfound
    obtain rfl : x.1 = id := by simpa using List.find?_some hx
    exact List.mem_of_find?_eq_some hx
  · intro hx
    cases hfound : p.active.entries.find? (·.1 = id) with
    | none => simpa using List.find?_eq_none.mp hfound _ hx
    | some y =>
      have hy : y.1 = id := by simpa using List.find?_some hfound
      obtain ⟨m, hm, -, hid, -⟩ := h.sound.listed .proxy id ref hx
      obtain ⟨m', hm', -, hid', -⟩ :=
        h.sound.listed .proxy y.1 y.2 (List.mem_of_find?_eq_some hfound)
      rw [Registry.find?, hfound, Option.map_some,
        hunique y.2 ref m' m hm' hm (by rw [hid', hy, hid])]

/-- **The books are kept.** -/
theorem Tidy.reckoning (h : p.Tidy stillborn) (hunique : p.Unique) : p.Reckoning stillborn where
  listed := h.listed hunique
  claimed := h.claimed
  reset id ending := by
    simp only [h.reset, h.find?_active hunique, and_comm]
  active := by
    rw [h.count_eq, h.count_eq, h.size_active hunique, ← Nat.add_assoc, ← Finset.sum_add_distrib]
    refine congrArg (· + _) (Finset.sum_congr rfl fun ref href => ?_)
    obtain ⟨hcreated, hcleaned, -⟩ := h.record (Finset.mem_range.mp href)
    rw [hcreated, hcleaned]
  completed := by
    rw [h.count_eq, h.count_eq, Proxy.completed, Finset.card_filter, ← Finset.sum_add_distrib]
    exact Finset.sum_congr rfl fun ref href => (h.record (Finset.mem_range.mp href)).2.2

theorem Registry.contains_iff {r : Registry} {id : StreamId} :
    r.contains id = true ↔ ∃ ref, (id, ref) ∈ r.entries := by
  unfold Registry.contains Registry.find?
  rw [Option.isSome_map, List.find?_isSome]
  constructor
  · rintro ⟨x, hx, hid⟩
    obtain rfl : x.1 = id := by simpa using hid
    exact ⟨x.2, hx⟩
  · rintro ⟨ref, hx⟩
    exact ⟨_, hx, by simp⟩

/-- **The books are balanced iff nothing was stillborn.** -/
theorem Reckoning.accounts_iff (h : p.Reckoning stillborn) : p.Accounts ↔ stillborn = ∅ := by
  constructor
  · intro hbalanced
    refine Finset.eq_empty_of_forall_notMem fun ref hborn => ?_
    obtain ⟨m, hm, hc⟩ := h.claimed ref hborn
    obtain ⟨m', hm', -, hc'⟩ :=
      (hbalanced.listed _ ref).mp ((h.listed _ ref).mpr ⟨m, hm, rfl, .inr hborn⟩)
    obtain rfl : m = m' := Option.some.inj (hm.symm.trans hm')
    rw [hc] at hc'
    cases hc'
  · rintro rfl
    refine ⟨by simpa using h.listed, by simpa using h.active, h.completed, fun id ending => ?_⟩
    rw [h.reset, Registry.contains_iff]
    simp

end Proxy

/-! ## Filters that let their streams begin -/

/-- The program does not end its stream, whatever it sees. -/
inductive Program.Endures {side : Side} {α : Type} : Program side α → Prop
  | done (result) : Endures (.done result)
  | act {action rest} (ha : action ≠ .terminate) (h : Endures rest) : Endures (.act action rest)
  | look {rest} (h : ∀ view, Endures (rest view)) : Endures (.look rest)

theorem Board.claimed_schedule (b : Board σ) (job : Job) :
    (b.schedule job).claimed = b.claimed := by
  unfold Board.schedule
  split <;> rfl

theorem Board.claimed_perform {side : Side} (b : Board σ) (index : Nat) {x : Action side}
    (hx : x ≠ .terminate) :
    (b.perform index x).claimed = b.claimed := by
  cases x with
  | terminate => exact absurd rfl hx
  | reply code headers =>
    have hraised : (b.raise code headers).2.claimed = b.claimed := by
      unfold Board.raise
      split <;> rfl
    dsimp only [Board.perform]
    split
    · exact (claimed_schedule _ _).trans hraised
    · exact hraised
  | resume => exact claimed_schedule b _
  | _ => rfl

theorem Program.Endures.claimed_run {side : Side} {α : Type} {program : Program side α}
    (h : program.Endures)
    (filter : σ) (index : Nat) (b : Board σ) :
      (program.run filter index b).2.claimed = b.claimed := by
  induction h generalizing b with
  | done => rfl
  | act ha _ ih => exact (ih _).trans (b.claimed_perform index ha)
  | look _ ih => exact ih _ _

/-- No filter ends its stream as it is given its handle. -/
def Behaviour.LetsBegin (β : Behaviour σ) : Prop :=
  ∀ filter id side, (β.onAdd filter id side).Endures

namespace Proxy

variable {p : Proxy σ ε}

theorem claimed_opening (h : p.surroundings.behaviour.LetsBegin) : p.opening.claimed = false :=
  List.foldlRecOn (motive := fun s : Stream σ => s.claimed = false) _ _ rfl fun s hs r _ =>
    ((h r.filter s.board.context.id r.side).claimed_run _ _ _).trans hs

/-- **Then no stream is stillborn.** -/
theorem stillbirths_eq_empty (h : p.surroundings.behaviour.LetsBegin)
    (incidents : List (Incident σ)) :
    p.stillbirths incidents = ∅ := by
  induction incidents generalizing p with
  | nil => rfl
  | cons x rest ih =>
    have hnext : (p.undergo x).surroundings.behaviour.LetsBegin :=
      (setUpLike_undergo p x).behaviour ▸ h
    have hborn : p.stillbirth x = ∅ := by cases x <;> simp [stillbirth, claimed_opening h]
    rw [stillbirths, hborn, ih hnext, Finset.union_empty]

end Proxy

/-- **The list of streams and the statistics agree iff no stream is stillborn.**  Take whatever
happens to a proxy — streams are made, driven, paused, answered, reset, shut down, a panic is
contained in a filter or escapes from a job — as long as no two of its streams have one identity.
It lists the streams nobody has claimed, **and those that a filter ended as it was given its
handle**, for a stream is entered after that: they were struck off before they were on the list.  So
created less cleaned is listed less stillborn, and an identity is reset iff it is that of a stream
which is listed and not stillborn; all that were cleaned up were terminated but those that were
completed.  The books are balanced iff no stream is stillborn, and none is if the filters let their
streams begin. -/
theorem accounts_agree_iff {p : Proxy σ ε} (hp : p.Fresh) (incidents : List (Incident σ))
    (hunique : (incidents.foldl Proxy.undergo p).Unique) :
    let q := incidents.foldl Proxy.undergo p
    q.Reckoning (p.stillbirths incidents) ∧ (q.Accounts ↔ p.stillbirths incidents = ∅) ∧
      (p.surroundings.behaviour.LetsBegin → q.Accounts) := by
  have hreckoning := (hp.tidy.foldl incidents).reckoning hunique
  rw [Finset.empty_union] at hreckoning
  exact ⟨hreckoning, hreckoning.accounts_iff,
    fun h => hreckoning.accounts_iff.mpr (Proxy.stillbirths_eq_empty h incidents)⟩

/-! ## Three streams -/

/-- Collaborators one of which breaks off when it is called again. -/
def brittle : Surroundings Unit Nat where
  behaviour := passing
  routing := ⟨some fun _ => .ok (some default)⟩
  choose n _ _ := (if n = 0 then .ok (.ok default) else .error ⟨none⟩, n + 1)
  forward n _ _ _ := ({ handover := .responded {} }, n)
  write n _ _ := (.ok (.ok ()), n)

/-- One stream is served, the second is left behind by a panic, the third is reset. -/
def mishaps : List (Incident Unit) :=
  [.new, .new, .new, .moment (.errand 0 (.receive {})), .moment (.errand 1 (.receive {})),
    .moment (.errand 0 (.run (.receive {}))), .moment (.errand 1 (.run (.receive {}))),
    .moment (.errand 0 (.run (.response {}))), .reset ⟨3⟩ .reset]

/-- The second stream alone is listed. -/
theorem accounts_agree_iff_mishaps :
    let p := mishaps.foldl Proxy.undergo ({ surroundings := brittle, env := 0 } : Proxy Unit Nat)
    p.Accounts ∧ p.active.entries = [(⟨2⟩, 1)] ∧ p.count Event.isCreation = 3 ∧
      p.count Event.isCleaning = 2 ∧ p.count (·.termination?.isSome) = 1 ∧
      p.completed = {0} := by
  intro p
  have hfresh : ({ surroundings := brittle, env := 0 } : Proxy Unit Nat).Fresh :=
    ⟨⟨rfl, rfl, rfl⟩, rfl, rfl, rfl⟩
  obtain ⟨-, -, hbalanced⟩ :=
    accounts_agree_iff hfresh mishaps (Proxy.unique_of_nodup (by decide +kernel))
  refine ⟨hbalanced fun filter _ _ => .done filter, ?_⟩
  decide +kernel

/-! ## A stream that is ended at once -/

/-- Filters that let everything pass, but those in state true end their stream as they are given
their handle. -/
def hasty : Behaviour Bool where
  onAdd quits _ _ := if quits then .act .terminate (.done quits) else .done quits
  onRequest filter _ parts := .done ⟨filter, parts, .ok .proceed⟩
  onResponse filter _ parts := .done ⟨filter, parts, .ok .proceed⟩
  onDestroy filter _ := .done ⟨filter, none⟩

/-- A proxy each of whose streams is ended by its only filter as that is added. -/
def stifling : Proxy Bool Unit where
  installers := [[.request true .beforeRoute]]
  surroundings := .secluded hasty
  env := ()

/-- A stream is made, and the pool takes its release. -/
def stifled : List (Incident Bool) :=
  [.new, .moment (.errand 0 (.run (.release .filterTerminated)))]

/-- **It was cleaned up, and is listed for all that**: one was created and cleaned, and one is
listed, which nobody can reset. -/
theorem not_accounts_stifled :
    let q := stifled.foldl Proxy.undergo stifling
    q.Unique ∧ ¬ q.Accounts ∧ q.active.entries = [(⟨1⟩, 0)] ∧ q.count Event.isCreation = 1 ∧
      q.count Event.isCleaning = 1 ∧ (q.reset ⟨1⟩ .reset).1 = false := by
  intro q
  refine ⟨Proxy.unique_of_nodup (by decide +kernel), fun h => ?_, ?_⟩
  · exact absurd h.active (by decide +kernel)
  · decide +kernel

end FilterProxy

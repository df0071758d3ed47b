import MCache.AnswerDelivery
import MCache.PendingCalls

/-!
# The end of the read loop

A call that is pending when `readLoop` stops is sent an error, or ends by itself.
After a panic of a decoder, however, the `recover` of the loop runs
`closeAllPending(nil)`, which calls `Error` of a nil error for the first entry it
meets.  Which payloads make a decoder panic is a matter of their bytes.
-/

namespace MCache.Net

/-! ## The frames of a stream -/

theorem decodeFrame_recycled (recycled : Bytes) (r : Reader) :
    decodeFrame recycled r = decodeFrame [] r := by
  simp only [decodeFrame, readPayload_content]

inductive Reader.Delivers : Reader → Frame → Prop
  | next {r rest : Reader} {f : Frame} (hframe : decodeFrame [] r = (.ok f, rest)) : Delivers r f
  | later {r rest : Reader} {f g : Frame} (hframe : decodeFrame [] r = (.ok g, rest))
      (hrest : Delivers rest f) : Delivers r f

def Frame.Confined (f : Frame) : Prop := f.type = frameTypeResponse →
    match f.payload with
    | [] => True
    | cmd :: body =>
      match Family.ofByte cmd with
      | .string => ResponseBounded (cmd :: body)
      | .set => SetResponseBounded body cmd
      | .hash | .list => True

def Reader.Confined (r : Reader) : Prop := ∀ f, r.Delivers f → f.Confined

theorem orMalformed_error_iff {α β : Type} (result : Go α) (malformed : α) (f : α → β) :
    (∃ fault, (orMalformed result malformed).map f = .error fault) ↔ ¬ Safe result := by
  cases result with
  | ok a => simp [orMalformed, Safe, Except.map]
  | error fault => cases fault <;> simp [orMalformed, Safe, Except.map]

theorem readResponse_error_iff (cmd : UInt8) (body stale : Bytes) :
    (∃ fault, readResponse (.of (cmd :: body) stale) = .error fault) ↔
      ¬ DecodesSafely (.of (cmd :: body) stale) cmd := by
  unfold readResponse DecodesSafely
  rw [Slice.content_of]
  dsimp only
  cases Family.ofByte cmd <;> exact orMalformed_error_iff _ _ _

namespace Frame

variable {f : Frame}

theorem Confined.readResponse_ne (h : f.Confined) (htype : f.type = frameTypeResponse)
    (stale : Bytes) (fault : Fault) : readResponse (.of f.payload stale) ≠ .error fault := by
  have hbounds := h htype
  cases hpayload : f.payload with
  | nil => exact nofun
  | cons cmd body =>
    rw [hpayload] at hbounds
    intro hfault
    refine (readResponse_error_iff cmd body stale).mp ⟨fault, hfault⟩ ?_
    unfold DecodesSafely
    dsimp only at hbounds
    cases hfamily : Family.ofByte cmd with
    | string =>
      rw [hfamily] at hbounds
      exact ResponseBounded.safe hbounds stale
    | hash => exact (decodeHashResponse_yields _ _).1
    | list => exact (decodeListResponse_yields _ _).1
    | set =>
      rw [hfamily] at hbounds
      exact (decodeSetResponse_safe_iff body stale cmd).mpr hbounds

theorem exists_fault (h : ¬ f.Confined) :
    f.type = frameTypeResponse ∧ ∃ fault, readResponse (.of f.payload []) = .error fault := by
  obtain ⟨htype, hbounds⟩ := Classical.not_imp.mp h
  refine ⟨htype, ?_⟩
  cases hpayload : f.payload with
  | nil => simp [hpayload] at hbounds
  | cons cmd body =>
    rw [hpayload] at hbounds
    rw [readResponse_error_iff]
    refine fun hsafe => hbounds ?_
    unfold DecodesSafely at hsafe
    dsimp only
    cases hfamily : Family.ofByte cmd with
    | string =>
      rw [hfamily] at hsafe
      exact (decodeResponsePayload_safe_iff _).mp hsafe
    | hash => trivial
    | list => trivial
    | set =>
      rw [hfamily] at hsafe
      exact (decodeSetResponse_safe_iff body [] cmd).mp hsafe

end Frame

namespace ClientConn

/-! ## Steps of a watched run -/

def Action.ofLoop {n : ℕ} : Action n → Bool
  | .thread _ _ => false
  | .loop _ => true

def WatchedAction.ofLoop {n : ℕ} : WatchedAction n → Bool
  | .thread _ _ => false
  | _ => true

namespace Watched

variable {n : ℕ} {w next : Watched n} {a : WatchedAction n}

def Reads (w : Watched n) (rest : Reader) : Action n → Prop
  | .loop (.frame f _) => decodeFrame [] w.stream = (.ok f, rest)
  | .loop .fail => True
  | _ => rest = w.stream

theorem step_cases (hnext : w.step a = some next) : w.nextMap = some next ∨
      ∃ b s rest, w.state.step b = some s ∧ b.ofLoop = a.ofLoop ∧ w.Reads rest b ∧
        (next = { w.follow b s with stream := rest } ∨
          next = { (w.follow b s).stop with stream := rest }) := by
  cases a with
  | thread p e =>
    obtain ⟨s, hs, rfl⟩ := Option.map_eq_some_iff.mp hnext
    exact .inr ⟨_, s, w.stream, hs, rfl, rfl, .inl rfl⟩
  | read recycled =>
    right
    unfold step read at hnext
    dsimp only at hnext
    split at hnext
    case h_1 err rest _ =>
      obtain ⟨s, hs, rfl⟩ := Option.map_eq_some_iff.mp hnext
      exact ⟨_, s, rest, hs, rfl, trivial, .inr rfl⟩
    case h_2 f rest hframe =>
      obtain ⟨s, hs, rfl⟩ := Option.map_eq_some_iff.mp hnext
      refine ⟨_, s, rest, hs, rfl, (decodeFrame_recycled recycled _).symm.trans hframe, ?_⟩
      split
      · exact .inr rfl
      · exact .inl rfl
  | load =>
    obtain ⟨s, hs, rfl⟩ := Option.map_eq_some_iff.mp hnext
    exact .inr ⟨_, s, w.stream, hs, rfl, rfl, .inl rfl⟩
  | send =>
    obtain ⟨s, hs, rfl⟩ := Option.map_eq_some_iff.mp hnext
    exact .inr ⟨_, s, w.stream, hs, rfl, rfl, .inl rfl⟩
  | range id =>
    unfold step at hnext
    dsimp only at hnext
    split at hnext
    · obtain ⟨s, hs, rfl⟩ := Option.map_eq_some_iff.mp hnext
      exact .inr ⟨_, s, w.stream, hs, rfl, rfl, .inl rfl⟩
    · cases hnext
  | remove =>
    obtain ⟨s, hs, rfl⟩ := Option.map_eq_some_iff.mp hnext
    exact .inr ⟨_, s, w.stream, hs, rfl, rfl, .inl rfl⟩
  | nextMap => exact .inl hnext

theorem Sound.step (h : w.Sound) (hnext : w.step a = some next) : next.Sound := by
  rcases step_cases hnext with hmap | ⟨b, s, rest, hs, -, -, rfl | rfl⟩
  · exact h.nextMap hmap
  · exact (h.step_state hs).withStream rest
  · exact (h.step_state hs).stop.withStream rest

theorem sound_initial (r : Reader) : (initial r : Watched n).Sound where
  bounded := by
    intro c hc
    cases hc
  threads := by
    intro p thread hthread
    cases hthread
  loop := by
    intro closer hcloser
    cases hcloser
  pending := by
    intro c hc
    cases hc
  ranged := by
    intro r hr
    cases hr

theorem Sound.of_reachable {r : Reader} (hreach : (watched n r).Reachable w) : w.Sound := by
  refine hreach.invariant Sound ?_ fun w a next h _ hstep => h.step hstep
  rintro w rfl
  exact sound_initial r

end Watched

namespace State

variable {n : ℕ} {s next : State n}

theorem stepThread_loop {p : Fin n} {e : Event}
    (hstep : s.stepThread p e = some next) : next.loop = s.loop := by
  unfold stepThread at hstep
  split at hstep
  · cases e with
    | call family =>
      unfold begin at hstep
      dsimp only at hstep
      split_ifs at hstep
      · cases hstep
        rfl
      · obtain ⟨result, -, rfl⟩ := Option.map_eq_some_iff.mp hstep
        rfl
    | newPipeline =>
      cases hstep
      rfl
    | close =>
      cases hstep
      rfl
    | _ => cases hstep
  · obtain ⟨result, -, rfl⟩ := Option.map_eq_some_iff.mp hstep
    rfl
  · obtain ⟨result, -, rfl⟩ := Option.map_eq_some_iff.mp hstep
    rfl

/-! ## Streams on which no decoder panics -/

structure Quiet (s : State n) (stream : Reader) : Prop where
  panicked : s.loop ≠ .panicked
  crashed : s.loop ≠ .crashed
  stream : (∀ closer, s.loop ≠ .closing closer) → stream.Confined

theorem Quiet.withLoop {stream : Reader} (h : s.Quiet stream) (hloop : next.loop = s.loop) :
    next.Quiet stream :=
  ⟨hloop ▸ h.panicked, hloop ▸ h.crashed, fun hopen => h.stream (hloop ▸ hopen)⟩

theorem Quiet.stepLoop {e : LoopEvent} {stream : Reader} (h : s.Quiet stream)
    (hstep : s.stepLoop e = some next) (hframe : ∀ f stale, e = .frame f stale → f.Confined) :
    next.Quiet stream := by
  have hstream : s.loop = .reading → stream.Confined := by
    intro hloop
    exact h.stream fun closer => hloop ▸ nofun
  cases State.loopStep_of_stepLoop hstep with
  | skip => exact h
  | decode hloop => exact ⟨nofun, nofun, fun _ => hstream hloop⟩
  | panic hloop htype hfault =>
    exact absurd hfault ((hframe _ _ rfl).readResponse_ne htype _ _)
  | fail => exact ⟨nofun, nofun, fun hopen => absurd rfl (hopen .ranging)⟩
  | found hloop => exact ⟨nofun, nofun, fun _ => h.stream fun closer => hloop ▸ nofun⟩
  | missing hloop => exact ⟨nofun, nofun, fun _ => h.stream fun closer => hloop ▸ nofun⟩
  | deliver hloop => exact ⟨nofun, nofun, fun _ => h.stream fun closer => hloop ▸ nofun⟩
  | close => exact ⟨nofun, nofun, fun hopen => absurd rfl (hopen _)⟩
  | crash hloop => exact absurd hloop h.panicked

theorem loop_of_frame {f : Frame} {stale : Bytes}
    (hstep : s.stepLoop (.frame f stale) = some next) : s.loop = .reading := by
  cases State.loopStep_of_stepLoop hstep with
  | skip hloop | decode hloop | panic hloop => exact hloop
  | close _ hevent => cases hevent

/-! ## Connections without pending calls -/

structure Idle (s : State n) : Prop where
  pending : ∀ family id, s.shared.pending family id = none
  crashed : s.loop ≠ .crashed

theorem Idle.stepLoop {e : LoopEvent} (h : s.Idle) (hstep : s.stepLoop e = some next) :
    next.Idle := by
  cases State.loopStep_of_stepLoop hstep with
  | skip => exact h
  | deliver =>
    refine ⟨?_, nofun⟩
    rw [World.trySend_eq]
    exact h.pending
  | close hloop hevent hresult =>
    refine ⟨fun family id => ?_, nofun⟩
    unfold Closer.step at hresult
    split at hresult
    · rw [h.pending] at hresult
      cases hresult
    · cases hresult
      rw [World.trySend_eq]
      exact h.pending family id
    · cases hresult
      rw [Shared.withPending_pending]
      split_ifs
      · rfl
      · exact h.pending family id
    · cases hresult
  | crash hloop hch => simp [h.pending] at hch
  | _ => exact ⟨h.pending, nofun⟩

end State

namespace Watched

variable {n : ℕ} {w next : Watched n} {a : WatchedAction n} {r : Reader}

def Quiet (w : Watched n) : Prop := w.state.Quiet w.stream

theorem Quiet.step (h : w.Quiet) (hnext : w.step a = some next) : next.Quiet := by
  rcases step_cases hnext with hmap | ⟨b, s, rest, hs, -, hreads, hnext⟩
  · obtain ⟨family, rest, ids, -, -, rfl⟩ := nextMap_cases hmap
    exact h
  · suffices hquiet : s.Quiet rest by rcases hnext with rfl | rfl <;> exact hquiet
    cases b with
    | thread p e =>
      cases hreads
      exact State.Quiet.withLoop h (State.stepThread_loop (State.stepThread_of_step hs))
    | loop e =>
      have hs : w.state.stepLoop e = some s := hs
      cases e with
      | frame f stale =>
        have hloop := State.loop_of_frame hs
        have hconfined : w.stream.Confined := h.stream fun closer => hloop ▸ nofun
        have hquiet := State.Quiet.stepLoop h hs fun g stale hg => by
          cases hg
          exact hconfined f (.next hreads)
        exact ⟨hquiet.panicked, hquiet.crashed, fun _ g hg => hconfined g (.later hreads hg)⟩
      | fail =>
        cases State.loopStep_of_stepLoop hs with
        | fail => exact ⟨nofun, nofun, fun hopen => absurd rfl (hopen .ranging)⟩
        | close _ hevent => cases hevent
      | _ =>
        cases hreads
        exact State.Quiet.stepLoop h hs nofun

theorem Quiet.of_reachable (hr : r.Confined) (hreach : (watched n r).Reachable w) : w.Quiet := by
  refine hreach.invariant Quiet ?_ fun w a next h _ hstep => h.step hstep
  rintro w rfl
  exact ⟨nofun, nofun, fun _ => hr⟩


/-! ## The loop left to itself -/

def LeadsTo (w : Watched n) : Watched n → Prop :=
  ((watched n w.stream).startingIn w).ReachableBy fun _ a => a.ofLoop = true

theorem LeadsTo.step {u v : Watched n} (hu : w.LeadsTo u) (hloop : a.ofLoop = true)
    (hstep : u.step a = some v) : w.LeadsTo v :=
  TransitionSystem.ReachableBy.step hu hloop hstep

theorem LeadsTo.reachable {final : Watched n} (h : w.LeadsTo final)
    (hreach : (watched n r).Reachable w) : (watched n r).Reachable final := by
  refine h.invariant _ ?_ fun _ _ _ hu _ hstep => hu.next hstep
  rintro u rfl
  exact hreach

theorem Idle.step (h : w.state.Idle) (hloop : a.ofLoop = true)
    (hnext : w.step a = some next) : next.state.Idle := by
  rcases step_cases hnext with hmap | ⟨b, s, rest, hs, hb, -, hnext⟩
  · obtain ⟨family, rest, ids, -, -, rfl⟩ := nextMap_cases hmap
    exact h
  · cases b with
    | thread p e => cases hb.trans hloop
    | loop e =>
      have hidle : s.Idle := h.stepLoop hs
      rcases hnext with rfl | rfl <;> exact hidle

theorem spare_nil (payload : Bytes) : spare [] payload = [] := by
  have hlength : (getBuf [] payload.length).array.length ≤ payload.length := by
    unfold getBuf
    split_ifs <;> simp
  simpa [spare, readPayload] using hlength

theorem LeadsTo.handOn {u : Watched n} {f : Frame} {resp : ClientResponse}
    (hu : w.LeadsTo u) (hloop : u.state.loop = .loading f resp) :
    ∃ v, w.LeadsTo v ∧ v.state.loop = .reading ∧ v.stream = u.stream ∧
      v.state.shared.pending = u.state.shared.pending := by
  cases hch : u.state.shared.pending resp.family f.streamID.toNat with
  | none =>
    have hload : u.step .load =
        some (u.follow (.loop .load) { u.state with loop := .reading }) := by
      simp [Watched.step, State.step, State.stepLoop, hloop, hch]
    exact ⟨_, hu.step rfl hload, rfl, rfl, rfl⟩
  | some ch =>
    have hload : u.step .load =
        some (u.follow (.loop .load) { u.state with loop := .sending ch f resp }) := by
      simp [Watched.step, State.step, State.stepLoop, hloop, hch]
    have hsame : (u.state.shared.trySend ch (.decoded f resp)).pending =
        u.state.shared.pending := by
      rw [World.trySend_eq]
    exact ⟨_, (hu.step rfl hload).step (a := .send) rfl rfl, rfl, rfl, hsame⟩

theorem LeadsTo.frame {u : Watched n} {rest : Reader} {f : Frame} (hu : w.LeadsTo u)
    (hloop : u.state.loop = .reading) (hframe : decodeFrame [] u.stream = (.ok f, rest))
    (hf : f.Confined) :
    ∃ v, w.LeadsTo v ∧ v.state.loop = .reading ∧ v.stream = rest ∧
      v.state.shared.pending = u.state.shared.pending := by
  have hread : ∀ s, u.state.stepLoop (.frame f []) = some s → s.loop ≠ .panicked →
      w.LeadsTo { u.follow (.loop (.frame f [])) s with stream := rest } := by
    intro s hs hquiet
    refine hu.step (a := .read []) rfl ?_
    simp only [Watched.step, Watched.read, hframe, spare_nil, State.step, hs, Option.map_some]
  by_cases htype : f.type = frameTypeResponse
  · cases hresp : readResponse (.of f.payload []) with
    | error fault => exact absurd hresp (hf.readResponse_ne htype [] fault)
    | ok found =>
      cases found with
      | none =>
        refine ⟨_, hread u.state ?_ (hloop ▸ nofun), hloop, rfl, rfl⟩
        simp [State.stepLoop, hloop, htype, hresp]
      | some resp =>
        have hdecoded : u.state.stepLoop (.frame f []) =
            some { u.state with loop := .loading f resp } := by
          simp [State.stepLoop, hloop, htype, hresp]
        exact (hread _ hdecoded nofun).handOn rfl
  · refine ⟨_, hread u.state ?_ (hloop ▸ nofun), hloop, rfl, rfl⟩
    simp [State.stepLoop, hloop, htype]

theorem LeadsTo.crash {u : Watched n} {families : List Family} (hu : w.LeadsTo u)
    (hloop : u.state.loop = .panicked)
    (hranging : u.ranging = some (.start u.state.shared families)) {c : Call}
    (hc : c.1 ∈ families) (hpending : (u.state.shared.pending c.1 c.2).isSome) :
    ∃ v, w.LeadsTo v ∧ v.state.loop = .crashed := by
  induction families generalizing u with
  | nil => cases hc
  | cons family rest ih =>
    by_cases hhere : ∃ id, (u.state.shared.pending family id).isSome
    · obtain ⟨id, hid⟩ := hhere
      obtain ⟨ch, hch⟩ := Option.isSome_iff_exists.mp hid
      have hstep : u.step (.range id) =
          some (u.follow (.loop (.range family id)) { u.state with loop := .crashed }) := by
        simp [Watched.step, hranging, Ranging.start, State.step, State.stepLoop, hloop, hch]
      exact ⟨_, hu.step rfl hstep, rfl⟩
    · push Not at hhere
      have hnone : ∀ id, u.state.shared.pending family id = none := by simpa using hhere
      have hstep : u.step .nextMap =
          some { u with ranging := some (.start u.state.shared rest) } := by
        simp [Watched.step, Watched.nextMap, hranging, Ranging.start, hloop, hnone]
      have hrest : c.1 ∈ rest := by
        refine (List.mem_cons.mp hc).resolve_left fun heq => ?_
        rw [heq, hnone] at hpending
        cases hpending
      exact ih (hu.step rfl hstep) hloop rfl hrest hpending

theorem LeadsTo.panic {u : Watched n} {rest : Reader} {f : Frame} (hu : w.LeadsTo u)
    (hloop : u.state.loop = .reading) (hframe : decodeFrame [] u.stream = (.ok f, rest))
    (hf : ¬ f.Confined) {c : Call} (hpending : (u.state.shared.pending c.1 c.2).isSome) :
    ∃ v, w.LeadsTo v ∧ v.state.loop = .crashed := by
  obtain ⟨htype, fault, hfault⟩ := Frame.exists_fault hf
  have hstep : u.step (.read []) = some
      { (u.follow (.loop (.frame f [])) { u.state with loop := .panicked }).stop with
        stream := rest } := by
    simp [Watched.step, Watched.read, hframe, spare_nil, State.step, State.stepLoop, hloop, htype,
      hfault]
  have hfamily : c.1 ∈ closeOrder := by cases c.1 <;> decide
  exact LeadsTo.crash (hu.step rfl hstep) rfl rfl hfamily hpending

theorem LeadsTo.crash_of_delivers {u : Watched n} {f : Frame} {c : Call}
    (hdelivers : u.stream.Delivers f) (hf : ¬ f.Confined) (hu : w.LeadsTo u)
    (hloop : u.state.loop = .reading) (hpending : (u.state.shared.pending c.1 c.2).isSome) :
    ∃ v, w.LeadsTo v ∧ v.state.loop = .crashed := by
  generalize hstream : u.stream = stream at hdelivers
  induction hdelivers generalizing u with
  | next hframe => exact hu.panic hloop (hstream ▸ hframe) hf hpending
  | @later _ rest f g hframe _ ih =>
    rw [← hstream] at hframe
    by_cases hg : g.Confined
    · obtain ⟨v, hv, hreading, hrest, hsame⟩ := hu.frame hloop hframe hg
      exact ih hf hv hreading (hsame ▸ hpending) hrest
    · exact hu.panic hloop hframe hg hpending

/-! ## Which streams let every call fail -/

def Ended (w : Watched n) : Prop := ∃ ids, w.ranging = some ⟨[], ids⟩

structure FailsCalls (w : Watched n) : Prop where
  survives : w.state.loop ≠ .crashed
  settled : w.Ended → ∀ c ∈ w.stopped, w.Settled c

theorem Sound.failsCalls_iff (h : w.Sound) : w.FailsCalls ↔ w.state.loop ≠ .crashed := by
  refine ⟨FailsCalls.survives, fun hloop => ⟨hloop, ?_⟩⟩
  rintro ⟨ids, hranging⟩ c hc
  rcases h.ranged _ hranging c hc with hsettled | ⟨hfamily, -⟩
  · exact hsettled
  · cases hfamily

theorem leadsTo_failsCalls_iff (hreach : (watched n r).Reachable w)
    (hloop : w.state.loop = .reading) :
    (∀ final, w.LeadsTo final → final.FailsCalls) ↔
      w.state.shared.calls = [] ∨ w.stream.Confined := by
  have hsound := Sound.of_reachable hreach
  have hstart : w.LeadsTo w := .init rfl
  constructor
  · intro hfails
    by_contra hnot
    push Not at hnot
    obtain ⟨hcalls, hstream⟩ := hnot
    obtain ⟨c, hc⟩ := List.exists_mem_of_ne_nil _ hcalls
    unfold Reader.Confined at hstream
    push Not at hstream
    obtain ⟨f, hdelivers, hf⟩ := hstream
    obtain ⟨v, hv, hcrashed⟩ := LeadsTo.crash_of_delivers hdelivers hf hstart hloop
      ((mem_calls hsound.bounded).mp hc)
    exact (hfails v hv).survives hcrashed
  · intro h final hfinal
    have hfinalSound := Sound.of_reachable (hfinal.reachable hreach)
    rw [hfinalSound.failsCalls_iff]
    rcases h with hcalls | hstream
    · have hidle : w.state.Idle := by
        refine ⟨fun family id => ?_, hloop ▸ nofun⟩
        by_contra hpending
        have hmem := (mem_calls (c := (family, id)) hsound.bounded).mpr
          (Option.isSome_iff_ne_none.mpr hpending)
        rw [hcalls] at hmem
        cases hmem
      refine (hfinal.invariant (fun u => u.state.Idle) ?_ ?_).crashed
      · rintro u rfl
        exact hidle
      · exact fun u a next hu ha hstep => Idle.step hu ha hstep
    · refine State.Quiet.crashed (hfinal.invariant Quiet ?_ fun u a next hu _ hstep =>
        hu.step hstep)
      rintro u rfl
      exact ⟨hloop ▸ nofun, hloop ▸ nofun, fun _ => hstream⟩

theorem exists_waiting (n : ℕ) (r : Reader) :
    ∃ w : Watched (n + 1), (watched (n + 1) r).Reachable w ∧ w.state.loop = .reading ∧
      w.stream = r ∧ w.state.shared.calls ≠ [] := by
  have hrun : (watched (n + 1) r).runFrom (.initial r)
      [.thread 0 (.call .string), .thread 0 (.get none), .thread 0 .store] = some _ := rfl
  exact ⟨_, (TransitionSystem.ReachableBy.init rfl).runBy hrun, rfl, rfl, List.cons_ne_nil _ _⟩

theorem readLoop_fails_calls_iff (n : ℕ) (r : Reader) :
    ((∀ w, (watched (n + 1) r).Reachable w → w.FailsCalls) ↔ r.Confined) ∧
      ∀ w, (watched (n + 1) r).Reachable w → w.state.loop = .reading →
        ((∀ final, w.LeadsTo final → final.FailsCalls) ↔
          w.state.shared.calls = [] ∨ w.stream.Confined) := by
  refine ⟨⟨fun hfails => ?_, fun hr w hreach => ?_⟩, fun w => leadsTo_failsCalls_iff⟩
  · obtain ⟨w, hreach, hloop, rfl, hcalls⟩ := exists_waiting n r
    refine ((leadsTo_failsCalls_iff hreach hloop).mp fun final hfinal => ?_).resolve_left hcalls
    exact hfails final (hfinal.reachable hreach)
  · exact (Sound.of_reachable hreach).failsCalls_iff.mpr (Quiet.of_reachable hr hreach).crashed

def waitingCall {n : ℕ} (p : Fin n) (family : Family) : List (WatchedAction n) :=
  [.thread p (.call family), .thread p (.get none), .thread p .store, .thread p (.write .ok)]

def okResponse : Frame where
  streamID := 1
  type := frameTypeResponse
  flags := 0
  payload := [0, 0, 0, 0, 0, 0, 0]

theorem okResponse_confined : Reader.Confined ⟨[okResponse.bytes], false⟩ := by
  have hbytes : Reader.bytes ⟨[okResponse.bytes], false⟩ = okResponse.bytes ++ [] := rfl
  obtain ⟨left, hframe, hleft⟩ := decodeFrame_bytes [] (by decide) hbytes
  obtain ⟨last, hend, -⟩ := decodeFrame_eof [] hleft
  intro f hdelivers
  cases hdelivers with
  | next hnext =>
    cases hframe.symm.trans hnext
    exact fun _ _ _ => by decide
  | later hnext hrest =>
    cases hframe.symm.trans hnext
    cases hrest with
    | next hnone | later hnone => cases hend.symm.trans hnone

def secondCallFails {n : ℕ} (p q : Fin n) : List (WatchedAction n) :=
  waitingCall p .string ++ waitingCall q .set ++
    [.read [], .load, .send, .thread p .receive, .thread p .delete, .read [],
      .nextMap, .range 2, .send, .remove, .nextMap, .nextMap, .nextMap]

theorem readLoop_fails_calls_iff_secondCall :
    ∃ final, (watched 2 ⟨[okResponse.bytes], false⟩).runFrom
        (.initial ⟨[okResponse.bytes], false⟩) (secondCallFails 0 1) = some final ∧
      final.Ended ∧ final.stopped = [(.set, 2)] ∧ final.sent = [(.set, 2)] ∧
      final.withdrawn = [(.string, 1)] ∧ final.FailsCalls := by
  have hrun : (watched 2 ⟨[okResponse.bytes], false⟩).runFrom
      (.initial ⟨[okResponse.bytes], false⟩) (secondCallFails 0 1) = some _ := rfl
  refine ⟨_, hrun, ⟨_, rfl⟩, rfl, rfl, rfl, ?_⟩
  exact (readLoop_fails_calls_iff 1 _).1.mpr okResponse_confined _
    ((TransitionSystem.ReachableBy.init rfl).runBy hrun)

def shortResponse : Frame where
  streamID := 1
  type := frameTypeResponse
  flags := 0
  payload := [0, 0, 0, 0, 0, 255, 255]

theorem short_response_crashes_client : ∃ final, (watched 1 ⟨[shortResponse.bytes], false⟩).runFrom
        (.initial ⟨[shortResponse.bytes], false⟩)
        (waitingCall 0 .string ++ [.read (List.replicate 16 0), .range 1]) = some final ∧
      final.state.loop = .crashed :=
  ⟨_, rfl, rfl⟩

end Watched

end ClientConn

end MCache.Net

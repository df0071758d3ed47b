import MCache.ChannelOwnership

/-!
# Responses reach the calls they are for

The ownership of channels over whole runs.  A response may be lost to another
call only where a channel is drained while `readLoop` is about to send to it, or
where a pipeline reads from channels it has given back.
-/

namespace MCache.Net.ClientConn

def Task.draining (t : Task) : Option ℕ :=
  match t.stage with
  | .drain (x :: _) => some x.2
  | _ => none

def Loop.holding : Loop → Option ℕ
  | .sending ch _ _ => some ch
  | _ => none

def Task.Reads (t : Task) : Prop := t.written = true → t.tickets = [] ∨ t.held = true

namespace State

variable {n : ℕ}

def Separate (s : State n) (a : Action n) : Prop :=
  match a with
  | .thread p .drain =>
    match s.threads p with
    | some (.task t) => t.draining = none ∨ t.draining ≠ s.loop.holding
    | _ => True
  | .thread p .readResponses =>
    match s.threads p with
    | some (.task t) => t.Reads
    | _ => True
  | _ => True

instance (s : State n) (a : Action n) : Decidable (s.Separate a) := by
  unfold Separate Task.Reads
  split
  · split <;> infer_instance
  · split <;> infer_instance
  · infer_instance

def Ended (s : State n) : Prop := s.shared.closed = true ∨ ∃ closer, s.loop = .closing closer

end State

namespace World

variable {w : World} {mine : ℕ → Prop}

theorem Undisturbed.trans {mid next : World} (h : w.Undisturbed mine mid)
    (h' : mid.Undisturbed mine next) : w.Undisturbed mine next where
  owner := fun ch family id hid howner =>
    h'.owner ch family id hid (h.owner ch family id hid howner)
  ids := h.ids.trans h'.ids
  pending := fun family id hid hnone =>
    h'.pending family id hid (h.pending family id hid hnone)
  drained := fun family x hid howner hdrained =>
    h'.drained family x hid (h.owner _ _ _ hid howner) (h.drained family x hid howner hdrained)
  ended := fun hended => h'.ended (h.ended hended)

theorem Gets.mono {next : World} {x : ℕ × Message} (h : w.Gets x)
    (hothers : w.Undisturbed mine next) : next.Gets x := by
  obtain ⟨id, m⟩ := x
  cases m with
  | decoded f resp => exact h
  | made => exact hothers.ended h

theorem Sound.closer (h : w.Sound) (hended : w.Ended) {closer : Closer} {e : Event}
    {result : Shared × Closer} (hresult : closer.step w.shared e = some result) :
    Sound { w with shared := result.1 } ∧ w.Undisturbed mine { w with shared := result.1 } := by
  unfold Closer.step at hresult
  split at hresult
  · obtain ⟨ch, -, rfl⟩ := Option.map_eq_some_iff.mp hresult
    exact ⟨h, .refl _ _⟩
  · cases hresult
    exact ⟨h.sendMade hended, undisturbed_sendMade⟩
  · cases hresult
    exact ⟨h.unregister, undisturbed_unregister⟩
  · cases hresult

end World

theorem Task.Sound.step {w : World} {t : Task} (h : t.Sound w) (hw : w.Sound) {e : Event}
    (hdrain : e = .drain → t.draining = none ∨ t.draining ≠ w.loop.holding)
    (hreads : e = .readResponses → t.Reads)
    {next : Shared × Option Task × Option (ℕ × Message)}
    (hnext : t.step w.shared e = some next) :
    ∃ owner, Task.Kept (t.Owns w) w ⟨owner, next.1, w.loop⟩ next.2.1 ∧
      ∀ x ∈ next.2.2, w.Gets x := by
  have hstep := hnext
  unfold Task.step at hnext
  split at hnext
  case h_1 id index hstage =>
    obtain ⟨result, hresult, rfl⟩ := Option.map_eq_some_iff.mp hnext
    exact ⟨_, h.get hw hstage hresult, nofun⟩
  case h_2 id ch hstage =>
    cases hnext
    exact ⟨_, h.store hw hstage, nofun⟩
  case h_6 hstage =>
    obtain ⟨x, hx, hnext⟩ := Option.bind_eq_some_iff.mp hnext
    obtain ⟨m, hm, rfl⟩ := Option.map_eq_some_iff.mp hnext
    obtain ⟨hkept, hgets⟩ := h.receive_wait hw hstage hx hm
    refine ⟨_, hkept, ?_⟩
    rintro y ⟨⟩
    exact hgets
  case h_7 hstage =>
    cases hnext
    exact ⟨_, h.timeout hw (.inl hstage), nofun⟩
  case h_8 x rest hstage =>
    obtain ⟨m, hm, rfl⟩ := Option.map_eq_some_iff.mp hnext
    obtain ⟨hkept, hgets⟩ := h.receive_read hw hstage hm
    refine ⟨_, hkept, ?_⟩
    rintro y ⟨⟩
    exact hgets
  case h_9 rest hstage =>
    cases hnext
    exact ⟨_, h.timeout hw (.inr ⟨rest, hstage⟩), nofun⟩
  case h_10 x rest hstage =>
    cases hnext
    exact ⟨_, h.delete hw hstage, nofun⟩
  case h_11 x rest hstage =>
    cases hnext
    refine ⟨_, h.drain hw hstage fun f resp hloop => ?_, nofun⟩
    have hdrain := hdrain rfl
    simp only [Task.draining, hstage, hloop, Loop.holding] at hdrain
    simp at hdrain
  case h_12 x rest hstage =>
    cases hnext
    exact ⟨_, h.put hw hstage, nofun⟩
  case h_13 hstage =>
    obtain ⟨result, hresult, rfl⟩ := Option.map_eq_some_iff.mp hnext
    exact ⟨_, h.operate hw hstage hreads hresult, nofun⟩
  case h_14 => cases hnext
  all_goals
    rename_i hstage
    obtain ⟨hkept, hnone⟩ := h.write hw hstage hstep
    exact ⟨_, hkept, fun x hx => nomatch hnone.symm.trans hx⟩

namespace State

variable {n : ℕ}

def world (s : State n) (owner : ℕ → Option (Family × ℕ)) : World := ⟨owner, s.shared, s.loop⟩

structure Owned (owner : ℕ → Option (Family × ℕ)) (s : State n) : Prop where
  sound : (s.world owner).Sound
  tasks : ∀ p t, s.threads p = some (.task t) → t.Sound (s.world owner)
  apart : ∀ p q t u, s.threads p = some (.task t) → s.threads q = some (.task u) →
    p ≠ q → ∀ id ∈ t.ids, id ∉ u.ids
  closers : ∀ p closer, s.threads p = some (.closing closer) → (s.world owner).Ended
  received : ∀ x ∈ s.received, (s.world owner).Gets x

variable {s : State n} {owner : ℕ → Option (Family × ℕ)} {next : World}
  {mine : ℕ → Prop}

theorem owned_initial : Owned (fun _ => none) (initial : State n) := by
  constructor
  case sound => constructor <;> simp [world, initial]
  case tasks => simp [initial]
  case apart => simp [initial]
  case closers => simp [initial]
  case received => simp [initial]

theorem Owned.loop (h : Owned owner s) (hsound : next.Sound)
    (hothers : (s.world owner).Undisturbed (fun _ => False) next) :
    Owned next.owner { s with shared := next.shared, loop := next.loop } where
  sound := hsound
  tasks := fun p t ht => (h.tasks p t ht).mono hothers fun _ _ => nofun
  apart := h.apart
  closers := fun p closer hp => hothers.ended (h.closers p closer hp)
  received := fun x hx => (h.received x hx).mono hothers

theorem Owned.thread (h : Owned owner s) {p : Fin n} {rest : Option Thread}
    (out : Option (ℕ × Message)) (hsound : next.Sound)
    (hothers : (s.world owner).Undisturbed mine next)
    (hmine : ∀ q u, q ≠ p → s.threads q = some (.task u) → ∀ id ∈ u.ids, ¬ mine id)
    (htask : ∀ t, rest = some (.task t) → t.Sound next ∧ ∀ id ∈ t.ids, mine id)
    (hcloser : ∀ closer, rest = some (.closing closer) → next.Ended)
    (hout : ∀ x ∈ out, next.Gets x) :
    Owned next.owner
      ⟨next.shared, next.loop, Function.update s.threads p rest, s.received ++ out.toList⟩ := by
  constructor
  case sound => exact hsound
  case tasks =>
    intro q t hq
    rcases update_eq_some hq with ⟨-, hrest⟩ | ⟨hne, hq⟩
    · exact (htask t hrest).1
    · exact (h.tasks q t hq).mono hothers (hmine q t hne hq)
  case apart =>
    intro q r t u hq hr hne id ht hu
    rcases update_eq_some hq with ⟨hqp, hrest⟩ | ⟨hqp, hq⟩
    · rcases update_eq_some hr with ⟨hrp, -⟩ | ⟨hrp, hr⟩
      · exact hne (hqp.trans hrp.symm)
      · exact hmine r u hrp hr id hu ((htask t hrest).2 id ht)
    · rcases update_eq_some hr with ⟨-, hrest⟩ | ⟨-, hr⟩
      · exact hmine q t hqp hq id ht ((htask u hrest).2 id hu)
      · exact h.apart q r t u hq hr hne id ht hu
  case closers =>
    intro q closer hq
    rcases update_eq_some hq with ⟨-, hrest⟩ | ⟨-, hq⟩
    · exact hcloser closer hrest
    · exact hothers.ended (h.closers q closer hq)
  case received =>
    intro x hx
    rcases List.mem_append.mp hx with hx | hx
    · exact (h.received x hx).mono hothers
    · exact hout x (by simpa using hx)

theorem Owned.withThread (h : Owned owner s) {p : Fin n} {rest : Option Thread}
    {sh : Shared} (hnext : World.Sound ⟨owner, sh, s.loop⟩ ∧
      (s.world owner).Undisturbed (s.shared.nextStreamID < ·) ⟨owner, sh, s.loop⟩)
    (htask : ∀ t, rest = some (.task t) → t.Sound ⟨owner, sh, s.loop⟩ ∧
      ∀ id ∈ t.ids, s.shared.nextStreamID < id)
    (hcloser : ∀ closer, rest = some (.closing closer) → World.Ended ⟨owner, sh, s.loop⟩) :
    Owned owner (s.withThread p sh rest) := by
  have hmine : ∀ q u, q ≠ p → s.threads q = some (.task u) → ∀ id ∈ u.ids,
      ¬ s.shared.nextStreamID < id :=
    fun q u _ hu id hid => ((h.tasks q u hu).ids_le id hid).not_gt
  have howned := h.thread none hnext.1 hnext.2 hmine htask hcloser nofun
  simpa [State.withThread] using howned

theorem Owned.begin (h : Owned owner s) {p : Fin n} {e : Event} {final : State n}
    (hfinal : s.begin p e = some final) : Owned owner final := by
  cases e with
  | call family =>
    unfold State.begin at hfinal
    dsimp only at hfinal
    split_ifs at hfinal
    · cases hfinal
      exact h
    · obtain ⟨result, hresult, rfl⟩ := Option.map_eq_some_iff.mp hfinal
      obtain ⟨hnext, hid, hle⟩ := h.sound.newID _ hresult
      refine h.withThread hnext ?_ nofun
      rintro t ⟨⟩
      refine ⟨⟨backed_nil _ _, rfl, nofun, hle.ge⟩, fun id hmem => ?_⟩
      cases List.mem_singleton.mp hmem
      exact hid ▸ Nat.lt_succ_self _
  | newPipeline =>
    cases hfinal
    refine h.withThread ⟨h.sound, .refl _ _⟩ ?_ nofun
    rintro t ⟨⟩
    exact ⟨⟨backed_nil _ _, nofun⟩, nofun⟩
  | close =>
    cases hfinal
    exact h.withThread h.sound.close nofun fun _ _ => .inl rfl
  | _ => cases hfinal

theorem Owned.stepThread (h : Owned owner s) {p : Fin n} {e : Event} {final : State n}
    (hseparate : s.Separate (.thread p e)) (hfinal : s.stepThread p e = some final) :
    ∃ owner, Owned owner final := by
  unfold State.stepThread at hfinal
  split at hfinal
  case h_1 => exact ⟨owner, h.begin hfinal⟩
  case h_2 closer hp =>
    obtain ⟨result, hresult, rfl⟩ := Option.map_eq_some_iff.mp hfinal
    have hended := h.closers p closer hp
    obtain ⟨hsound, hothers⟩ := h.sound.closer hended hresult
    exact ⟨owner, h.withThread ⟨hsound, hothers⟩ nofun fun _ _ => hothers.ended hended⟩
  case h_3 t hp =>
    obtain ⟨result, hresult, rfl⟩ := Option.map_eq_some_iff.mp hfinal
    have hdrain : e = .drain → t.draining = none ∨ t.draining ≠ s.loop.holding := by
      rintro rfl
      simpa only [State.Separate, hp] using hseparate
    have hreads : e = .readResponses → t.Reads := by
      rintro rfl
      simpa only [State.Separate, hp] using hseparate
    obtain ⟨owner', hkept, hout⟩ := (h.tasks p t hp).step h.sound hdrain hreads hresult
    refine ⟨owner', h.thread _ hkept.sound hkept.others ?_ ?_ ?_ ?_⟩
    · rintro q u hne hu id hid (hmine | hnew)
      · exact h.apart q p u t hu hp hne id hid hmine
      · exact ((h.tasks q u hu).ids_le id hid).not_gt hnew
    · intro u hu
      obtain ⟨v, hv, hvu⟩ := Option.map_eq_some_iff.mp hu
      cases hvu
      exact hkept.task u hv
    · intro closer hcloser
      obtain ⟨v, -, hv⟩ := Option.map_eq_some_iff.mp hcloser
      cases hv
    · exact fun x hx => (hout x hx).mono hkept.others

theorem Owned.setLoop (h : Owned owner s) {loop : Loop}
    (hsending : ∀ ch f resp, loop ≠ .sending ch f resp)
    (hended : (s.world owner).Ended → World.Ended ⟨owner, s.shared, loop⟩) :
    Owned owner { s with loop := loop } :=
  h.loop (h.sound.setLoop hsending hended) (World.undisturbed_setLoop hsending hended)

theorem Owned.closer (h : Owned owner s) {closer : Closer} (hloop : s.loop = .closing closer)
    {e : Event} {result : Shared × Closer}
    (hresult : closer.step s.shared e = some result) :
    Owned owner { s with shared := result.1, loop := .closing result.2 } := by
  have hclosing : ∀ w : World, World.Ended { w with loop := .closing result.2 } :=
    fun _ => .inr ⟨_, rfl⟩
  have hsending : ∀ ch f resp, Loop.closing result.2 ≠ .sending ch f resp := nofun
  obtain ⟨hsound, hothers⟩ := h.sound.closer (.inr ⟨closer, hloop⟩) hresult
  exact h.loop (hsound.setLoop hsending fun _ => hclosing _)
    (hothers.trans (World.undisturbed_setLoop hsending fun _ => hclosing _))

theorem closed_of_ended (hloop : ∀ closer, s.loop ≠ .closing closer)
    (h : (s.world owner).Ended) : s.shared.closed = true :=
  h.resolve_right fun ⟨closer, hclosing⟩ => hloop closer hclosing

theorem Owned.stepLoop (h : Owned owner s) {e : LoopEvent} {final : State n}
    (hfinal : s.stepLoop e = some final) : Owned owner final := by
  have hrunning : (∀ closer, s.loop ≠ .closing closer) → ∀ loop,
      (s.world owner).Ended → World.Ended ⟨owner, s.shared, loop⟩ :=
    fun hloop _ hended => .inl (closed_of_ended hloop hended)
  cases loopStep_of_stepLoop hfinal with
  | skip => exact h
  | decode hloop => exact h.setLoop nofun (hrunning (by simp [hloop]) _)
  | panic hloop => exact h.setLoop nofun (hrunning (by simp [hloop]) _)
  | fail => exact h.setLoop nofun fun _ => .inr ⟨_, rfl⟩
  | found hloop hch =>
    obtain ⟨hsound, hothers⟩ := h.sound.load hloop hch
    exact h.loop hsound hothers
  | missing hloop => exact h.setLoop nofun (hrunning (by simp [hloop]) _)
  | deliver hloop =>
    obtain ⟨hsound, hothers⟩ := h.sound.send hloop
    exact h.loop hsound hothers
  | close hloop _ hresult => exact h.closer hloop hresult
  | crash hloop => exact h.setLoop nofun (hrunning (by simp [hloop]) _)

theorem Owned.step (h : Owned owner s) {a : Action n} {final : State n}
    (hseparate : s.Separate a) (hfinal : s.step a = some final) :
    ∃ owner, Owned owner final := by
  cases a with
  | thread p e => exact h.stepThread hseparate (stepThread_of_step hfinal)
  | loop e => exact ⟨owner, h.stepLoop hfinal⟩

end State

theorem received_own_response {n : ℕ} {s : State n}
    (hreach : (connection n).ReachableBy State.Separate s) {id : ℕ} {m : Message}
    (hreceived : (id, m) ∈ s.received) :
    (∃ f resp, m = .decoded f resp ∧ f.streamID.toNat = id) ∨ m = .made ∧ s.Ended := by
  obtain ⟨owner, howned⟩ := hreach.invariant (fun s => ∃ owner, s.Owned owner)
    (fun s hinit => ⟨_, hinit ▸ State.owned_initial⟩)
    fun s a next ⟨owner, h⟩ hseparate hstep => h.step hseparate hstep
  have hgets := howned.received _ hreceived
  cases m with
  | decoded f resp => exact .inl ⟨f, resp, rfl, hgets⟩
  | made => exact .inr ⟨rfl, hgets⟩

def State.deliveries {n : ℕ} (s : State n) : List (ℕ × Option ℕ) := s.received.map fun x =>
    (x.1, match x.2 with
      | .decoded f _ => some f.streamID.toNat
      | .made => none)

def okFrame (id : UInt32) : Frame where
  streamID := id
  type := frameTypeResponse
  flags := 0
  payload := [0, 0, 0, 0, 0, 0, 0]

def requestSteps {n : ℕ} (p : Fin n) (index : Option ℕ) : List (Action n) :=
  [.thread p (.call .string), .thread p (.get index), .thread p .store, .thread p (.write .ok)]

def responseSteps {n : ℕ} (f : Frame) : List (Action n) := [.loop (.frame f []), .loop .load]

def receiveSteps {n : ℕ} (p : Fin n) : List (Action n) := [.loop .send, .thread p .receive]

def returnSteps {n : ℕ} (p : Fin n) : List (Action n) :=
  [.thread p .delete, .thread p .drain, .thread p .put]

def answeredCall {n : ℕ} (p : Fin n) : List (Action n) :=
  requestSteps p none ++ responseSteps (okFrame 1) ++ receiveSteps p

theorem received_own_response_reusedChannel :
    ∃ s : State 2, (connection 2).ReachableBy State.Separate s ∧
      s.deliveries = [(1, some 1), (2, some 2)] ∧
      ∀ id m, (id, m) ∈ s.received →
        (∃ f resp, m = .decoded f resp ∧ f.streamID.toNat = id) ∨ m = .made ∧ s.Ended := by
  have hrun : ((connection 2).runBy State.Separate .initial
      (answeredCall 0 ++ returnSteps 0 ++ requestSteps 1 (some 0) ++
        responseSteps (okFrame 2) ++ receiveSteps 1)).map State.deliveries =
      some [(1, some 1), (2, some 2)] := by
    decide +kernel
  obtain ⟨s, hreach, hdeliveries⟩ := TransitionSystem.exists_reachableBy rfl hrun
  exact ⟨s, hreach, hdeliveries, fun id m hm => received_own_response hreach hm⟩

def lateResponse {n : ℕ} (p q : Fin n) : List (Action n) :=
  requestSteps p none ++ responseSteps (okFrame 1) ++
    .thread p .timeout :: returnSteps p ++ requestSteps q (some 0) ++ receiveSteps q

theorem response_of_other_call : ∃ s : State 2, (connection 2).Reachable s ∧
      ∃ id f resp, (id, .decoded f resp) ∈ s.received ∧ f.streamID.toNat ≠ id := by
  have hrun : ((connection 2).runFrom .initial (lateResponse 0 1)).map State.deliveries =
      some [(2, some 1)] := by
    decide +kernel
  obtain ⟨s, hreach, hdeliveries⟩ := TransitionSystem.exists_reachableBy rfl hrun
  have hmem : (2, some 1) ∈ s.deliveries := hdeliveries ▸ List.mem_singleton_self _
  obtain ⟨⟨id, m⟩, hx, hsame⟩ := List.mem_map.mp hmem
  injection hsame with hid hframe
  cases hid
  cases m with
  | decoded f resp =>
    injection hframe with hframe
    exact ⟨s, hreach, 2, f, resp, hx, by rw [hframe]; decide⟩
  | made => cases hframe

end MCache.Net.ClientConn

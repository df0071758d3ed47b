import MCache.ChannelOwnership
import MCache.FrameDecoding

/-!
# Calls that are pending when the read loop stops

`readLoop` of `net/client.go` stops at a read error, at an oversized frame or at a
panic of a decoder, and then `closeAllPending` ranges over the four pending maps,
one after the other.  The runs of a connection are watched here from the bytes of
the server to the end of the last map, with a record of the calls that were
pending when the loop stopped and of what became of them.
-/

namespace MCache.Net.ClientConn

/-! ## What a step does to the calls -/

abbrev Call := Family × ℕ

def Closer.sends : Closer → Event → List Call
  | .sending family id _, .send => [(family, id)]
  | _, _ => []

def Task.withdraws (t : Task) (e : Event) : List Call :=
  match t.stage, e with
  | .delete (x :: _), .delete => [(t.family, x.1)]
  | _, _ => []

section Calls

variable {n : ℕ}

def State.sends (s : State n) : Action n → List Call
  | .thread p e =>
    match s.threads p with
    | some (.closing closer) => closer.sends e
    | _ => []
  | .loop .send =>
    match s.loop with
    | .closing closer => closer.sends .send
    | _ => []
  | .loop _ => []

def State.withdraws (s : State n) : Action n → List Call
  | .thread p e =>
    match s.threads p with
    | some (.task t) => t.withdraws e
    | _ => []
  | .loop _ => []

theorem State.sends_closing {s : State n} {e : LoopEvent} {event : Event} {closer : Closer}
    (hloop : s.loop = .closing closer) (hevent : e.closes = some event) :
    s.sends (.loop e) = closer.sends event := by
  cases e with
  | send =>
    cases hevent
    simp only [State.sends, hloop]
  | range family id =>
    cases hevent
    cases closer <;> rfl
  | remove =>
    cases hevent
    cases closer <;> rfl
  | _ => cases hevent

end Calls

def Shared.ids (sh : Shared) (family : Family) : List ℕ :=
  (List.range (sh.nextStreamID + 1)).filter fun id => (sh.pending family id).isSome

def closeOrder : List Family := [.string, .set, .hash, .list]

def Shared.calls (sh : Shared) : List Call :=
  closeOrder.flatMap fun family => (sh.ids family).map fun id => (family, id)

/-! ## Watched runs -/

structure Ranging where
  families : List Family
  ids : List ℕ

def Ranging.start (sh : Shared) (families : List Family) : Ranging where
  families := families
  ids := families.head?.elim [] sh.ids

structure Watched (n : ℕ) where
  state : State n
  stream : Reader
  ranging : Option Ranging
  stopped : List Call
  sent : List Call
  withdrawn : List Call

inductive WatchedAction (n : ℕ) where
  | thread (p : Fin n) (e : Event)
  | read (recycled : Bytes)
  | load
  | send
  | range (id : ℕ)
  | remove
  | nextMap

namespace Watched

variable {n : ℕ}

def initial (r : Reader) : Watched n where
  state := .initial
  stream := r
  ranging := none
  stopped := []
  sent := []
  withdrawn := []

def follow (w : Watched n) (a : Action n) (s : State n) : Watched n :=
  { w with
    state := s
    sent := w.sent ++ w.state.sends a
    withdrawn := w.withdrawn ++ w.state.withdraws a }

def stop (w : Watched n) : Watched n :=
  { w with
    ranging := some (.start w.state.shared closeOrder)
    stopped := w.state.shared.calls }

def spare (recycled payload : Bytes) : Bytes :=
  (readPayload recycled payload).array.drop payload.length

def read (w : Watched n) (recycled : Bytes) : Option (Watched n) :=
  match decodeFrame recycled w.stream with
  | (.error _, rest) =>
    (w.state.step (.loop .fail)).map fun s =>
      { (w.follow (.loop .fail) s).stop with stream := rest }
  | (.ok f, rest) =>
    let event := LoopEvent.frame f (spare recycled f.payload)
    (w.state.step (.loop event)).map fun s =>
      match s.loop with
      | .panicked => { (w.follow (.loop event) s).stop with stream := rest }
      | _ => { w.follow (.loop event) s with stream := rest }

def nextMap (w : Watched n) : Option (Watched n) :=
  match w.state.loop, w.ranging with
  | .closing .ranging, some ⟨family :: rest, ids⟩
  | .panicked, some ⟨family :: rest, ids⟩ =>
    if ∀ id ∈ ids, w.state.shared.pending family id = none then
      some { w with ranging := some (.start w.state.shared rest) }
    else none
  | _, _ => none

def step (w : Watched n) : WatchedAction n → Option (Watched n)
  | .thread p e => (w.state.step (.thread p e)).map (w.follow (.thread p e))
  | .read recycled => w.read recycled
  | .load => (w.state.step (.loop .load)).map (w.follow (.loop .load))
  | .send => (w.state.step (.loop .send)).map (w.follow (.loop .send))
  | .range id =>
    match w.ranging with
    | some ⟨family :: _, _⟩ =>
      (w.state.step (.loop (.range family id))).map (w.follow (.loop (.range family id)))
    | _ => none
  | .remove => (w.state.step (.loop .remove)).map (w.follow (.loop .remove))
  | .nextMap => w.nextMap

end Watched

def watched (n : ℕ) (r : Reader) : TransitionSystem (Watched n) (WatchedAction n) where
  init := fun w => w = .initial r
  step := Watched.step

/-! ## Pending maps over a step -/

def Shared.Bounded (sh : Shared) : Prop :=
  ∀ c : Call, (sh.pending c.1 c.2).isSome → c.2 ≤ sh.nextStreamID

structure Shared.Moves (gone : List Call) (sh next : Shared) : Prop where
  counter : sh.nextStreamID ≤ next.nextStreamID
  kept : ∀ c : Call, (sh.pending c.1 c.2).isSome → (next.pending c.1 c.2).isSome ∨ c ∈ gone
  bounded : sh.Bounded → next.Bounded

section Moves

variable {sh next : Shared} {gone : List Call} {family : Family} {id : ℕ}

theorem Shared.Moves.of_pending (hpending : next.pending = sh.pending)
    (hcounter : sh.nextStreamID ≤ next.nextStreamID) : Shared.Moves gone sh next where
  counter := hcounter
  kept := fun _ hc => .inl (hpending ▸ hc)
  bounded := fun h c hc => (h c (hpending ▸ hc)).trans hcounter

theorem Shared.Moves.refl : Shared.Moves gone sh sh := .of_pending rfl le_rfl

theorem Shared.Moves.register {ch : ℕ} (hid : id ≤ sh.nextStreamID) :
    Shared.Moves gone sh (sh.withPending family id (some ch)) where
  counter := le_rfl
  kept := by
    intro c hc
    left
    rw [Shared.withPending_pending]
    split_ifs
    · rfl
    · exact hc
  bounded := by
    intro h c hc
    rw [Shared.withPending_pending] at hc
    split_ifs at hc with hcall
    · exact hcall.2 ▸ hid
    · exact h c hc

theorem Shared.Moves.unregister :
    Shared.Moves [(family, id)] sh (sh.withPending family id none) where
  counter := le_rfl
  kept := by
    intro c hc
    rw [Shared.withPending_pending]
    split_ifs with hcall
    · exact .inr (List.mem_singleton.mpr (Prod.ext hcall.1 hcall.2))
    · exact .inl hc
  bounded := by
    intro h c hc
    rw [Shared.withPending_pending] at hc
    split_ifs at hc
    · cases hc
    · exact h c hc

theorem Shared.Moves.trySend {ch : ℕ} {m : Message} : Shared.Moves gone sh (sh.trySend ch m) := by
  rw [World.trySend_eq]
  exact .of_pending rfl le_rfl

end Moves

namespace Task

variable {next : Shared}

def registers (t : Task) : Option ℕ :=
  match t.stage with
  | .get id | .store id _ => some id
  | _ => none

def Numbered (sh : Shared) (t : Task) : Prop := ∀ id, t.registers = some id → id ≤ sh.nextStreamID

structure Moved (gone : List Call) (sh next : Shared) (rest : Option Task) : Prop where
  moves : Shared.Moves gone sh next
  numbered : ∀ u, rest = some u → u.Numbered next

variable {sh : Shared} {t u : Task} {e : Event} {gone : List Call}

theorem registers_finish (h : t.finish = some u) : u.registers = none := by
  unfold finish at h
  split_ifs at h <;> cases h <;> rfl

theorem registers_cleanup (h : t.cleanup = some u) : u.registers = none := by
  unfold cleanup at h
  split_ifs at h
  · exact registers_finish h
  · cases h
    rfl

theorem Moved.of_registers {rest : Option Task} (hmoves : Shared.Moves gone sh next)
    (hrest : ∀ u, rest = some u → u.registers = none) : Moved gone sh next rest where
  moves := hmoves
  numbered := by
    intro u hu id hid
    rw [hrest u hu] at hid
    cases hid

theorem Moved.continue (hmoves : Shared.Moves gone sh next) (hu : u.registers = none) :
    Moved gone sh next (some u) := by
  refine .of_registers hmoves fun v hv => ?_
  cases hv
  exact hu

theorem Moved.cleanup (hmoves : Shared.Moves gone sh next) : Moved gone sh next t.cleanup :=
  .of_registers hmoves fun _ => registers_cleanup

theorem getChannel_same {family : Family} {index : Option ℕ} {result : Shared × ℕ}
    (h : sh.getChannel family index = some result) :
    result.1.pending = sh.pending ∧ result.1.nextStreamID = sh.nextStreamID := by
  cases index with
  | none =>
    cases h
    exact ⟨rfl, rfl⟩
  | some i =>
    unfold Shared.getChannel at h
    dsimp only at h
    split at h
    · split_ifs at h
      cases h
      exact ⟨rfl, rfl⟩
    · cases h

theorem newID_counts {result : Shared × ℕ} (h : sh.newID = some result) :
    result.1 = { sh with nextStreamID := sh.nextStreamID + 1 } ∧
      result.2 = sh.nextStreamID + 1 := by
  unfold Shared.newID at h
  split_ifs at h
  cases h
  exact ⟨rfl, rfl⟩

theorem operate_moved {next : Shared × Option Task} (hready : t.registers = none)
    (h : t.operate sh e = some next) : Moved gone sh next.1 next.2 := by
  cases e with
  | add =>
    unfold operate at h
    dsimp only at h
    split_ifs at h
    · cases h
      exact .continue .refl hready
    · obtain ⟨result, hresult, rfl⟩ := Option.map_eq_some_iff.mp h
      obtain ⟨hshared, hid⟩ := newID_counts hresult
      rw [hshared]
      refine ⟨.of_pending rfl (Nat.le_succ _), fun u hu id hregisters => ?_⟩
      cases hu
      cases hregisters
      exact hid.le
  | flushWrite result =>
    unfold operate at h
    dsimp only at h
    split_ifs at h
    · cases h
      exact .continue .refl hready
    · cases h
      exact .cleanup .refl
    · cases h
      exact .continue .refl hready
    · cases result with
      | ok =>
        cases h
        exact .continue .refl hready
      | failed =>
        cases h
        exact .cleanup (.of_pending rfl le_rfl)
      | unencodable => cases h
  | readResponses =>
    unfold operate at h
    dsimp only at h
    split_ifs at h
    · cases h
      exact .continue .refl hready
    · cases h
      exact .cleanup .refl
    · cases h
      exact .continue .refl rfl
  | reset =>
    unfold operate at h
    dsimp only at h
    split_ifs at h
    · cases h
      exact .cleanup .refl
    · cases h
      exact .continue .refl rfl
  | abandon =>
    cases h
    exact .of_registers .refl fun u hu => by cases hu
  | _ => cases h

theorem step_moved {next : Shared × Option Task × Option (ℕ × Message)}
    (hids : t.Numbered sh) (h : t.step sh e = some next) :
    Moved (t.withdraws e) sh next.1 next.2.1 := by
  unfold step at h
  split at h
  case h_1 id index hstage =>
    obtain ⟨result, hresult, rfl⟩ := Option.map_eq_some_iff.mp h
    obtain ⟨hpending, hcounter⟩ := getChannel_same hresult
    refine ⟨.of_pending hpending hcounter.ge, fun u hu id' hregisters => ?_⟩
    cases hu
    cases hregisters
    exact hcounter ▸ hids id (by simp [registers, hstage])
  case h_2 id ch hstage =>
    cases h
    have hid : id ≤ sh.nextStreamID := hids id (by simp [registers, hstage])
    refine .continue (.register hid) ?_
    unfold registers
    dsimp only
    split_ifs <;> rfl
  case h_3 => cases h; exact .continue .refl rfl
  case h_4 => cases h; exact .cleanup (.of_pending rfl le_rfl)
  case h_5 =>
    split_ifs at h
    cases h
    exact .cleanup .refl
  case h_6 =>
    obtain ⟨x, -, hx⟩ := Option.bind_eq_some_iff.mp h
    obtain ⟨m, -, rfl⟩ := Option.map_eq_some_iff.mp hx
    exact .cleanup (.of_pending rfl le_rfl)
  case h_7 => cases h; exact .cleanup .refl
  case h_8 x rest _ =>
    obtain ⟨m, -, rfl⟩ := Option.map_eq_some_iff.mp h
    dsimp only
    split_ifs
    · exact .cleanup (.of_pending rfl le_rfl)
    · exact .continue (.of_pending rfl le_rfl) rfl
  case h_9 => cases h; exact .cleanup .refl
  case h_10 x rest hstage =>
    cases h
    have hgone : t.withdraws .delete = [(t.family, x.1)] := by simp [withdraws, hstage]
    rw [hgone]
    exact .continue .unregister rfl
  case h_11 => cases h; exact .continue (.of_pending rfl le_rfl) rfl
  case h_12 x rest _ =>
    cases h
    dsimp only
    split_ifs
    · exact .of_registers (.of_pending rfl le_rfl) fun _ => registers_finish
    · exact .continue (.of_pending rfl le_rfl) rfl
  case h_13 hstage =>
    obtain ⟨result, hresult, rfl⟩ := Option.map_eq_some_iff.mp h
    exact operate_moved (by simp [registers, hstage]) hresult
  case h_14 => cases h

end Task

def Closer.answered : Closer → List Call
  | .deleting family id => [(family, id)]
  | _ => []

theorem Closer.step_moves {sh : Shared} {closer : Closer} {e : Event}
    {next : Shared × Closer} (h : closer.step sh e = some next) :
    Shared.Moves closer.answered sh next.1 ∧ ∀ c ∈ next.2.answered, c ∈ closer.sends e := by
  unfold Closer.step at h
  split at h
  · obtain ⟨ch, -, rfl⟩ := Option.map_eq_some_iff.mp h
    exact ⟨.refl, fun c hc => by cases hc⟩
  · cases h
    exact ⟨.trySend, fun c hc => hc⟩
  · cases h
    exact ⟨.unregister, fun c hc => by cases hc⟩
  · cases h

def Thread.Sound (sh : Shared) (sent : List Call) : Thread → Prop
  | .task t => t.Numbered sh
  | .closing closer => ∀ c ∈ closer.answered, c ∈ sent

theorem Thread.Sound.mono {sh next : Shared} {sent : List Call} {thread : Thread}
    (h : thread.Sound sh sent) (hcounter : sh.nextStreamID ≤ next.nextStreamID)
    (more : List Call) : thread.Sound next (sent ++ more) := by
  cases thread with
  | task t => exact fun id hid => (h id hid).trans hcounter
  | closing closer => exact fun c hc => List.mem_append_left _ (h c hc)

/-! ## The calls that were pending -/

namespace Watched

variable {n : ℕ} {w next : Watched n}
variable {c : Call} {s : State n} {p : Fin n} {e : Event} {sh : Shared}

def Settled (w : Watched n) (c : Call) : Prop := c ∈ w.sent ∨ c ∈ w.withdrawn

structure Sound (w : Watched n) : Prop where
  bounded : w.state.shared.Bounded
  threads : ∀ p thread, w.state.threads p = some thread → thread.Sound w.state.shared w.sent
  loop : ∀ closer, w.state.loop = .closing closer → ∀ c ∈ closer.answered, c ∈ w.sent
  pending : ∀ c ∈ w.stopped, (w.state.shared.pending c.1 c.2).isSome ∨ w.Settled c
  ranged : ∀ r, w.ranging = some r → ∀ c ∈ w.stopped,
    w.Settled c ∨ c.1 ∈ r.families ∧ (r.families.head? = some c.1 → c.2 ∈ r.ids)

theorem Settled.follow (h : w.Settled c) (a : Action n) (s : State n) : (w.follow a s).Settled c :=
  h.imp (List.mem_append_left _) (List.mem_append_left _)

theorem Sound.follow (h : w.Sound) {a : Action n} (gone : List Call)
    (hmoves : Shared.Moves gone w.state.shared s.shared)
    (hgone : ∀ c ∈ gone, (w.follow a s).Settled c)
    (hthreads : ∀ p thread, s.threads p = some thread → w.state.threads p = some thread ∨
        thread.Sound s.shared (w.sent ++ w.state.sends a))
    (hloop : ∀ closer, s.loop = .closing closer →
      ∀ c ∈ closer.answered, c ∈ w.sent ++ w.state.sends a) : (w.follow a s).Sound where
  bounded := hmoves.bounded h.bounded
  threads := by
    intro p thread hthread
    rcases hthreads p thread hthread with hold | hnew
    · exact (h.threads p thread hold).mono hmoves.counter _
    · exact hnew
  loop := hloop
  pending := by
    intro c hc
    rcases h.pending c hc with hpending | hsettled
    · exact (hmoves.kept c hpending).imp_right (hgone c)
    · exact .inr (hsettled.follow a s)
  ranged := by
    intro r hr c hc
    exact (h.ranged r hr c hc).imp_left fun hsettled => hsettled.follow a s

/-! ## Steps of threads -/

theorem Sound.withThread (h : w.Sound) {rest : Option Thread}
    {received : List (ℕ × Message)} (gone : List Call)
    (hmoves : Shared.Moves gone w.state.shared sh)
    (hgone : ∀ c ∈ gone, c ∈ w.sent ++ w.state.sends (.thread p e) ∨
      c ∈ w.withdrawn ++ w.state.withdraws (.thread p e))
    (hrest : ∀ thread, rest = some thread →
      thread.Sound sh (w.sent ++ w.state.sends (.thread p e))) :
    (w.follow (.thread p e)
      { w.state.withThread p sh rest with received := received }).Sound := by
  refine h.follow gone hmoves hgone (fun q thread hthread => ?_) fun closer hloop c hc => ?_
  · rcases update_eq_some hthread with ⟨-, hnew⟩ | ⟨-, hold⟩
    · exact .inr (hrest thread hnew)
    · exact .inl hold
  · exact List.mem_append_left _ (h.loop closer hloop c hc)

theorem Sound.begin (h : w.Sound) (hstep : w.state.begin p e = some s) :
    (w.follow (.thread p e) s).Sound := by
  cases e with
  | call family =>
    unfold State.begin at hstep
    dsimp only at hstep
    split_ifs at hstep
    · cases hstep
      exact h.follow [] .refl (fun c hc => by cases hc) (fun p thread hthread => .inl hthread)
        fun closer hloop c hc => List.mem_append_left _ (h.loop closer hloop c hc)
    · obtain ⟨result, hresult, rfl⟩ := Option.map_eq_some_iff.mp hstep
      obtain ⟨hshared, hid⟩ := Task.newID_counts hresult
      rw [hshared]
      refine h.withThread [] (.of_pending rfl (Nat.le_succ _)) (fun c hc => by cases hc)
        fun thread hthread => ?_
      cases hthread
      intro id hregisters
      cases hregisters
      exact hid.le
  | newPipeline =>
    cases hstep
    refine h.withThread [] .refl (fun c hc => by cases hc) fun thread hthread => ?_
    cases hthread
    intro id hregisters
    cases hregisters
  | close =>
    cases hstep
    refine h.withThread [] (.of_pending rfl le_rfl) (fun c hc => by cases hc)
      fun thread hthread => ?_
    cases hthread
    intro c hc
    cases hc
  | _ => cases hstep

theorem Sound.thread (h : w.Sound) (hstep : w.state.stepThread p e = some s) :
    (w.follow (.thread p e) s).Sound := by
  unfold State.stepThread at hstep
  split at hstep
  case h_1 => exact h.begin hstep
  case h_2 closer hthread =>
    obtain ⟨result, hresult, rfl⟩ := Option.map_eq_some_iff.mp hstep
    obtain ⟨hmoves, hanswered⟩ := Closer.step_moves hresult
    refine h.withThread _ hmoves (fun c hc => ?_) fun thread hrest => ?_
    · exact .inl (List.mem_append_left _ (h.threads p _ hthread c hc))
    · cases hrest
      intro c hc
      apply List.mem_append_right
      simpa only [State.sends, hthread] using hanswered c hc
  case h_3 t hthread =>
    obtain ⟨result, hresult, rfl⟩ := Option.map_eq_some_iff.mp hstep
    have hmoved := Task.step_moved (h.threads p _ hthread) hresult
    refine h.withThread _ hmoved.moves (fun c hc => ?_) fun thread hrest => ?_
    · right
      apply List.mem_append_right
      simpa only [State.withdraws, hthread] using hc
    · obtain ⟨u, hu, rfl⟩ := Option.map_eq_some_iff.mp hrest
      exact hmoved.numbered u hu

/-! ## Steps of the loop -/

theorem Sound.setLoop (h : w.Sound) {e : LoopEvent} {loop : Loop}
    (hloop : ∀ closer, loop = .closing closer → closer.answered = []) :
    (w.follow (.loop e) { w.state with loop := loop }).Sound := by
  refine h.follow [] .refl (fun c hc => by cases hc) (fun p thread hthread => .inl hthread) ?_
  intro closer hcloser c hc
  rw [hloop closer hcloser] at hc
  cases hc

theorem Sound.closing (h : w.Sound) {e : LoopEvent} {event : Event} {closer : Closer}
    {result : Shared × Closer} (hloop : w.state.loop = .closing closer)
    (hevent : e.closes = some event)
    (hresult : closer.step w.state.shared event = some result) :
    (w.follow (.loop e)
      { w.state with shared := result.1, loop := .closing result.2 }).Sound := by
  obtain ⟨hmoves, hanswered⟩ := Closer.step_moves hresult
  refine h.follow _ hmoves (fun c hc => ?_) (fun p thread hthread => .inl hthread) ?_
  · exact .inl (List.mem_append_left _ (h.loop closer hloop c hc))
  · intro other hother c hc
    cases hother
    have hsends : w.state.sends (.loop e) = closer.sends event := State.sends_closing hloop hevent
    exact List.mem_append_right _ (hsends ▸ hanswered c hc)

theorem Sound.stepLoop (h : w.Sound) {e : LoopEvent}
    (hstep : w.state.stepLoop e = some s) : (w.follow (.loop e) s).Sound := by
  cases State.loopStep_of_stepLoop hstep with
  | skip hloop =>
    have hreading : w.state = { w.state with loop := .reading } := by rw [← hloop]
    rw [hreading]
    exact h.setLoop nofun
  | decode => exact h.setLoop nofun
  | panic => exact h.setLoop nofun
  | fail =>
    refine h.setLoop fun closer hcloser => ?_
    cases hcloser
    rfl
  | found => exact h.setLoop nofun
  | missing => exact h.setLoop nofun
  | deliver =>
    exact h.follow [] .trySend nofun (fun p thread hthread => .inl hthread) nofun
  | close hloop hevent hresult => exact h.closing hloop hevent hresult
  | crash => exact h.setLoop nofun

theorem Sound.step_state (h : w.Sound) {a : Action n} (hstep : w.state.step a = some s) :
    (w.follow a s).Sound := by
  cases a with
  | thread p e => exact h.thread (State.stepThread_of_step hstep)
  | loop e => exact h.stepLoop hstep

/-! ## Ranges -/

theorem mem_ids (h : sh.Bounded) {family : Family} {id : ℕ} :
    id ∈ sh.ids family ↔ (sh.pending family id).isSome := by
  simp only [Shared.ids, List.mem_filter, List.mem_range, and_iff_right_iff_imp]
  intro hpending
  exact Nat.lt_succ_of_le (h (family, id) hpending)

theorem mem_calls (h : sh.Bounded) : c ∈ sh.calls ↔ (sh.pending c.1 c.2).isSome := by
  obtain ⟨family, id⟩ := c
  have hfamily : family ∈ closeOrder := by cases family <;> decide
  simp [Shared.calls, mem_ids h, hfamily]

theorem mem_start_ids (h : sh.Bounded) {families : List Family}
    (hpending : (sh.pending c.1 c.2).isSome) (hhead : families.head? = some c.1) :
    c.2 ∈ (Ranging.start sh families).ids := by
  simp only [Ranging.start, hhead, Option.elim_some]
  exact (mem_ids h).mpr hpending

theorem Sound.stop (h : w.Sound) : w.stop.Sound where
  bounded := h.bounded
  threads := h.threads
  loop := h.loop
  pending := fun _ hc => .inl ((mem_calls h.bounded).mp hc)
  ranged := by
    intro r hr c hc
    cases hr
    have hfamily : c.1 ∈ closeOrder := by cases c.1 <;> decide
    have hpending := (mem_calls h.bounded).mp hc
    exact .inr ⟨hfamily, mem_start_ids h.bounded hpending⟩

theorem nextMap_cases (hnext : w.nextMap = some next) :
    ∃ family rest ids, w.ranging = some ⟨family :: rest, ids⟩ ∧
      (∀ id ∈ ids, w.state.shared.pending family id = none) ∧
      next = { w with ranging := some (.start w.state.shared rest) } := by
  unfold Watched.nextMap at hnext
  split at hnext
  · split_ifs at hnext with hgone
    cases hnext
    exact ⟨_, _, _, ‹_›, hgone, rfl⟩
  · split_ifs at hnext with hgone
    cases hnext
    exact ⟨_, _, _, ‹_›, hgone, rfl⟩
  · cases hnext

theorem Sound.nextMap (h : w.Sound) (hnext : w.nextMap = some next) : next.Sound := by
  obtain ⟨family, rest, ids, hranging, hgone, rfl⟩ := nextMap_cases hnext
  refine ⟨h.bounded, h.threads, h.loop, h.pending, fun r hr c hc => ?_⟩
  cases hr
  rcases h.pending c hc with hpending | hsettled
  · rcases h.ranged _ hranging c hc with hsettled | ⟨hfamily, hids⟩
    · exact .inl hsettled
    · right
      -- A call of this map that is still pending was among its ids, and they are gone.
      rcases List.mem_cons.mp hfamily with heq | hrest
      · have hnone := hgone c.2 (hids (by rw [heq]; rfl))
        rw [← heq] at hnone
        rw [hnone] at hpending
        cases hpending
      · exact ⟨hrest, mem_start_ids h.bounded hpending⟩
  · exact .inl hsettled

theorem Sound.withStream (h : w.Sound) (r : Reader) : { w with stream := r }.Sound :=
  ⟨h.bounded, h.threads, h.loop, h.pending, h.ranged⟩

end Watched

end MCache.Net.ClientConn

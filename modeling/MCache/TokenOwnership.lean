import MCache.PipelineTokens

/-!
# One owner for each pooled token

A call gives back what it took.  A pipeline gives back through `FlushWrite`,
`ReadResponses` and `Reset`, of which only `Reset` forgets the tokens.  The runs in
which every token has one owner are those in which the other two give nothing back
that a pool takes.
-/

namespace MCache.Net.Pooled

def bufferTokens (xs : List Payload) : Multiset Token := xs.map fun x => Token.buffer x.buf

def channelTokens (chs : List ℕ) : Multiset Token := chs.map Token.channel

def Pipeline.tokens (p : Pipeline) : Multiset Token := bufferTokens p.frames + channelTokens p.chs

def Call.held : Call → Multiset Token
  | .channel _ => 0
  | .payload _ ch => {.channel ch}
  | .encode ch x => {.buffer x.buf, .channel ch}
  | .write ch x buf => {.buffer buf, .buffer x.buf, .channel ch}
  | .putPayload ch x _ => {.buffer x.buf, .channel ch}
  | .wait ch => {.channel ch}
  | .putChannel ch => {.channel ch}

def Pipeline.held (p : Pipeline) : Stage → Multiset Token
  | .ready | .channel _ | .encode _ | .putPayloads _ | .read _ => p.tokens
  | .payload _ ch => .channel ch ::ₘ p.tokens
  | .write _ buf => .buffer buf ::ₘ p.tokens
  | .putFrames rest resets =>
    if resets then bufferTokens rest + channelTokens p.chs else p.tokens
  | .putChannels rest resets => if resets then channelTokens rest else p.tokens

def Owner.held : Owner → Multiset Token
  | .call c => c.held
  | .pipeline p stage => p.held stage

def State.held {n : ℕ} (s : State n) (p : Fin n) : Multiset Token := (s.owners p).elim 0 Owner.held

structure State.OneOwner {n : ℕ} (s : State n) : Prop where
  once : s.pools.pool.Nodup
  unused : ∀ p, Disjoint s.pools.pool (s.held p)

namespace Pools

variable {s : Pools}
variable {choice : Option Buffer}

theorem makeBuf_conserves (size : ℕ) :
    TokenPool.Conserves Token.number s (s.makeBuf size).1 0 {.buffer (s.makeBuf size).2} :=
  .make rfl

theorem putBuf_conserves (b : Buffer) :
    TokenPool.Conserves Token.number s (s.putBuf b) {.buffer b} 0 := by
  unfold putBuf
  split_ifs
  · exact .put
  · exact .of_le (Multiset.zero_le _)

theorem getBuf_conserves {size : ℕ} {result : Pools × Buffer}
    (h : s.getBuf size choice = some result) :
    TokenPool.Conserves Token.number s result.1 0 {.buffer result.2} := by
  unfold getBuf at h
  split_ifs at h
  · cases h
    exact makeBuf_conserves size
  · cases choice with
    | some b =>
      dsimp only at h
      split_ifs at h with hmem
      · cases h
        exact .take hmem
      · cases h
        exact ((TokenPool.Conserves.take hmem).trans .put).trans (makeBuf_conserves size)
    | none =>
      dsimp only at h
      split_ifs at h
      · cases h
        exact makeBuf_conserves 256
      · cases h
        exact ((makeBuf_conserves 256).trans .put).trans (makeBuf_conserves size)

theorem getChannel_conserves {choice : Option ℕ} {result : Pools × ℕ}
    (h : s.getChannel choice = some result) :
    TokenPool.Conserves Token.number s result.1 0 {.channel result.2} := by
  unfold getChannel at h
  cases choice with
  | some ch =>
    dsimp only at h
    split_ifs at h with hmem
    cases h
    exact .take hmem
  | none =>
    cases h
    exact .make rfl

theorem encodePayload_conserves {body : ℕ} {result : Pools × Payload}
    (h : s.encodePayload body choice = some result) :
    TokenPool.Conserves Token.number s result.1 0 {.buffer result.2.buf} := by
  obtain ⟨got, hgot, rfl⟩ := Option.map_eq_some_iff.mp h
  exact getBuf_conserves hgot

theorem frameBuf_conserves {x : Payload} {result : Pools × Buffer}
    (h : s.frameBuf x choice = some result) :
    TokenPool.Conserves Token.number s result.1 0 {.buffer result.2} := by
  unfold frameBuf at h
  split_ifs at h
  · exact getBuf_conserves h
  · cases h
    exact makeBuf_conserves _

theorem putFrameBuf_conserves (x : Payload) (buf : Buffer) :
    TokenPool.Conserves Token.number s (s.putFrameBuf x buf) {.buffer buf} 0 := by
  unfold putFrameBuf
  split_ifs
  · exact putBuf_conserves buf
  · exact .of_le (Multiset.zero_le _)

end Pools

theorem Call.step_conserves {s : Pools} {c : Call} {e : Event} {next : Pools × Option Call}
    (h : c.step s e = some next) :
    TokenPool.Conserves Token.number s next.1 c.held (next.2.elim 0 Call.held) := by
  unfold Call.step at h
  split at h
  case h_1 body choice =>
    obtain ⟨result, hresult, rfl⟩ := Option.map_eq_some_iff.mp h
    exact (Pools.getChannel_conserves hresult).gain _
  case h_2 body ch choice =>
    obtain ⟨result, hresult, rfl⟩ := Option.map_eq_some_iff.mp h
    exact (Pools.encodePayload_conserves hresult).gain _
  case h_3 ch x choice =>
    obtain ⟨result, hresult, rfl⟩ := Option.map_eq_some_iff.mp h
    exact (Pools.frameBuf_conserves hresult).gain _
  case h_4 ch x buf ok =>
    cases h
    exact (Pools.putFrameBuf_conserves x buf).lose {.buffer x.buf, .channel ch}
  case h_5 ch x ok =>
    cases h
    cases ok <;> exact (Pools.putBuf_conserves x.buf).lose {.channel ch}
  case h_6 | h_7 =>
    cases h
    exact .refl
  case h_8 ch =>
    cases h
    exact TokenPool.Conserves.put
  case h_9 => cases h

namespace Pipeline

variable {s : Pools} {p : Pipeline} {stage : Stage} {e : Event}
variable {next : Pools × Option (Pipeline × Stage)}

def LoopWithin (p : Pipeline) : Stage → Prop
  | .putPayloads rest | .putFrames rest _ => rest ⊆ p.frames
  | .putChannels rest _ => rest ⊆ p.chs
  | _ => True

structure Consistent (p : Pipeline) (stage : Stage) : Prop where
  payloads : p.payloads ⊆ p.frames
  loop : p.LoopWithin stage

def spares : Stage → Event → Bool
  | .putPayloads (x :: _), .put => 4096 < x.buf.cap
  | .putFrames (x :: _) false, .put => 4096 < x.buf.cap
  | .putChannels (_ :: _) false, .put => false
  | _, _ => true

theorem putBuf_of_lt {b : Buffer} (h : 4096 < b.cap) : s.putBuf b = s := if_neg h.not_ge

theorem operate_held {rest : Option (Pipeline × Stage)} (h : p.operate e = some rest) :
    rest.elim 0 (fun rest => rest.1.held rest.2) ≤ p.tokens := by
  cases e with
  | add closed body =>
    unfold operate at h
    dsimp only at h
    split_ifs at h <;> cases h <;> exact le_rfl
  | flushWrite closed =>
    unfold operate at h
    dsimp only at h
    split_ifs at h <;> cases h <;> exact le_rfl
  | readResponses =>
    unfold operate at h
    dsimp only at h
    split_ifs at h <;> cases h <;> exact le_rfl
  | reset =>
    unfold operate at h
    dsimp only at h
    split_ifs at h
    · cases h
      exact le_rfl
    · cases h
      exact Multiset.zero_le _
  | abandon =>
    cases h
    exact Multiset.zero_le _
  | _ => cases h

theorem tokens_snoc (x : Payload) (ch : ℕ) (payloads : List Payload) : Pipeline.tokens
        { p with frames := p.frames ++ [x], payloads := payloads, chs := p.chs ++ [ch] } =
      .buffer x.buf ::ₘ .channel ch ::ₘ p.tokens := by
  simp only [tokens, bufferTokens, channelTokens, List.map_append, List.map_cons,
    List.map_nil, ← Multiset.coe_add, Multiset.coe_singleton, ← Multiset.singleton_add]
  abel

theorem step_conserves (hspares : spares stage e = true) (h : p.step s stage e = some next) :
    TokenPool.Conserves Token.number s next.1 (p.held stage)
      (next.2.elim 0 fun rest => rest.1.held rest.2) := by
  unfold step at h
  split at h
  case h_1 =>
    obtain ⟨rest, hrest, rfl⟩ := Option.map_eq_some_iff.mp h
    exact .of_le (operate_held hrest)
  case h_2 body choice =>
    obtain ⟨result, hresult, rfl⟩ := Option.map_eq_some_iff.mp h
    exact (Pools.getChannel_conserves hresult).gain _
  case h_3 body ch choice =>
    obtain ⟨result, hresult, rfl⟩ := Option.map_eq_some_iff.mp h
    refine ((Pools.encodePayload_conserves hresult).gain _).drop (le_of_eq ?_)
    exact tokens_snoc _ _ _
  case h_4 x rest choice =>
    obtain ⟨result, hresult, rfl⟩ := Option.map_eq_some_iff.mp h
    exact (Pools.frameBuf_conserves hresult).gain _
  case h_5 | h_8 | h_9 | h_10 | h_11 =>
    cases h
    exact .refl
  case h_6 x rest buf ok =>
    cases h
    cases ok <;> exact (Pools.putFrameBuf_conserves x buf).lose p.tokens
  case h_7 x rest =>
    -- A large payload: `putBuf` leaves it to the garbage collector.
    cases h
    rw [putBuf_of_lt (of_decide_eq_true hspares)]
    exact .refl
  case h_12 x rest resets =>
    cases h
    cases resets with
    | false =>
      rw [putBuf_of_lt (of_decide_eq_true hspares)]
      exact .refl
    | true =>
      exact (Pools.putBuf_conserves x.buf).lose (bufferTokens rest + channelTokens p.chs)
  case h_13 resets =>
    cases h
    cases resets with
    | false => exact .refl
    | true => exact .of_le (Multiset.le_add_left _ _)
  case h_14 ch rest resets =>
    cases h
    cases resets with
    | false => cases hspares
    | true => exact TokenPool.Conserves.put.lose (channelTokens rest)
  case h_15 resets =>
    cases h
    cases resets with
    | false => exact .refl
    | true => exact .refl
  case h_16 => cases h

theorem mem_tokens_of_frame {x : Payload} (h : x ∈ p.frames) : .buffer x.buf ∈ p.tokens :=
  Multiset.mem_add.mpr (.inl (List.mem_map.mpr ⟨x, h, rfl⟩))

theorem mem_tokens_of_channel {ch : ℕ} (h : ch ∈ p.chs) : .channel ch ∈ p.tokens :=
  Multiset.mem_add.mpr (.inr (List.mem_map.mpr ⟨ch, h, rfl⟩))

theorem mem_putBuf {b : Buffer} (h : b.cap ≤ 4096) : .buffer b ∈ (s.putBuf b).pool := by
  rw [Pools.putBuf, if_pos h]
  exact Multiset.mem_cons_self _ _

theorem step_breaks (hp : p.Consistent stage) (hspares : spares stage e = false)
    (h : p.step s stage e = some next) :
    ∃ rest, next.2 = some rest ∧ ∃ t ∈ next.1.pool, t ∈ rest.1.held rest.2 := by
  unfold spares at hspares
  split at hspares
  case h_1 x rest =>
    cases h
    have hcap : x.buf.cap ≤ 4096 := not_lt.mp (of_decide_eq_false hspares)
    have hx : x ∈ p.frames := hp.loop List.mem_cons_self
    exact ⟨_, rfl, _, mem_putBuf hcap, mem_tokens_of_frame hx⟩
  case h_2 x rest =>
    cases h
    have hcap : x.buf.cap ≤ 4096 := not_lt.mp (of_decide_eq_false hspares)
    have hx : x ∈ p.frames := hp.loop List.mem_cons_self
    exact ⟨_, rfl, _, mem_putBuf hcap, mem_tokens_of_frame hx⟩
  case h_3 ch rest =>
    cases h
    have hch : ch ∈ p.chs := hp.loop List.mem_cons_self
    exact ⟨_, rfl, _, Multiset.mem_cons_self _ _, mem_tokens_of_channel hch⟩
  case h_4 => cases hspares

theorem operate_consistent (hp : p.payloads ⊆ p.frames) {rest : Pipeline × Stage}
    (h : p.operate e = some (some rest)) : rest.1.Consistent rest.2 := by
  cases e with
  | add closed body =>
    unfold operate at h
    dsimp only at h
    split_ifs at h <;> cases h <;> exact ⟨hp, trivial⟩
  | flushWrite closed =>
    unfold operate at h
    dsimp only at h
    split_ifs at h <;> cases h
    · exact ⟨hp, trivial⟩
    · exact ⟨hp, List.Subset.refl _⟩
    · exact ⟨hp, trivial⟩
    · exact ⟨hp, trivial⟩
  | readResponses =>
    unfold operate at h
    dsimp only at h
    split_ifs at h <;> cases h <;> exact ⟨hp, trivial⟩
  | reset =>
    unfold operate at h
    dsimp only at h
    split_ifs at h <;> cases h
    · exact ⟨hp, List.Subset.refl _⟩
    · exact ⟨List.Subset.refl _, trivial⟩
  | _ => cases h

theorem step_consistent (hp : p.Consistent stage) (h : p.step s stage e = some next)
    {rest : Pipeline × Stage} (hrest : next.2 = some rest) :
    rest.1.Consistent rest.2 := by
  have hpayloads := hp.payloads
  unfold step at h
  split at h
  case h_1 =>
    obtain ⟨result, hresult, rfl⟩ := Option.map_eq_some_iff.mp h
    cases hrest
    exact operate_consistent hpayloads hresult
  case h_2 | h_4 =>
    obtain ⟨result, hresult, rfl⟩ := Option.map_eq_some_iff.mp h
    cases hrest
    exact ⟨hpayloads, trivial⟩
  case h_3 =>
    obtain ⟨result, hresult, rfl⟩ := Option.map_eq_some_iff.mp h
    cases hrest
    refine ⟨List.append_subset.mpr ⟨?_, List.subset_append_right _ _⟩, trivial⟩
    exact List.Subset.trans hpayloads (List.subset_append_left _ _)
  case h_5 =>
    cases h
    cases hrest
    exact ⟨hpayloads, hpayloads⟩
  case h_6 x list buf ok =>
    cases h
    cases hrest
    cases ok
    · exact ⟨hpayloads, List.Subset.refl _⟩
    · exact ⟨hpayloads, trivial⟩
  case h_7 | h_12 | h_14 =>
    cases h
    cases hrest
    exact ⟨hpayloads, List.subset_of_cons_subset hp.loop⟩
  case h_8 =>
    cases h
    cases hrest
    exact ⟨List.nil_subset _, trivial⟩
  case h_9 =>
    cases h
    cases hrest
    exact ⟨hpayloads, trivial⟩
  case h_10 | h_11 | h_13 =>
    cases h
    cases hrest
    exact ⟨hpayloads, List.Subset.refl _⟩
  case h_15 resets =>
    cases h
    cases hrest
    cases resets
    · exact ⟨hpayloads, trivial⟩
    · exact ⟨List.Subset.refl _, trivial⟩
  case h_16 => cases h

end Pipeline

namespace State

variable {n : ℕ} {s next : State n} {a : Action n}

def spares (s : State n) (a : Action n) : Bool :=
  match s.owners a.owner with
  | some (.pipeline _ stage) => Pipeline.spares stage a.event
  | _ => true

structure Sound (s : State n) : Prop where
  linear : TokenPool.Linear Token.number s.pools s.held
  consistent : ∀ i p stage, s.owners i = some (.pipeline p stage) → p.Consistent stage

theorem Sound.oneOwner (h : s.Sound) : s.OneOwner where
  once := h.linear.pool
  unused := fun p => (Multiset.nodup_add.mp (h.linear.nodup p)).2.2

theorem sound_initial : (initial : State n).Sound where
  linear :=
    { pool := Multiset.nodup_zero
      nodup := fun _ => Multiset.nodup_zero
      apart := fun _ _ _ => disjoint_bot_left
      pool_lt := fun t ht => absurd ht (Multiset.notMem_zero t)
      held_lt := fun _ t ht => absurd ht (Multiset.notMem_zero t) }
  consistent := by
    intro i p stage hp
    cases hp

theorem held_update (s : State n) (pools : Pools) (i : Fin n) (rest : Option Owner) :
    held ⟨pools, Function.update s.owners i rest⟩ =
      Function.update s.held i (rest.elim 0 Owner.held) := by
  funext j
  by_cases hj : j = i
  · subst hj
    simp [held]
  · simp [held, hj]

theorem Sound.update (h : s.Sound) {i : Fin n} {pools : Pools} {rest : Option Owner}
    (hconserves : TokenPool.Conserves Token.number s.pools pools (s.held i)
      (rest.elim 0 Owner.held))
    (hrest : ∀ p stage, rest = some (.pipeline p stage) → p.Consistent stage) :
    Sound ⟨pools, Function.update s.owners i rest⟩ where
  linear := by
    rw [held_update]
    exact h.linear.step hconserves
  consistent := by
    intro j p stage hp
    rcases update_eq_some hp with ⟨-, hnew⟩ | ⟨-, hold⟩
    · exact hrest p stage hnew
    · exact h.consistent j p stage hold

theorem Sound.begin (h : s.Sound) {rest : Option Owner} (hbegin : Owner.begin a.event = some rest) :
    Sound { s with owners := Function.update s.owners a.owner rest } := by
  unfold Owner.begin at hbegin
  split at hbegin
  · split_ifs at hbegin <;> cases hbegin
    · exact h.update (.of_le (Multiset.zero_le _)) nofun
    · exact h.update (.of_le (Multiset.zero_le _)) nofun
  · cases hbegin
    refine h.update (.of_le (Multiset.zero_le _)) fun p stage hp => ?_
    cases hp
    exact ⟨List.Subset.refl _, trivial⟩
  · cases hbegin

theorem Sound.step (h : s.Sound) (hspares : s.spares a = true)
    (hstep : s.step a = some next) : next.Sound := by
  unfold State.step at hstep
  split at hstep
  case h_1 hidle =>
    obtain ⟨rest, hrest, rfl⟩ := Option.map_eq_some_iff.mp hstep
    exact h.begin hrest
  case h_2 owner howner =>
    obtain ⟨result, hresult, rfl⟩ := Option.map_eq_some_iff.mp hstep
    have hheld : s.held a.owner = owner.held := by simp [held, howner]
    cases owner with
    | call c =>
      obtain ⟨⟨pools, rest⟩, hinner, rfl⟩ := Option.map_eq_some_iff.mp hresult
      have hconserves := Call.step_conserves hinner
      refine h.update ?_ ?_
      · rw [hheld]
        cases rest <;> exact hconserves
      · intro p stage hp
        cases rest <;> cases hp
    | pipeline p stage =>
      obtain ⟨⟨pools, rest⟩, hinner, rfl⟩ := Option.map_eq_some_iff.mp hresult
      simp only [spares, howner] at hspares
      have hconserves := Pipeline.step_conserves hspares hinner
      refine h.update ?_ ?_
      · rw [hheld]
        cases rest <;> exact hconserves
      · intro p' stage' hp'
        obtain ⟨left, rfl, hleft⟩ := Option.map_eq_some_iff.mp hp'
        cases hleft
        exact Pipeline.step_consistent (h.consistent _ _ _ howner) hinner rfl

theorem Sound.breaks (h : s.Sound) (hspares : ¬ s.spares a = true)
    (hstep : s.step a = some next) : ¬ next.OneOwner := by
  intro howners
  unfold spares at hspares
  split at hspares
  case h_1 p stage howner =>
    simp only [State.step, howner] at hstep
    obtain ⟨result, hresult, rfl⟩ := Option.map_eq_some_iff.mp hstep
    obtain ⟨⟨pools, rest⟩, hinner, rfl⟩ := Option.map_eq_some_iff.mp hresult
    obtain ⟨left, rfl, t, hpool, hheld⟩ := Pipeline.step_breaks
      (h.consistent _ _ _ howner) (Bool.eq_false_of_not_eq_true hspares) hinner
    refine Multiset.disjoint_left.mp (howners.unused a.owner) hpool ?_
    simpa [held, Owner.held] using hheld
  case h_2 => exact hspares rfl

theorem pooled_tokens_one_owner_iff {actions : List (Action n)} {final : State n}
    (hrun : (clients n).runFrom .initial actions = some final) :
    (∀ before, before <+: actions → ∀ s,
        (clients n).runFrom .initial before = some s → s.OneOwner) ↔
      (clients n).runBy (fun s a => s.spares a) .initial actions = some final :=
  TransitionSystem.along_iff_of_breaks (fun _ h => Sound.oneOwner h)
    (fun _ _ _ h => h.step) (fun _ _ _ h => h.breaks) sound_initial hrun

def addOne : List (Action 3) :=
  [⟨0, .newPipeline⟩, ⟨0, .add false 10⟩, ⟨0, .getChannel none⟩, ⟨0, .getBuf none⟩]

def resetAndCall : List (Action 3) := [⟨0, .reset⟩, ⟨0, .put⟩, ⟨0, .next⟩, ⟨0, .put⟩, ⟨0, .next⟩,
    ⟨1, .call false 10⟩, ⟨1, .getChannel (some 0)⟩, ⟨1, .getBuf (some ⟨1, 256⟩)⟩]

theorem pooled_tokens_one_owner_iff_reset :
    ∃ final, (clients 3).runFrom .initial (addOne ++ resetAndCall) = some final ∧
      final.held 1 = {.buffer ⟨1, 256⟩, .channel 0} ∧ final.OneOwner := by
  refine ⟨_, rfl, rfl, ?_⟩
  have hall := (@pooled_tokens_one_owner_iff 3 (addOne ++ resetAndCall) _ rfl).mpr rfl
  exact hall _ List.prefix_rfl _ rfl

def flushAndRead : List (Action 3) :=
  [⟨0, .flushWrite false⟩, ⟨0, .getBuf none⟩, ⟨0, .write true⟩, ⟨0, .next⟩,
    ⟨0, .put⟩, ⟨0, .next⟩, ⟨0, .readResponses⟩, ⟨0, .receive⟩, ⟨0, .next⟩,
    ⟨0, .put⟩, ⟨0, .next⟩, ⟨0, .put⟩, ⟨0, .next⟩]

def twoCalls : List (Action 3) :=
  [⟨1, .call false 10⟩, ⟨1, .getChannel none⟩, ⟨1, .getBuf (some ⟨1, 256⟩)⟩,
    ⟨2, .call false 10⟩, ⟨2, .getChannel none⟩, ⟨2, .getBuf (some ⟨1, 256⟩)⟩]

theorem buffer_in_pool_twice :
    (∃ s, (clients 3).runFrom .initial (addOne ++ flushAndRead) = some s ∧
        s.pools.pool.count (.buffer ⟨1, 256⟩) = 2) ∧
      ∃ s, (clients 3).runFrom .initial (addOne ++ flushAndRead ++ twoCalls) = some s ∧
        Token.buffer ⟨1, 256⟩ ∈ s.held 1 ∧ Token.buffer ⟨1, 256⟩ ∈ s.held 2 :=
  ⟨⟨_, rfl, by decide⟩, _, rfl, by decide, by decide⟩

end State

end MCache.Net.Pooled

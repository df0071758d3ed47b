import MCache.ClientChannels

/-!
# Who owns a response channel

A channel that a call has taken from the pool is owned by its stream id until
the call gives it back.  Where `readLoop` never holds a channel that is being
drained, what is in a channel, and what `readLoop` is about to send to it, was
decoded from a frame of its owner.
-/

namespace MCache.Net.ClientConn

variable {w : World} {family : Family}

/-! ## Owners -/

structure World where
  owner : ℕ → Option (Family × ℕ)
  shared : Shared
  loop : Loop

namespace World

def Ended (w : World) : Prop := w.shared.closed = true ∨ ∃ closer, w.loop = .closing closer

structure Drained (w : World) (family : Family) (x : Ticket) : Prop where
  pending : w.shared.pending family x.1 = none
  buffer : ∀ f resp, w.shared.buffer x.2 ≠ some (.decoded f resp)
  loop : ∀ f resp, w.loop ≠ .sending x.2 f resp

structure Sound (w : World) : Prop where
  pool_free : ∀ x ∈ w.shared.pool, w.owner x.2 = none
  pool_nodup : (w.shared.pool.map Prod.snd).Nodup
  pool_lt : ∀ x ∈ w.shared.pool, x.2 < w.shared.fresh
  owner_lt : ∀ ch o, w.owner ch = some o → ch < w.shared.fresh
  decoded : ∀ ch f resp, w.shared.buffer ch = some (.decoded f resp) →
    ∃ family, w.owner ch = some (family, f.streamID.toNat)
  made : ∀ ch, w.shared.buffer ch = some .made → w.Ended
  pending : ∀ family id ch, w.shared.pending family id = some ch → w.owner ch = some (family, id)
  loop : ∀ ch f resp, w.loop = .sending ch f resp →
    ∃ family, w.owner ch = some (family, f.streamID.toNat)

structure Undisturbed (mine : ℕ → Prop) (w next : World) : Prop where
  owner : ∀ ch family id, ¬ mine id → w.owner ch = some (family, id) →
    next.owner ch = some (family, id)
  ids : w.shared.nextStreamID ≤ next.shared.nextStreamID
  pending : ∀ family id, ¬ mine id → w.shared.pending family id = none →
    next.shared.pending family id = none
  drained : ∀ family x, ¬ mine x.1 → w.owner x.2 = some (family, x.1) →
    w.Drained family x → next.Drained family x
  ended : w.Ended → next.Ended

end World

@[simp] theorem Shared.withPending_pending (sh : Shared) (family other : Family)
    (id id' : ℕ) (ch : Option ℕ) :
    (sh.withPending family id ch).pending other id' =
      if other = family ∧ id' = id then ch else sh.pending other id' := by
  by_cases hfamily : other = family
  · subst hfamily
    by_cases hid : id' = id <;> simp [Shared.withPending, hid]
  · simp [Shared.withPending, hfamily]

@[simp] theorem Shared.withBuffer_buffer (sh : Shared) (ch ch' : ℕ) (m : Option Message) :
    (sh.withBuffer ch m).buffer ch' = if ch' = ch then m else sh.buffer ch' := by
  by_cases hch : ch' = ch <;> simp [Shared.withBuffer, hch]

namespace World

variable {w : World} {mine : ℕ → Prop} {family : Family} {id ch : ℕ}

/-! ## Pending maps -/

theorem Sound.register (h : w.Sound) (howner : w.owner ch = some (family, id)) :
    Sound { w with shared := w.shared.withPending family id (some ch) } := by
  refine { h with pending := ?_ }
  intro family' id' ch' hpending
  rw [Shared.withPending_pending] at hpending
  split_ifs at hpending with hsame
  · cases hpending
    rw [hsame.1, hsame.2]
    exact howner
  · exact h.pending _ _ _ hpending

theorem undisturbed_register (hmine : mine id) :
    Undisturbed mine w { w with shared := w.shared.withPending family id (some ch) } := by
  have hpending : ∀ family' id', ¬ mine id' → w.shared.pending family' id' = none →
      (w.shared.withPending family id (some ch)).pending family' id' = none := by
    intro family' id' hother hnone
    rw [Shared.withPending_pending]
    split_ifs with hsame
    · exact (hother (hsame.2 ▸ hmine)).elim
    · exact hnone
  exact ⟨fun _ _ _ _ howner => howner, le_rfl, hpending, fun _ x hother _ hdrained =>
      ⟨hpending _ x.1 hother hdrained.pending, hdrained.buffer, hdrained.loop⟩,
    fun hended => hended⟩

theorem Sound.unregister (h : w.Sound) :
    Sound { w with shared := w.shared.withPending family id none } := by
  refine { h with pending := ?_ }
  intro family' id' ch' hpending
  rw [Shared.withPending_pending] at hpending
  split_ifs at hpending
  exact h.pending _ _ _ hpending

theorem undisturbed_unregister :
    Undisturbed mine w { w with shared := w.shared.withPending family id none } := by
  have hpending : ∀ family' id', w.shared.pending family' id' = none →
      (w.shared.withPending family id none).pending family' id' = none := by
    intro family' id' hnone
    rw [Shared.withPending_pending]
    split_ifs <;> first | rfl | exact hnone
  exact ⟨fun _ _ _ _ howner => howner, le_rfl, fun _ _ _ => hpending _ _, fun _ _ _ _ hdrained =>
      ⟨hpending _ _ hdrained.pending, hdrained.buffer, hdrained.loop⟩,
    fun hended => hended⟩

/-! ## Channels -/

theorem Sound.empty (h : w.Sound) : Sound { w with shared := w.shared.withBuffer ch none } := by
  have hbuffer : ∀ ch' m, (w.shared.withBuffer ch none).buffer ch' = some m →
      w.shared.buffer ch' = some m := by
    intro ch' m hm
    rw [Shared.withBuffer_buffer] at hm
    split_ifs at hm
    exact hm
  exact { h with
    decoded := fun ch' f resp hm => h.decoded ch' f resp (hbuffer _ _ hm)
    made := fun ch' hm => h.made ch' (hbuffer _ _ hm) }

theorem undisturbed_empty :
    Undisturbed mine w { w with shared := w.shared.withBuffer ch none } := by
  refine ⟨fun _ _ _ _ howner => howner, le_rfl, fun _ _ _ hnone => hnone,
    fun _ x _ _ hdrained => ⟨hdrained.pending, ?_, hdrained.loop⟩,
    fun hended => hended⟩
  intro f resp
  show (w.shared.withBuffer ch none).buffer x.2 ≠ _
  rw [Shared.withBuffer_buffer]
  split_ifs
  · exact nofun
  · exact hdrained.buffer f resp

theorem trySend_buffer {sh : Shared} {m m' : Message} {ch' : ℕ}
    (h : (sh.trySend ch m).buffer ch' = some m') :
    sh.buffer ch' = some m' ∨ ch' = ch ∧ m' = m := by
  unfold Shared.trySend at h
  split at h
  · rw [Shared.withBuffer_buffer] at h
    split_ifs at h with hch
    · cases h
      exact .inr ⟨hch, rfl⟩
    · exact .inl h
  · exact .inl h

theorem trySend_eq (sh : Shared) (ch : ℕ) (m : Message) :
    sh.trySend ch m = { sh with buffer := (sh.trySend ch m).buffer } := by
  unfold Shared.trySend
  split <;> rfl

theorem Sound.sendMade (h : w.Sound) (hended : w.Ended) :
    Sound { w with shared := w.shared.trySend ch .made } := by
  rw [trySend_eq]
  refine { h with decoded := fun ch' f resp hm => ?_, made := fun _ _ => hended }
  rcases trySend_buffer hm with hm | ⟨-, hm⟩
  · exact h.decoded ch' f resp hm
  · cases hm

theorem undisturbed_sendMade :
    Undisturbed mine w { w with shared := w.shared.trySend ch .made } := by
  rw [trySend_eq]
  refine ⟨fun _ _ _ _ howner => howner, le_rfl, fun _ _ _ hnone => hnone,
    fun _ x _ _ hdrained => ⟨hdrained.pending, fun f resp hm => ?_, hdrained.loop⟩,
    fun hended => hended⟩
  rcases trySend_buffer hm with hm | ⟨-, hm⟩
  · exact hdrained.buffer f resp hm
  · cases hm

/-! ## The loop -/

section Loop

variable {f : Frame} {resp : ClientResponse} {loop : Loop}

theorem Sound.setLoop (h : w.Sound) (hsending : ∀ ch f resp, loop ≠ .sending ch f resp)
    (hended : w.Ended → Ended { w with loop := loop }) :
    Sound { w with loop := loop } :=
  { h with
    made := fun ch hm => hended (h.made ch hm)
    loop := fun ch f resp hloop => (hsending ch f resp hloop).elim }

theorem undisturbed_setLoop (hsending : ∀ ch f resp, loop ≠ .sending ch f resp)
    (hended : w.Ended → Ended { w with loop := loop }) :
    Undisturbed mine w { w with loop := loop } :=
  ⟨fun _ _ _ _ howner => howner, le_rfl, fun _ _ _ hnone => hnone,
    fun _ x _ _ hdrained => ⟨hdrained.pending, hdrained.buffer, hsending x.2⟩, hended⟩

theorem Sound.load (h : w.Sound) (hloop : w.loop = .loading f resp)
    (hpending : w.shared.pending resp.family f.streamID.toNat = some ch) :
    Sound { w with loop := .sending ch f resp } ∧
      Undisturbed mine w { w with loop := .sending ch f resp } := by
  have hended : w.Ended → Ended { w with loop := .sending ch f resp } := by
    rintro (hclosed | ⟨closer, hclosing⟩)
    · exact .inl hclosed
    · rw [hloop] at hclosing
      cases hclosing
  refine ⟨{ h with made := fun ch' hm => hended (h.made ch' hm), loop := ?_ },
    ⟨fun _ _ _ _ howner => howner, le_rfl, fun _ _ _ hnone => hnone,
      fun family x _ howner hdrained => ⟨hdrained.pending, hdrained.buffer, ?_⟩, hended⟩⟩
  · rintro _ _ _ ⟨⟩
    exact ⟨_, h.pending _ _ _ hpending⟩
  · rintro f' resp' hsame
    injection hsame with hch
    have hother := h.pending _ _ _ hpending
    rw [hch, howner] at hother
    injection hother with hother
    injection hother with hfamily hid
    rw [← hfamily, ← hid, hdrained.pending] at hpending
    cases hpending

theorem Sound.send (h : w.Sound) (hloop : w.loop = .sending ch f resp) :
    Sound ⟨w.owner, w.shared.trySend ch (.decoded f resp), .reading⟩ ∧
      Undisturbed mine w ⟨w.owner, w.shared.trySend ch (.decoded f resp), .reading⟩ := by
  have hended : w.Ended → w.shared.closed = true := by
    rintro (hclosed | ⟨closer, hclosing⟩)
    · exact hclosed
    · rw [hloop] at hclosing
      cases hclosing
  rw [trySend_eq]
  constructor
  · refine { h with decoded := ?_, made := ?_, loop := nofun }
    · intro ch' f' resp' hm
      rcases trySend_buffer hm with hm | ⟨hch, hsent⟩
      · exact h.decoded ch' f' resp' hm
      · cases hsent
        exact h.loop _ _ _ (hch ▸ hloop)
    · intro ch' hm
      rcases trySend_buffer hm with hm | ⟨-, hm⟩
      · exact .inl (hended (h.made ch' hm))
      · cases hm
  · refine ⟨fun _ _ _ _ howner => howner, le_rfl, fun _ _ _ hnone => hnone,
      fun _ x _ _ hdrained => ⟨hdrained.pending, fun f' resp' hm => ?_, nofun⟩,
      fun hclosed => .inl (hended hclosed)⟩
    rcases trySend_buffer hm with hm | ⟨hch, -⟩
    · exact hdrained.buffer f' resp' hm
    · exact hdrained.loop f resp (hch ▸ hloop)

end Loop

/-! ## The pools -/

theorem Sound.take (h : w.Sound) {sh : Shared} (hfree : w.owner ch = none)
    (hch : ch < sh.fresh) (hfresh : w.shared.fresh ≤ sh.fresh)
    (hpool : sh.pool.Sublist w.shared.pool) (hnotin : ∀ x ∈ sh.pool, x.2 ≠ ch)
    (hclosed : sh.closed = w.shared.closed) (hpending : sh.pending = w.shared.pending)
    (hbuffer : sh.buffer = w.shared.buffer)
    (hids : sh.nextStreamID = w.shared.nextStreamID) :
    Sound ⟨Function.update w.owner ch (some (family, id)), sh, w.loop⟩ ∧
      Undisturbed mine w ⟨Function.update w.owner ch (some (family, id)), sh, w.loop⟩ := by
  have howned : ∀ ch' o, w.owner ch' = some o →
      Function.update w.owner ch (some (family, id)) ch' = some o := by
    intro ch' o howner
    rw [Function.update_of_ne]
    · exact howner
    · rintro rfl
      rw [hfree] at howner
      cases howner
  have hended : w.Ended → Ended ⟨Function.update w.owner ch (some (family, id)), sh, w.loop⟩ := by
    rintro (h | h)
    · exact .inl (hclosed ▸ h)
    · exact .inr h
  constructor
  · constructor
    case pool_free =>
      intro x hx
      simpa [Function.update_of_ne (hnotin x hx)] using h.pool_free x (hpool.subset hx)
    case pool_nodup => exact h.pool_nodup.sublist (hpool.map _)
    case pool_lt => exact fun x hx => (h.pool_lt x (hpool.subset hx)).trans_le hfresh
    case owner_lt =>
      intro ch' o howner
      by_cases hsame : ch' = ch
      · exact hsame ▸ hch
      · refine (h.owner_lt ch' o ?_).trans_le hfresh
        rw [← howner]
        exact (Function.update_of_ne hsame _ _).symm
    case decoded =>
      intro ch' f resp hm
      obtain ⟨family', howner⟩ := h.decoded ch' f resp (hbuffer ▸ hm)
      exact ⟨family', howned ch' _ howner⟩
    case made => exact fun ch' hm => hended (h.made ch' (hbuffer ▸ hm))
    case pending =>
      exact fun family' id' ch' hentry =>
        howned ch' _ (h.pending family' id' ch' (hpending ▸ hentry))
    case loop =>
      intro ch' f resp hloop
      obtain ⟨family', howner⟩ := h.loop ch' f resp hloop
      exact ⟨family', howned ch' _ howner⟩
  · exact ⟨fun ch' family' id' _ howner => howned ch' _ howner, hids.ge,
      fun _ _ _ hnone => hpending ▸ hnone,
      fun _ _ _ _ hdrained =>
        ⟨hpending ▸ hdrained.pending, hbuffer ▸ hdrained.buffer, hdrained.loop⟩,
      hended⟩

theorem Sound.getChannel (h : w.Sound) (mine : ℕ → Prop) (id : ℕ)
    {index : Option ℕ} {result : Shared × ℕ}
    (hresult : w.shared.getChannel family index = some result) :
    (Sound ⟨Function.update w.owner result.2 (some (family, id)), result.1, w.loop⟩ ∧
      Undisturbed mine w ⟨Function.update w.owner result.2 (some (family, id)), result.1, w.loop⟩) ∧
      result.1.nextStreamID = w.shared.nextStreamID ∧ w.owner result.2 = none := by
  cases index with
  | none =>
    cases hresult
    have hfree : w.owner w.shared.fresh = none := by
      by_contra hsome
      obtain ⟨o, ho⟩ := Option.ne_none_iff_exists'.mp hsome
      exact (h.owner_lt _ o ho).ne rfl
    exact ⟨h.take hfree (Nat.lt_succ_self _) (Nat.le_succ _) (List.Sublist.refl _)
      (fun x hx => (h.pool_lt x hx).ne) rfl rfl rfl rfl, rfl, hfree⟩
  | some i =>
    unfold Shared.getChannel at hresult
    dsimp only at hresult
    split at hresult
    case h_1 other ch hget =>
      split_ifs at hresult
      cases hresult
      obtain ⟨hlt, hget⟩ := List.getElem?_eq_some_iff.mp hget
      have hperm := List.getElem_cons_eraseIdx_perm hlt
      have hmem : (other, ch) ∈ w.shared.pool := hget ▸ List.getElem_mem hlt
      have hnodup := (hperm.map Prod.snd).nodup_iff.mpr h.pool_nodup
      rw [hget, List.map_cons, List.nodup_cons] at hnodup
      have hnotin : ∀ x ∈ w.shared.pool.eraseIdx i, x.2 ≠ ch := by
        intro x hx heq
        exact hnodup.1 (List.mem_map.mpr ⟨x, hx, heq⟩)
      have hfree := h.pool_free _ hmem
      exact ⟨h.take hfree (h.pool_lt _ hmem) le_rfl (List.eraseIdx_sublist _ _) hnotin
        rfl rfl rfl rfl, rfl, hfree⟩
    case h_2 => cases hresult

theorem Sound.give (h : w.Sound) {x : Ticket} (howner : w.owner x.2 = some (family, x.1))
    (hdrained : w.Drained family x) (hmine : mine x.1) :
    Sound ⟨Function.update w.owner x.2 none,
        { w.shared with pool := w.shared.pool ++ [(family, x.2)] }, w.loop⟩ ∧
      Undisturbed mine w ⟨Function.update w.owner x.2 none,
        { w.shared with pool := w.shared.pool ++ [(family, x.2)] }, w.loop⟩ := by
  have hne : ∀ y ∈ w.shared.pool, y.2 ≠ x.2 := by
    intro y hy heq
    have hfree := h.pool_free y hy
    rw [heq, howner] at hfree
    cases hfree
  constructor
  · constructor
    case pool_free =>
      intro y hy
      rcases List.mem_append.mp hy with hy | hy
      · exact (Function.update_of_ne (hne y hy) _ _).trans (h.pool_free y hy)
      · rw [List.mem_singleton.mp hy]
        exact Function.update_self _ _ _
    case pool_nodup =>
      rw [List.map_append]
      refine h.pool_nodup.append (List.nodup_singleton _) ?_
      intro ch hch hlast
      obtain ⟨y, hy, rfl⟩ := List.mem_map.mp hch
      exact hne y hy (List.mem_singleton.mp hlast)
    case pool_lt =>
      intro y hy
      rcases List.mem_append.mp hy with hy | hy
      · exact h.pool_lt y hy
      · rw [List.mem_singleton.mp hy]
        exact h.owner_lt _ _ howner
    case owner_lt =>
      intro ch o ho
      by_cases hsame : ch = x.2
      · subst hsame
        exact h.owner_lt _ _ howner
      · refine h.owner_lt ch o ?_
        rw [← ho]
        exact (Function.update_of_ne hsame _ _).symm
    case decoded =>
      intro ch f resp hm
      obtain ⟨family', ho⟩ := h.decoded ch f resp hm
      refine ⟨family', (Function.update_of_ne ?_ _ _).trans ho⟩
      rintro rfl
      exact hdrained.buffer f resp hm
    case made => exact h.made
    case pending =>
      intro family' id' ch hentry
      have ho := h.pending family' id' ch hentry
      refine (Function.update_of_ne ?_ _ _).trans ho
      rintro rfl
      cases howner.symm.trans ho
      rw [hdrained.pending] at hentry
      cases hentry
    case loop =>
      intro ch f resp hloop
      obtain ⟨family', ho⟩ := h.loop ch f resp hloop
      refine ⟨family', (Function.update_of_ne ?_ _ _).trans ho⟩
      rintro rfl
      exact hdrained.loop f resp hloop
  · refine ⟨fun ch family' id' hother ho => ?_, le_rfl, fun _ _ _ hnone => hnone,
      fun _ _ _ _ hdrained => ⟨hdrained.pending, hdrained.buffer, hdrained.loop⟩,
      fun hended => hended⟩
    refine (Function.update_of_ne ?_ _ _).trans ho
    rintro rfl
    cases howner.symm.trans ho
    exact hother hmine

/-! ## The other fields -/

theorem Undisturbed.refl (mine : ℕ → Prop) (w : World) : Undisturbed mine w w :=
  ⟨fun _ _ _ _ howner => howner, le_rfl, fun _ _ _ hnone => hnone,
    fun _ _ _ _ hdrained => hdrained, fun hended => hended⟩

theorem Sound.close (h : w.Sound) : Sound { w with shared := { w.shared with closed := true } } ∧
      Undisturbed mine w { w with shared := { w.shared with closed := true } } :=
  ⟨{ h with made := fun _ _ => .inl rfl },
    fun _ _ _ _ howner => howner, le_rfl, fun _ _ _ hnone => hnone,
    fun _ _ _ _ hdrained => ⟨hdrained.pending, hdrained.buffer, hdrained.loop⟩,
    fun _ => .inl rfl⟩

theorem Sound.newID (h : w.Sound) (mine : ℕ → Prop) {result : Shared × ℕ}
    (hresult : w.shared.newID = some result) :
    (Sound { w with shared := result.1 } ∧ Undisturbed mine w { w with shared := result.1 }) ∧
      result.2 = w.shared.nextStreamID + 1 ∧ result.1.nextStreamID = result.2 := by
  unfold Shared.newID at hresult
  split_ifs at hresult
  cases hresult
  exact ⟨⟨{ h with }, fun _ _ _ _ howner => howner, Nat.le_succ _, fun _ _ _ hnone => hnone,
    fun _ _ _ _ hdrained => ⟨hdrained.pending, hdrained.buffer, hdrained.loop⟩,
    fun hended => hended⟩, rfl, rfl⟩

def Gets (w : World) (x : ℕ × Message) : Prop :=
  match x.2 with
  | .decoded f _ => f.streamID.toNat = x.1
  | .made => w.Ended

theorem Sound.gets (h : w.Sound) {m : Message} (howner : w.owner ch = some (family, id))
    (hm : w.shared.buffer ch = some m) : w.Gets (id, m) := by
  cases m with
  | decoded f resp =>
    obtain ⟨family', hframe⟩ := h.decoded ch f resp hm
    cases howner.symm.trans hframe
    rfl
  | made => exact h.made ch hm

end World

/-! ## Tickets -/

structure Backed (w : World) (family : Family) (tickets : List Ticket) : Prop where
  owner : ∀ x ∈ tickets, w.owner x.2 = some (family, x.1)
  nodup : (tickets.map Prod.fst).Nodup
  le : ∀ x ∈ tickets, x.1 ≤ w.shared.nextStreamID

theorem backed_nil (w : World) (family : Family) : Backed w family [] :=
  ⟨nofun, List.nodup_nil, nofun⟩

theorem Backed.mono {next : World} {mine : ℕ → Prop} {tickets : List Ticket}
    (h : Backed w family tickets) (hothers : w.Undisturbed mine next)
    (hmine : ∀ x ∈ tickets, ¬ mine x.1) : Backed next family tickets where
  owner := fun x hx => hothers.owner x.2 family x.1 (hmine x hx) (h.owner x hx)
  nodup := h.nodup
  le := fun x hx => (h.le x hx).trans hothers.ids

theorem Backed.snoc {tickets : List Ticket} {id ch : ℕ} (h : Backed w family tickets)
    (howner : w.owner ch = some (family, id)) (hnew : id ∉ tickets.map Prod.fst)
    (hle : id ≤ w.shared.nextStreamID) : Backed w family (tickets ++ [(id, ch)]) := by
  constructor
  · intro x hx
    rcases List.mem_append.mp hx with hx | hx
    · exact h.owner x hx
    · cases List.mem_singleton.mp hx
      exact howner
  · rw [List.map_append]
    refine h.nodup.append (List.nodup_singleton _) fun other hother hlast => hnew ?_
    cases List.mem_singleton.mp hlast
    exact hother
  · intro x hx
    rcases List.mem_append.mp hx with hx | hx
    · exact h.le x hx
    · cases List.mem_singleton.mp hx
      exact hle

theorem Backed.tail {x : Ticket} {rest : List Ticket} (h : Backed w family (x :: rest)) :
    Backed w family rest where
  owner := fun y hy => h.owner y (List.mem_cons_of_mem _ hy)
  nodup := (List.nodup_cons.mp h.nodup).2
  le := fun y hy => h.le y (List.mem_cons_of_mem _ hy)

namespace Task

def live (t : Task) : List Ticket :=
  match t.stage with
  | .ready => if t.held then t.tickets else []
  | .store id ch => t.tickets ++ [(id, ch)]
  | .delete rest | .drain rest | .put rest => rest
  | .get _ | .write | .wait | .read _ => t.tickets

def ids (t : Task) : List ℕ :=
  match t.stage with
  | .get id => t.live.map Prod.fst ++ [id]
  | _ => t.live.map Prod.fst

def Returning (t : Task) : Prop := t.pipeline = true → t.resets = true ∨ t.written = true

def StageSound (w : World) (t : Task) : Prop :=
  match t.stage with
  | .ready => t.held = false → t.written = true
  | .get id =>
    t.held = true ∧ id ∉ t.tickets.map Prod.fst ∧ id ≤ w.shared.nextStreamID
  | .store _ _ => t.held = true
  | .write | .wait => t.held = true ∧ t.pipeline = false
  | .read rest =>
    t.held = true ∧ t.written = true ∧ ∀ x ∈ rest, x ∈ t.tickets
  | .delete _ => t.Returning
  | .drain rest =>
    t.Returning ∧ ∀ x ∈ rest.head?, w.shared.pending t.family x.1 = none
  | .put rest => t.Returning ∧ ∀ x ∈ rest.head?, w.Drained t.family x

structure Sound (w : World) (t : Task) : Prop where
  live : Backed w t.family t.live
  stage : t.StageSound w

variable {w next : World} {mine : ℕ → Prop} {t : Task}

theorem mem_ids_of_live {x : Ticket} (h : x ∈ t.live) : x.1 ∈ t.ids := by
  have hmem := List.mem_map_of_mem (f := Prod.fst) h
  unfold ids
  split
  · exact List.mem_append_left _ hmem
  · exact hmem

theorem Sound.ids_le (h : t.Sound w) : ∀ id ∈ t.ids, id ≤ w.shared.nextStreamID := by
  intro id hid
  have hlive : id ∈ t.live.map Prod.fst → id ≤ w.shared.nextStreamID := by
    intro hmem
    obtain ⟨x, hx, rfl⟩ := List.mem_map.mp hmem
    exact h.live.le x hx
  have hstage := h.stage
  unfold ids at hid
  unfold StageSound at hstage
  split at hid
  case h_1 hget =>
    rw [hget] at hstage
    rcases List.mem_append.mp hid with hid | hid
    · exact hlive hid
    · exact List.mem_singleton.mp hid ▸ hstage.2.2
  case h_2 => exact hlive hid

theorem Sound.mono (h : t.Sound w) (hothers : w.Undisturbed mine next)
    (hmine : ∀ id ∈ t.ids, ¬ mine id) : t.Sound next := by
  have hlive : ∀ x ∈ t.live, ¬ mine x.1 := fun x hx => hmine x.1 (mem_ids_of_live hx)
  refine ⟨h.live.mono hothers hlive, ?_⟩
  have hstage := h.stage
  have howner := h.live.owner
  obtain ⟨family, pipeline, tickets, stage, written, held, resets⟩ := t
  cases stage with
  | get id => exact ⟨hstage.1, hstage.2.1, hstage.2.2.trans hothers.ids⟩
  | drain rest =>
    refine ⟨hstage.1, fun x hx => ?_⟩
    have hmem := List.mem_of_mem_head? hx
    exact hothers.pending _ _ (hlive x hmem) (hstage.2 x hx)
  | put rest =>
    refine ⟨hstage.1, fun x hx => ?_⟩
    have hmem := List.mem_of_mem_head? hx
    exact hothers.drained _ x (hlive x hmem) (howner x hmem) (hstage.2 x hx)
  | _ => exact hstage

/-! ## Steps of tasks -/

structure Kept (mine : ℕ → Prop) (w next : World) (rest : Option Task) : Prop where
  sound : next.Sound
  others : w.Undisturbed mine next
  task : ∀ u, rest = some u → u.Sound next ∧ ∀ id ∈ u.ids, mine id

def Owns (w : World) (t : Task) (id : ℕ) : Prop := id ∈ t.ids ∨ w.shared.nextStreamID < id

theorem Kept.finish (hw : next.Sound ∧ w.Undisturbed mine next) (h : t.Returning) :
    Kept mine w next t.finish := by
  refine ⟨hw.1, hw.2, fun u hu => ?_⟩
  unfold Task.finish at hu
  split_ifs at hu with hpipeline hresets
  · cases hu
    exact ⟨⟨backed_nil _ _, nofun⟩, nofun⟩
  · cases hu
    have hwritten : t.written = true := (h (by simpa using hpipeline)).resolve_left hresets
    exact ⟨⟨backed_nil _ _, fun _ => hwritten⟩, nofun⟩

theorem Kept.cleanup (hw : next.Sound ∧ w.Undisturbed mine next) (h : t.Returning)
    (hbacked : Backed next t.family t.tickets) (hmine : ∀ x ∈ t.tickets, mine x.1) :
    Kept mine w next t.cleanup := by
  unfold Task.cleanup
  split_ifs
  · exact Kept.finish hw h
  · refine ⟨hw.1, hw.2, fun u hu => ?_⟩
    cases hu
    refine ⟨⟨hbacked, h⟩, fun id hid => ?_⟩
    obtain ⟨x, hx, rfl⟩ := List.mem_map.mp hid
    exact hmine x hx

theorem Kept.continue (hw : next.Sound ∧ w.Undisturbed mine next) {u : Task}
    (hlive : Backed next u.family u.live) (hstage : u.StageSound next)
    (hmine : ∀ id ∈ u.ids, mine id) : Kept mine w next (some u) := by
  refine ⟨hw.1, hw.2, fun v hv => ?_⟩
  cases hv
  exact ⟨⟨hlive, hstage⟩, hmine⟩

section Steps

variable (h : t.Sound w) (hw : w.Sound)
variable {x : Ticket} {rest : List Ticket} {next : Shared × Option Task}
include h hw

theorem Sound.get {id : ℕ} (hstage : t.stage = .get id) {index : Option ℕ}
    {result : Shared × ℕ}
    (hresult : w.shared.getChannel t.family index = some result) :
    Kept (t.Owns w) w ⟨Function.update w.owner result.2 (some (t.family, id)), result.1, w.loop⟩
      (some { t with stage := .store id result.2 }) := by
  obtain ⟨family, pipeline, tickets, stage, written, held, resets⟩ := t
  cases hstage
  obtain ⟨hlive, hheld, hnew, hle⟩ := h
  obtain ⟨⟨-, hothers⟩, hids, -⟩ := hw.getChannel (fun _ => False) id hresult
  refine Kept.continue (hw.getChannel _ id hresult).1 ?_ hheld fun id' hid => ?_
  · exact (hlive.mono hothers fun _ _ => nofun).snoc (Function.update_self _ _ _) hnew (hids ▸ hle)
  · refine .inl ?_
    simpa [ids, Task.live] using hid

theorem Sound.store {id ch : ℕ} (hstage : t.stage = .store id ch) :
    Kept (t.Owns w) w { w with shared := w.shared.withPending t.family id (some ch) }
      (some { t with
        tickets := t.tickets ++ [(id, ch)]
        stage := if t.pipeline then .ready else .write }) := by
  obtain ⟨family, pipeline, tickets, stage, written, held, resets⟩ := t
  cases hstage
  obtain ⟨hlive, hheld⟩ := h
  cases (hheld : held = true)
  have hmem : (id, ch) ∈ tickets ++ [(id, ch)] := by simp
  have hmine : Task.Owns w ⟨family, pipeline, tickets, .store id ch, written, true, resets⟩ id :=
    .inl (mem_ids_of_live (x := (id, ch)) hmem)
  have hnext := hw.register (hlive.owner _ hmem)
  cases pipeline with
  | true =>
    exact Kept.continue ⟨hnext, World.undisturbed_register hmine⟩
      ⟨hlive.owner, hlive.nodup, hlive.le⟩ nofun fun _ hid => .inl hid
  | false =>
    exact Kept.continue ⟨hnext, World.undisturbed_register hmine⟩
      ⟨hlive.owner, hlive.nodup, hlive.le⟩ ⟨rfl, rfl⟩ fun _ hid => .inl hid

omit hw in
theorem Sound.tickets (hlive : t.live = t.tickets) :
    Backed w t.family t.tickets ∧ ∀ x ∈ t.tickets, t.Owns w x.1 := by
  refine ⟨hlive ▸ h.live, fun x hx => .inl (mem_ids_of_live ?_)⟩
  rw [hlive]
  exact hx

theorem Sound.write {result : WriteResult} (hstage : t.stage = .write)
    {next : Shared × Option Task × Option (ℕ × Message)}
    (hstep : t.step w.shared (.write result) = some next) :
    Kept (t.Owns w) w { w with shared := next.1 } next.2.1 ∧ next.2.2 = none := by
  have htickets := h.tickets (by simp [Task.live, hstage])
  obtain ⟨hheld, hpipeline⟩ : t.held = true ∧ t.pipeline = false := by
    simpa only [StageSound, hstage] using h.stage
  have hreturning : t.Returning := fun hcall => nomatch hpipeline.symm.trans hcall
  unfold Task.step at hstep
  rw [hstage] at hstep
  cases result with
  | ok =>
    cases hstep
    refine ⟨Kept.continue ⟨hw, .refl _ _⟩ htickets.1 ⟨hheld, hpipeline⟩ fun id hid => ?_, rfl⟩
    obtain ⟨x, hx, rfl⟩ := List.mem_map.mp hid
    exact htickets.2 x hx
  | failed =>
    cases hstep
    exact ⟨Kept.cleanup hw.close hreturning
      ⟨htickets.1.owner, htickets.1.nodup, htickets.1.le⟩ htickets.2, rfl⟩
  | unencodable =>
    dsimp only at hstep
    split_ifs at hstep
    cases hstep
    exact ⟨Kept.cleanup ⟨hw, .refl _ _⟩ hreturning htickets.1 htickets.2, rfl⟩

omit h hw in
theorem Kept.emptied {ch : ℕ} (hw : w.Sound) (hreturning : t.Returning)
    (htickets : Backed w t.family t.tickets ∧ ∀ x ∈ t.tickets, mine x.1) :
    Kept mine w { w with shared := w.shared.withBuffer ch none } t.cleanup :=
  Kept.cleanup ⟨hw.empty, World.undisturbed_empty⟩ hreturning
    ⟨htickets.1.owner, htickets.1.nodup, htickets.1.le⟩ htickets.2

theorem Sound.receive_wait (hstage : t.stage = .wait) {m : Message}
    (hx : t.tickets.head? = some x) (hm : w.shared.buffer x.2 = some m) :
    Kept (t.Owns w) w { w with shared := w.shared.withBuffer x.2 none } t.cleanup ∧
      w.Gets (x.1, m) := by
  have htickets := h.tickets (by simp [Task.live, hstage])
  obtain ⟨-, hpipeline⟩ : t.held = true ∧ t.pipeline = false := by
    simpa only [StageSound, hstage] using h.stage
  exact ⟨Kept.emptied hw (fun hcall => nomatch hpipeline.symm.trans hcall) htickets,
    hw.gets (htickets.1.owner x (List.mem_of_mem_head? hx)) hm⟩

theorem Sound.receive_read {m : Message} (hstage : t.stage = .read (x :: rest))
    (hm : w.shared.buffer x.2 = some m) :
    Kept (t.Owns w) w { w with shared := w.shared.withBuffer x.2 none }
        (if rest = [] then t.cleanup else some { t with stage := .read rest }) ∧
      w.Gets (x.1, m) := by
  have htickets := h.tickets (by simp [Task.live, hstage])
  obtain ⟨hheld, hwritten, hrest⟩ :
      t.held = true ∧ t.written = true ∧ ∀ y ∈ x :: rest, y ∈ t.tickets := by
    simpa only [StageSound, hstage] using h.stage
  refine ⟨?_, hw.gets (htickets.1.owner x (hrest x List.mem_cons_self)) hm⟩
  split_ifs
  · exact Kept.emptied hw (fun _ => .inr hwritten) htickets
  · refine Kept.continue ⟨hw.empty, World.undisturbed_empty⟩
      ⟨htickets.1.owner, htickets.1.nodup, htickets.1.le⟩
      ⟨hheld, hwritten, fun y hy => hrest y (List.mem_cons_of_mem _ hy)⟩ fun id hid => ?_
    obtain ⟨y, hy, rfl⟩ := List.mem_map.mp hid
    exact htickets.2 y hy

theorem Sound.timeout (hstage : t.stage = .wait ∨ ∃ rest, t.stage = .read rest) :
    Kept (t.Owns w) w w t.cleanup := by
  have htickets := h.tickets (by
    rcases hstage with hstage | ⟨rest, hstage⟩ <;> simp [Task.live, hstage])
  have hreturning : t.Returning := by
    have hsound := h.stage
    rcases hstage with hstage | ⟨rest, hstage⟩
    · simp only [StageSound, hstage] at hsound
      exact fun hcall => nomatch hsound.2.symm.trans hcall
    · simp only [StageSound, hstage] at hsound
      exact fun _ => .inr hsound.2.1
  exact Kept.cleanup ⟨hw, .refl _ _⟩ hreturning htickets.1 htickets.2

theorem Sound.delete (hstage : t.stage = .delete (x :: rest)) :
    Kept (t.Owns w) w { w with shared := w.shared.withPending t.family x.1 none }
      (some { t with stage := .drain (x :: rest) }) := by
  obtain ⟨family, pipeline, tickets, stage, written, held, resets⟩ := t
  cases hstage
  obtain ⟨hlive, hreturning⟩ := h
  refine Kept.continue ⟨hw.unregister, World.undisturbed_unregister⟩
    ⟨hlive.owner, hlive.nodup, hlive.le⟩ ⟨hreturning, ?_⟩ fun _ hid => .inl hid
  rintro y ⟨⟩
  simp

theorem Sound.drain (hstage : t.stage = .drain (x :: rest))
    (hloop : ∀ f resp, w.loop ≠ .sending x.2 f resp) :
    Kept (t.Owns w) w { w with shared := w.shared.withBuffer x.2 none }
      (some { t with stage := .put (x :: rest) }) := by
  obtain ⟨family, pipeline, tickets, stage, written, held, resets⟩ := t
  cases hstage
  obtain ⟨hlive, hreturning, hpending⟩ := h
  refine Kept.continue ⟨hw.empty, World.undisturbed_empty⟩
    ⟨hlive.owner, hlive.nodup, hlive.le⟩ ⟨hreturning, ?_⟩ fun _ hid => .inl hid
  rintro y ⟨⟩
  exact ⟨hpending x rfl, by simp, hloop⟩

theorem Sound.put (hstage : t.stage = .put (x :: rest)) : Kept (t.Owns w) w
      ⟨Function.update w.owner x.2 none,
        { w.shared with pool := w.shared.pool ++ [(t.family, x.2)] }, w.loop⟩
      (if rest = [] then t.finish else some { t with stage := .delete rest }) := by
  obtain ⟨family, pipeline, tickets, stage, written, held, resets⟩ := t
  cases hstage
  obtain ⟨hlive, hreturning, hdrained⟩ := h
  have howner := hlive.owner x List.mem_cons_self
  have hmem := mem_ids_of_live
    (t := ⟨family, pipeline, tickets, .put (x :: rest), written, held, resets⟩)
    (x := x) List.mem_cons_self
  split_ifs
  · exact Kept.finish (hw.give howner (hdrained x rfl) (.inl hmem)) hreturning
  · refine Kept.continue (hw.give howner (hdrained x rfl) (.inl hmem)) ?_ hreturning
      fun id hid => .inl (List.mem_cons_of_mem _ hid)
    have hothers : w.Undisturbed (Eq x.1) _ := (hw.give howner (hdrained x rfl) rfl).2
    refine hlive.tail.mono hothers fun y hy hsame => ?_
    exact (List.nodup_cons.mp hlive.nodup).1 (hsame ▸ List.mem_map_of_mem hy)

/-! ## Operations of pipelines -/

omit h in
theorem Kept.same (h : t.Sound w) : Kept (t.Owns w) w w (some t) :=
  Kept.continue ⟨hw, .refl _ _⟩ h.live h.stage fun _ hid => .inl hid

omit hw in
theorem Sound.held_of_not_written (hstage : t.stage = .ready) (hwritten : t.written = false) :
    t.held = true := by
  have hready := h.stage
  simp only [StageSound, hstage] at hready
  by_contra hheld
  exact Bool.false_ne_true (hwritten.symm.trans (hready (Bool.eq_false_of_not_eq_true hheld)))

omit h hw in
theorem live_of_held (hstage : t.stage = .ready) (hheld : t.held = true) : t.live = t.tickets := by
  simp [Task.live, hstage, hheld]

theorem Sound.add (hstage : t.stage = .ready) (hwritten : t.written = false)
    {result : Shared × ℕ} (hresult : w.shared.newID = some result) :
    Kept (t.Owns w) w { w with shared := result.1 } (some { t with stage := .get result.2 }) := by
  have hheld := h.held_of_not_written hstage hwritten
  obtain ⟨hbacked, hmine⟩ := h.tickets (live_of_held hstage hheld)
  obtain ⟨hnext, hid, hnextID⟩ := hw.newID (t.Owns w) hresult
  have hnew : result.2 ∉ t.tickets.map Prod.fst := by
    intro hmem
    obtain ⟨x, hx, hsame⟩ := List.mem_map.mp hmem
    have := hbacked.le x hx
    omega
  refine Kept.continue hnext ⟨hbacked.owner, hbacked.nodup, fun x hx => ?_⟩
    ⟨hheld, hnew, hnextID.ge⟩ fun id hmem => ?_
  · exact (hbacked.le x hx).trans (by rw [hnextID, hid]; exact Nat.le_succ _)
  · rcases List.mem_append.mp hmem with hmem | hmem
    · obtain ⟨x, hx, rfl⟩ := List.mem_map.mp hmem
      exact hmine x hx
    · cases List.mem_singleton.mp hmem
      exact .inr (hid ▸ Nat.lt_succ_self _)

theorem Sound.flushWrite (hstage : t.stage = .ready) {result : WriteResult}
    (hnext : t.operate w.shared (.flushWrite result) = some next) :
    Kept (t.Owns w) w { w with shared := next.1 } next.2 := by
  unfold Task.operate at hnext
  dsimp only at hnext
  by_cases hwritten : t.written = true
  · rw [if_pos hwritten] at hnext
    cases hnext
    exact Kept.same hw h
  rw [if_neg hwritten] at hnext
  have hheld := h.held_of_not_written hstage (Bool.eq_false_of_not_eq_true hwritten)
  obtain ⟨hbacked, hmine⟩ := h.tickets (live_of_held hstage hheld)
  have hflushed : ∀ next : World, next.Sound ∧ w.Undisturbed (t.Owns w) next →
      Backed next t.family t.tickets → Kept (t.Owns w) w next
        { t with written := true }.cleanup :=
    fun _ hnext hbacked => Kept.cleanup hnext (fun _ => .inr rfl) hbacked hmine
  have hlater : Kept (t.Owns w) w w (some { t with written := true }) := by
    obtain ⟨family, pipeline, tickets, stage, written, held, resets⟩ := t
    cases hstage
    exact Kept.continue ⟨hw, .refl _ _⟩ h.live (fun _ => rfl) fun _ hid => .inl hid
  split_ifs at hnext
  · cases hnext
    exact hflushed w ⟨hw, .refl _ _⟩ hbacked
  · cases hnext
    exact hlater
  · cases result with
    | ok =>
      cases hnext
      exact hlater
    | failed =>
      cases hnext
      exact hflushed _ hw.close ⟨hbacked.owner, hbacked.nodup, hbacked.le⟩
    | unencodable => cases hnext

theorem Sound.readResponses (hstage : t.stage = .ready)
    (hheld : t.written = true → t.tickets = [] ∨ t.held = true)
    (hnext : t.operate w.shared .readResponses = some next) :
    Kept (t.Owns w) w { w with shared := next.1 } next.2 := by
  simp only [Task.operate] at hnext
  split_ifs at hnext with hwritten htickets
  · cases hnext
    exact Kept.same hw h
  all_goals have hwritten : t.written = true := by simpa using hwritten
  · cases hnext
    refine Kept.cleanup ⟨hw, .refl _ _⟩ (fun _ => .inr hwritten) ?_ ?_
    · exact htickets ▸ backed_nil _ _
    · rw [htickets]
      exact nofun
  · cases hnext
    have hheld := (hheld hwritten).resolve_left htickets
    obtain ⟨hbacked, hmine⟩ := h.tickets (live_of_held hstage hheld)
    refine Kept.continue ⟨hw, .refl _ _⟩ hbacked ⟨hheld, hwritten, fun _ hx => hx⟩ fun id hid => ?_
    obtain ⟨x, hx, rfl⟩ := List.mem_map.mp hid
    exact hmine x hx

theorem Sound.reset (hstage : t.stage = .ready) (hnext : t.operate w.shared .reset = some next) :
    Kept (t.Owns w) w { w with shared := next.1 } next.2 := by
  simp only [Task.operate] at hnext
  split_ifs at hnext with hwritten
  · cases hnext
    have hheld := h.held_of_not_written hstage (by simpa using hwritten)
    have hlive := h.tickets (live_of_held hstage hheld)
    exact Kept.cleanup ⟨hw, .refl _ _⟩ (fun _ => .inl rfl) hlive.1 hlive.2
  · cases hnext
    exact Kept.continue ⟨hw, .refl _ _⟩ (backed_nil _ _) nofun nofun

theorem Sound.operate {e : Event} (hstage : t.stage = .ready)
    (hreads : e = .readResponses → t.written = true → t.tickets = [] ∨ t.held = true)
    (hnext : t.operate w.shared e = some next) :
    Kept (t.Owns w) w { w with shared := next.1 } next.2 := by
  cases e with
  | add =>
    unfold Task.operate at hnext
    dsimp only at hnext
    split_ifs at hnext with hrefused
    · cases hnext
      exact Kept.same hw h
    · obtain ⟨result, hresult, rfl⟩ := Option.map_eq_some_iff.mp hnext
      exact h.add hw hstage (Bool.eq_false_of_not_eq_true fun h => hrefused (.inl h)) hresult
  | flushWrite result => exact h.flushWrite hw hstage hnext
  | readResponses => exact h.readResponses hw hstage (hreads rfl) hnext
  | reset => exact h.reset hw hstage hnext
  | abandon =>
    cases hnext
    exact ⟨hw, .refl _ _, nofun⟩
  | _ => cases hnext

end Steps

end Task

end MCache.Net.ClientConn

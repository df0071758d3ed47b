import MCache.RaftCommands
import MCache.ReplicatedServer
import MCache.WireMessages

/-!
# Acknowledged calls

A call that returns without an error has been answered by `onRaftApply`.  The
answer is found through the request id, which is unique on one server only:
when a server applies an entry that another server proposed, and its own table
holds the same number, the wrong call is answered.  In the runs in which this
does not happen, an acknowledged call was answered for its own entry.
-/

namespace MCache.Net

open MCache.Consensus

variable {S R D : Type}
variable {s later : Server S R D} {i k n : ℕ} {new : Call R D} {σ : Service S R D}
    {applied : Proposal D → Prop}

/-! ## The calls of one server -/

def Server.CallsGrow (s later : Server S R D) : Prop :=
  ∀ (k : ℕ) (call : Call R D), s.calls[k]? = some call →
    ∃ next : Call R D, later.calls[k]? = some next ∧ next.reqID = call.reqID

theorem Server.CallsGrow.of_eq (hcalls : later.calls = s.calls) : s.CallsGrow later :=
  fun _ call hget => ⟨call, hcalls ▸ hget, rfl⟩

def Server.Answered (s : Server S R D) (i k : ℕ) (res : R) : Prop :=
  ∃ entry : Proposal D, entry.server = i ∧ entry.call = k ∧ (entry, res) ∈ s.outcomes

theorem Server.Answered.mono {res : R} (hanswered : s.Answered i k res)
    (houtcomes : ∀ outcome ∈ s.outcomes, outcome ∈ later.outcomes) :
    later.Answered i k res := by
  rcases hanswered with ⟨entry, hserver, hcall, hmem⟩
  exact ⟨entry, hserver, hcall, houtcomes _ hmem⟩

theorem Server.CallsGrow.set {call : Call R D} (hget : s.calls[k]? = some call)
    (hid : new.reqID = call.reqID) (hcalls : later.calls = s.calls.set k new) :
    s.CallsGrow later := by
  intro l old hold
  rw [hcalls]
  by_cases hl : l = k
  · subst l
    rw [hget, Option.some.injEq] at hold
    subst old
    have hlt := (List.getElem?_eq_some_iff.mp hget).1
    exact ⟨new, List.getElem?_set_self hlt, hid⟩
  · exact ⟨old, by rw [List.getElem?_set_ne (Ne.symm hl), hold], rfl⟩

theorem callsGrow_update {servers : ℕ → Server S R D} (hgrow : (servers i).CallsGrow s)
    (j : ℕ) : (servers j).CallsGrow (Function.update servers i s j) := by
  by_cases hj : j = i
  · subst j
    simpa using hgrow
  · simpa [hj] using Server.CallsGrow.of_eq rfl

def Delivered (c : Cluster (Proposal D)) (i : ℕ) (entry : Proposal D) : Prop :=
  ∃ index, (i, ⟨index, entry⟩) ∈ c.applied

theorem Service.mem_applied_of_upcoming {msg : ApplyMsg (Proposal D)}
    (hmsg : σ.upcoming i = some msg) : (i, msg) ∈ σ.cluster.applied := by
  rcases List.mem_filterMap.mp (List.mem_of_getElem? hmsg) with
    ⟨⟨j, sent⟩, hmem, hsent⟩
  dsimp only at hsent
  split at hsent
  · rename_i hj
    cases hsent
    exact hj ▸ hmem
  · cases hsent

variable [Inhabited D]

def Codec.Encodes (codec : Codec D) (data : D) (id : ℕ) : Prop :=
  ∃ rc, codec.unmarshal data = some rc ∧ rc.reqID = id

structure Server.Invariant (codec : Codec D) (i : ℕ) (s : Server S R D) : Prop where
  pending : ∀ id k, s.raftPending id = some k →
    ∃ call : Call R D, s.calls[k]? = some call ∧ call.reqID = id
  ids : ∀ (k : ℕ) (call : Call R D), s.calls[k]? = some call → call.reqID ≤ s.raftNextReqID
  unique : ∀ (k l : ℕ) (first second : Call R D), s.calls[k]? = some first →
    s.calls[l]? = some second → first.reqID = second.reqID → first.reqID ≠ 0 → k = l
  encoded : ∀ (k : ℕ) (call : Call R D) (data : D), s.calls[k]? = some call →
    call.phase = .numbered data ∨ call.phase = .registered data →
    codec.Encodes data call.reqID
  answered : ∀ (k : ℕ) (call : Call R D) (res : R), s.calls[k]? = some call →
    call.channel = some res ∨ call.phase = .returned res →
    s.Answered i k res

structure Server.Moves (codec : Codec D) (i : ℕ) (applied : Proposal D → Prop)
    (s later : Server S R D) : Prop where
  invariant : later.Invariant codec i
  grow : s.CallsGrow later
  queued : ∀ entry ∈ later.proposeCh, entry ∈ s.proposeCh ∨
    entry.server = i ∧ ∃ call, later.calls[entry.call]? = some call ∧
      codec.Encodes entry.data call.reqID
  outcomes : ∀ outcome ∈ later.outcomes, outcome ∈ s.outcomes ∨ applied outcome.1

theorem Server.Moves.trans {codec : Codec D} {mid : Server S R D}
    (hfirst : s.Moves codec i applied mid) (hsecond : mid.Moves codec i applied later) :
    s.Moves codec i applied later where
  invariant := hsecond.invariant
  grow := by
    intro k call hget
    rcases hfirst.grow k call hget with ⟨between, hbetween, hid⟩
    rcases hsecond.grow k between hbetween with ⟨next, hnext, hidNext⟩
    exact ⟨next, hnext, hidNext.trans hid⟩
  queued := by
    intro entry hentry
    rcases hsecond.queued entry hentry with hmid | hnew
    · rcases hfirst.queued entry hmid with hold | ⟨hserver, call, hget, hencodes⟩
      · exact .inl hold
      · rcases hsecond.grow entry.call call hget with ⟨next, hnext, hid⟩
        exact .inr ⟨hserver, next, hnext, hid.symm ▸ hencodes⟩
    · exact .inr hnew
  outcomes := by
    intro outcome hmem
    rcases hsecond.outcomes outcome hmem with hmid | hnew
    · exact hfirst.outcomes outcome hmid
    · exact .inr hnew

theorem Server.initial_invariant (codec : Codec D) (i : ℕ) (cache : S) :
    (Server.initial cache : Server S R D).Invariant codec i := by
  constructor <;> simp [Server.initial]

theorem Server.Invariant.setCall {codec : Codec D} (hinv : s.Invariant codec i)
    {call : Call R D} (hget : s.calls[k]? = some call) (hid : new.reqID = call.reqID)
    {queue : List (Proposal D)} {pending : ℕ → Option ℕ}
    (hqueued : ∀ entry ∈ queue, entry ∈ s.proposeCh ∨
      entry.server = i ∧ entry.call = k ∧ codec.Encodes entry.data call.reqID)
    (hpending : ∀ id l, pending id = some l → s.raftPending id = some l ∨ id = call.reqID ∧ l = k)
    (hencoded : ∀ data, new.phase = .numbered data ∨ new.phase = .registered data →
      call.phase = .numbered data ∨ call.phase = .registered data)
    (hanswered : ∀ res, new.channel = some res ∨ new.phase = .returned res → s.Answered i k res) :
    s.Moves codec i applied
      { s with calls := s.calls.set k new, raftPending := pending, proposeCh := queue } := by
  have hself : (s.calls.set k new)[k]? = some new :=
    List.getElem?_set_self (List.getElem?_eq_some_iff.mp hget).1
  have hother : ∀ l : ℕ, l ≠ k → (s.calls.set k new)[l]? = s.calls[l]? :=
    fun l hl => List.getElem?_set_ne (Ne.symm hl)
  have hback : ∀ (l : ℕ) (found : Call R D), (s.calls.set k new)[l]? = some found →
      ∃ old : Call R D, s.calls[l]? = some old ∧ old.reqID = found.reqID := by
    intro l found hfound
    by_cases hl : l = k
    · subst l
      rw [hself, Option.some.injEq] at hfound
      exact ⟨call, hget, hfound ▸ hid.symm⟩
    · exact ⟨found, hother l hl ▸ hfound, rfl⟩
  have hgrow : s.CallsGrow { s with
      calls := s.calls.set k new, raftPending := pending, proposeCh := queue } :=
    Server.CallsGrow.set hget hid rfl
  refine ⟨?_, hgrow, ?_, fun _ hmem => .inl hmem⟩
  · constructor
    case pending =>
      intro id l hl
      rcases hpending id l hl with hold | ⟨rfl, rfl⟩
      · rcases hinv.pending id l hold with ⟨old, hat, rfl⟩
        exact hgrow l old hat
      · exact ⟨new, hself, hid⟩
    case ids =>
      intro l found hfound
      rcases hback l found hfound with ⟨old, hat, hsame⟩
      rw [← hsame]
      exact hinv.ids l old hat
    case unique =>
      intro l l' first second hfirst hsecond hsame hne
      rcases hback l first hfirst with ⟨old, hat, hidFirst⟩
      rcases hback l' second hsecond with ⟨old', hat', hidSecond⟩
      exact hinv.unique l l' old old' hat hat'
        (hidFirst.trans (hsame.trans hidSecond.symm)) (hidFirst ▸ hne)
    case encoded =>
      intro l found data hfound hphase
      by_cases hl : l = k
      · subst l
        rw [hself, Option.some.injEq] at hfound
        subst found
        rw [hid]
        exact hinv.encoded k call data hget (hencoded data hphase)
      · exact hinv.encoded l found data (hother l hl ▸ hfound) hphase
    case answered =>
      intro l found res hfound hphase
      by_cases hl : l = k
      · subst l
        rw [hself, Option.some.injEq] at hfound
        subst found
        exact hanswered res hphase
      · exact hinv.answered l found res (hother l hl ▸ hfound) hphase
  · intro entry hentry
    rcases hqueued entry hentry with hold | ⟨hserver, hcall, hencodes⟩
    · exact .inl hold
    · exact .inr ⟨hserver, new, hcall ▸ hself, hid.symm ▸ hencodes⟩

theorem Server.Invariant.frame {codec : Codec D} (hinv : s.Invariant codec i)
    (hcalls : later.calls = s.calls) (hnext : later.raftNextReqID = s.raftNextReqID)
    (hpending : later.raftPending = s.raftPending)
    (hqueued : ∀ entry ∈ later.proposeCh, entry ∈ s.proposeCh)
    (hkept : ∀ outcome ∈ s.outcomes, outcome ∈ later.outcomes)
    (hnew : ∀ outcome ∈ later.outcomes, outcome ∈ s.outcomes ∨ applied outcome.1) :
    s.Moves codec i applied later where
  invariant :=
    { pending := by
        rw [hpending, hcalls]
        exact hinv.pending
      ids := by
        rw [hnext, hcalls]
        exact hinv.ids
      unique := by
        rw [hcalls]
        exact hinv.unique
      encoded := by
        rw [hcalls]
        exact hinv.encoded
      answered := by
        rw [hcalls]
        intro k call res hget hphase
        exact (hinv.answered k call res hget hphase).mono hkept }
  grow := .of_eq hcalls
  queued := fun entry hentry => .inl (hqueued entry hentry)
  outcomes := hnew

theorem Server.Moves.refl {codec : Codec D} (hinv : s.Invariant codec i) :
    s.Moves codec i applied s :=
  hinv.frame rfl rfl rfl (fun _ hentry => hentry) (fun _ hmem => hmem) fun _ hmem => .inl hmem

theorem pending_of_update_none {pending : ℕ → Option ℕ} {reqID id l : ℕ}
    (hl : Function.update pending reqID none id = some l) :
    pending id = some l := by
  by_cases hid : id = reqID
  · subst id
    simp at hl
  · simpa [hid] using hl

/-! ## The steps of a call -/

theorem Server.Invariant.addCall {codec : Codec D} (hinv : s.Invariant codec i)
    {nextID : ℕ} (hnext : s.raftNextReqID ≤ nextID)
    (hid : new.reqID = 0 ∨ s.raftNextReqID < new.reqID) (hle : new.reqID ≤ nextID)
    (hchannel : new.channel = none)
    (hreturned : ∀ res, new.phase ≠ .returned res)
    (hencoded : ∀ data, new.phase = .numbered data ∨ new.phase = .registered data →
      codec.Encodes data new.reqID) :
    s.Moves codec i applied
      { s with calls := s.calls ++ [new], raftNextReqID := nextID } := by
  have hcases : ∀ (k : ℕ) (call : Call R D), (s.calls ++ [new])[k]? = some call →
      s.calls[k]? = some call ∨ k = s.calls.length ∧ call = new :=
    fun k call hget => (getElem?_append_singleton hget).imp_left And.right
  have hfresh : ∀ (k : ℕ) (call : Call R D), s.calls[k]? = some call →
      call.reqID = new.reqID → call.reqID = 0 := by
    intro k call hget hsame
    have hold := hinv.ids k call hget
    omega
  have hold : ∀ (k : ℕ) (call : Call R D), s.calls[k]? = some call →
      (s.calls ++ [new])[k]? = some call := by
    intro k call hget
    have hlt := (List.getElem?_eq_some_iff.mp hget).1
    rw [List.getElem?_append_left hlt, hget]
  constructor
  case grow => exact fun k call hget => ⟨call, hold k call hget, rfl⟩
  case queued => exact fun entry hentry => .inl hentry
  case outcomes => exact fun outcome hmem => .inl hmem
  constructor
  case pending =>
    intro id k hk
    rcases hinv.pending id k hk with ⟨call, hget, hsame⟩
    exact ⟨call, hold k call hget, hsame⟩
  case ids =>
    intro k call hget
    rcases hcases k call hget with hat | ⟨_, rfl⟩
    · exact (hinv.ids k call hat).trans hnext
    · exact hle
  case unique =>
    intro k l first second hfirst hsecond hsame hne
    rcases hcases k first hfirst with hat | ⟨hk, rfl⟩
    · rcases hcases l second hsecond with hat' | ⟨_, rfl⟩
      · exact hinv.unique k l first second hat hat' hsame hne
      · exact absurd (hfresh k first hat hsame) hne
    · rcases hcases l second hsecond with hat' | ⟨hl, _⟩
      · rw [hsame] at hne
        exact absurd (hfresh l second hat' hsame.symm) hne
      · exact hk.trans hl.symm
  case encoded =>
    intro k call data hget hphase
    rcases hcases k call hget with hat | ⟨_, rfl⟩
    · exact hinv.encoded k call data hat hphase
    · exact hencoded data hphase
  case answered =>
    intro k call res hget hphase
    rcases hcases k call hget with hat | ⟨_, rfl⟩
    · exact hinv.answered k call res hat hphase
    · rcases hphase with hsome | hres
      · rw [hchannel] at hsome
        cases hsome
      · exact absurd hres (hreturned res)

theorem Server.Invariant.beginPropose {m : Machine S R D}
    (hinv : s.Invariant m.toCodec i) (state : State) (rc : RaftCommand) :
    s.Moves m.toCodec i applied (s.beginPropose m state rc) := by
  unfold Server.beginPropose
  split
  · apply hinv.addCall
    case hnext => exact le_rfl
    case hid => exact .inl rfl
    all_goals simp
  · apply hinv.addCall
    case hid => exact .inr (Nat.lt_succ_self _)
    case hnext => exact Nat.le_succ _
    case hle => exact le_rfl
    case hchannel => rfl
    case hreturned =>
      intro res
      split <;> simp
    case hencoded =>
      intro data hphase
      cases hdata : m.marshal { rc with reqID := s.raftNextReqID + 1 } with
      | none => simp [hdata] at hphase
      | some encoded =>
        simp only [hdata, Phase.numbered.injEq, reduceCtorEq, or_false] at hphase
        subst data
        exact m.reqID_unmarshal _ encoded hdata

section CallSteps

variable {codec : Codec D} {i k : ℕ} {applied : Proposal D → Prop}
variable {s later : Server S R D}

theorem Server.Invariant.answered_of_channel (hinv : s.Invariant codec i)
    {call new : Call R D} (hget : s.calls[k]? = some call)
    (hchannel : new.channel = call.channel)
    (hphase : ∀ res, new.phase ≠ .returned res) (res : R)
    (hres : new.channel = some res ∨ new.phase = .returned res) :
    s.Answered i k res := by
  rcases hres with hsome | hreturned
  · exact hinv.answered k call res hget (.inl (hchannel ▸ hsome))
  · exact absurd hreturned (hphase res)

theorem Server.Invariant.register (hinv : s.Invariant codec i)
    (hstep : s.register k = some later) : s.Moves codec i applied later := by
  unfold Server.register at hstep
  split at hstep
  · rename_i id channel data hget
    cases hstep
    apply hinv.setCall hget
    case hid => rfl
    case hqueued => exact fun _ hentry => .inl hentry
    case hpending =>
      intro other l hl
      by_cases hother : other = id
      · subst other
        simp only [Function.update_self, Option.some.injEq] at hl
        exact .inr ⟨rfl, hl.symm⟩
      · simp only [ne_eq, hother, not_false_eq_true, Function.update_of_ne] at hl
        exact .inl hl
    case hencoded =>
      intro other hphase
      simp only [reduceCtorEq, Phase.registered.injEq, false_or] at hphase
      exact .inl (hphase ▸ rfl)
    case hanswered => exact hinv.answered_of_channel hget rfl nofun
  · cases hstep

theorem Server.Invariant.submit {state : State} (hinv : s.Invariant codec i)
    (hstep : s.submit i state k = some later) :
    s.Moves codec i applied later := by
  unfold Server.submit at hstep
  split at hstep
  · rename_i id channel data hget
    split at hstep
    · cases hstep
      apply hinv.setCall hget
      case hid => rfl
      case hqueued =>
        intro entry hentry
        rcases List.mem_append.mp hentry with hold | hnew
        · exact .inl hold
        · rw [List.mem_singleton.mp hnew]
          exact .inr ⟨rfl, rfl, hinv.encoded k _ data hget (.inr rfl)⟩
      case hpending => exact fun _ _ hl => .inl hl
      case hencoded => simp
      case hanswered => exact hinv.answered_of_channel hget rfl nofun
    · cases hstep
      apply hinv.setCall hget
      case hid => rfl
      case hqueued => exact fun _ hentry => .inl hentry
      case hpending => exact fun _ _ hl => .inl (pending_of_update_none hl)
      case hencoded => simp
      case hanswered => exact hinv.answered_of_channel hget rfl nofun
  · cases hstep

theorem Server.Invariant.receive (hinv : s.Invariant codec i)
    (hstep : s.receive k = some later) : s.Moves codec i applied later := by
  unfold Server.receive at hstep
  split at hstep
  · rename_i id res hget
    cases hstep
    apply hinv.setCall hget
    case hid => rfl
    case hqueued => exact fun _ hentry => .inl hentry
    case hpending => exact fun _ _ hl => .inl hl
    case hencoded => simp
    case hanswered =>
      intro answer hphase
      simp only [reduceCtorEq, Phase.returned.injEq, false_or] at hphase
      subst answer
      exact hinv.answered k _ res hget (.inl rfl)
  · cases hstep

theorem Server.Invariant.timeout (hinv : s.Invariant codec i)
    (hstep : s.timeout k = some later) : s.Moves codec i applied later := by
  unfold Server.timeout at hstep
  split at hstep
  · rename_i id channel hget
    cases hstep
    apply hinv.setCall hget
    case hid => rfl
    case hqueued => exact fun _ hentry => .inl hentry
    case hpending => exact fun _ _ hl => .inl (pending_of_update_none hl)
    case hencoded => simp
    case hanswered => exact hinv.answered_of_channel hget rfl nofun
  · cases hstep

/-! ## The apply callback -/

theorem Server.Invariant.notifyRaftPending {reqID : ℕ}
    (hinv : s.Invariant codec i) {entry : Proposal D}
    {res : R} (hmem : (entry, res) ∈ s.outcomes)
    (hown : s.raftPending reqID ≠ none → entry.server = i ∧
      ∃ call : Call R D, s.calls[entry.call]? = some call ∧ call.reqID = reqID) :
    s.Moves codec i applied (s.notifyRaftPending reqID res) := by
  unfold Server.notifyRaftPending
  split
  · exact .refl hinv
  · rename_i hne
    split
    · exact .refl hinv
    · rename_i k hpending
      rcases hinv.pending reqID k hpending with ⟨call, hget, hid⟩
      rcases hown (by simp [hpending]) with ⟨hserver, own, hgetOwn, hidOwn⟩
      have hsame : entry.call = k := hinv.unique entry.call k own call hgetOwn hget
          (hidOwn.trans hid.symm) (hidOwn ▸ hne)
      rw [List.modify_eq_set_getElem?, hget]
      apply hinv.setCall hget
      case hid => rfl
      case hqueued => exact fun _ hentry => .inl hentry
      case hpending => exact fun _ _ hl => .inl (pending_of_update_none hl)
      case hencoded => exact fun _ hphase => hphase
      case hanswered =>
        intro answer hphase
        rcases hphase with hsome | hreturned
        · simp only [Option.some.injEq] at hsome
          subst answer
          exact ⟨entry, hserver, hsame, hmem⟩
        · exact hinv.answered k call answer hget (.inr hreturned)

end CallSteps

theorem Server.Invariant.onRaftApply {m : Machine S R D}
    (hinv : s.Invariant m.toCodec i) {entry : Proposal D} (happlied : applied entry)
    (hown : ∀ rc, m.unmarshal entry.data = some rc →
      s.raftPending rc.reqID ≠ none → entry.server = i ∧
      ∃ call : Call R D, s.calls[entry.call]? = some call ∧ call.reqID = rc.reqID) :
    s.Moves m.toCodec i applied (s.onRaftApply m entry) := by
  unfold Server.onRaftApply
  split
  · exact .refl hinv
  · rename_i rc hrc
    have hrun : s.Moves m.toCodec i applied { s with
        cache := (m.execute s.cache rc).1
        outcomes := s.outcomes ++ [(entry, (m.execute s.cache rc).2)] } := by
      apply hinv.frame
      case hcalls => rfl
      case hnext => rfl
      case hpending => rfl
      case hqueued => exact fun _ hentry => hentry
      case hkept => exact fun _ hmem => List.mem_append_left _ hmem
      case hnew =>
        intro outcome hmem
        rcases List.mem_append.mp hmem with hold | hlast
        · exact .inl hold
        · rw [List.mem_singleton.mp hlast]
          exact .inr happlied
    dsimp only
    split
    · apply hrun.trans
      apply hrun.invariant.notifyRaftPending
      case hmem => exact List.mem_append_right _ (List.mem_singleton.mpr rfl)
      case hown => exact hown rc hrc
    · exact hrun

/-! ## The whole service -/

def Genuine (codec : Codec D) (servers : ℕ → Server S R D) (entry : Proposal D) : Prop :=
  ∃ call, (servers entry.server).calls[entry.call]? = some call ∧
    codec.Encodes entry.data call.reqID

theorem Genuine.mono {codec : Codec D} {servers later : ℕ → Server S R D}
    {entry : Proposal D} (hentry : Genuine codec servers entry)
    (hgrow : ∀ j, (servers j).CallsGrow (later j)) :
    Genuine codec later entry := by
  rcases hentry with ⟨call, hget, hencodes⟩
  rcases hgrow entry.server entry.call call hget with ⟨next, hnext, hid⟩
  exact ⟨next, hnext, hid.symm ▸ hencodes⟩

structure Service.Invariant (m : Machine S R D) (σ : Service S R D) : Prop where
  server : ∀ i, (σ.servers i).Invariant m.toCodec i
  queued : ∀ i, ∀ entry ∈ (σ.servers i).proposeCh, Genuine m.toCodec σ.servers entry
  carried : σ.cluster.Carries fun entry =>
    m.unmarshal entry.data = none ∨ Genuine m.toCodec σ.servers entry
  outcome : ∀ i entry res, (entry, res) ∈ (σ.servers i).outcomes → Delivered σ.cluster i entry

theorem Service.init_invariant {m : Machine S R D} (hinit : (service m n).init σ) :
    σ.Invariant m := by
  rcases hinit with ⟨⟨peers, _, hcluster⟩, hservers⟩
  constructor
  case server =>
    intro i
    rcases hservers i with ⟨cache, hcache⟩
    rw [hcache]
    exact Server.initial_invariant _ _ _
  case queued =>
    intro i
    rcases hservers i with ⟨cache, hcache⟩
    simp [hcache, Server.initial]
  case carried =>
    rw [hcluster]
    exact Cluster.initial_carries peers (.inl m.unmarshal_nil)
  case outcome =>
    intro i
    rcases hservers i with ⟨cache, hcache⟩
    simp [hcache, Server.initial]

theorem Service.Invariant.withServer {m : Machine S R D} (hinv : σ.Invariant m)
    (hmoves : (σ.servers i).Moves m.toCodec i (Delivered σ.cluster i) s) :
    (σ.withServer i s).Invariant m := by
  have hgrow := callsGrow_update hmoves.grow
  have hself : (σ.withServer i s).servers i = s := by
    simp [Service.withServer]
  have hother : ∀ j, j ≠ i → (σ.withServer i s).servers j = σ.servers j := by
    intro j hj
    simp [Service.withServer, hj]
  constructor
  case server =>
    intro j
    by_cases hj : j = i
    · subst j
      exact hself.symm ▸ hmoves.invariant
    · exact hother j hj ▸ hinv.server j
  case queued =>
    intro j entry hentry
    by_cases hj : j = i
    · subst j
      rw [hself] at hentry
      rcases hmoves.queued entry hentry with hold | ⟨hserver, call, hget, hcode⟩
      · exact (hinv.queued i entry hold).mono hgrow
      · refine ⟨call, ?_, hcode⟩
        rw [hserver, hself]
        exact hget
    · rw [hother j hj] at hentry
      exact (hinv.queued j entry hentry).mono hgrow
  case carried =>
    apply hinv.carried.mono
    intro entry hentry
    exact hentry.imp_right fun hgenuine => hgenuine.mono hgrow
  case outcome =>
    intro j entry res hmem
    by_cases hj : j = i
    · subst j
      rw [hself] at hmem
      rcases hmoves.outcomes _ hmem with hold | hnew
      · exact hinv.outcome i entry res hold
      · exact hnew
    · rw [hother j hj] at hmem
      exact hinv.outcome j entry res hmem

theorem Service.Invariant.withCluster {m : Machine S R D} (hinv : σ.Invariant m)
    {a : Action (Proposal D)} {cluster : Cluster (Proposal D)}
    (hpropose : ∀ i entry, a = .propose i entry → Genuine m.toCodec σ.servers entry)
    (hstep : σ.cluster.step n a = some cluster) :
    ({ σ with cluster := cluster } : Service S R D).Invariant m :=
  { hinv with
    carried := hinv.carried.step (fun i entry ha => .inr (hpropose i entry ha)) hstep
    outcome := by
      intro i entry res hmem
      rcases hinv.outcome i entry res hmem with ⟨index, happlied⟩
      exact ⟨index, (Cluster.applied_prefix_step hstep).subset happlied⟩ }

/-! ## Runs in which no foreign entry meets a pending call -/

def Service.AnswersForeign (m : Machine S R D) (σ : Service S R D) (i : ℕ)
    (msg : ApplyMsg (Proposal D)) : Prop :=
  msg.command.server ≠ i ∧ ∃ rc ∈ m.unmarshal msg.command.data,
      (σ.servers i).raftPending rc.reqID ≠ none

def Service.NoForeignAnswer (m : Machine S R D) (σ : Service S R D) : ServiceAction S D → Prop
  | .apply i => ∀ msg ∈ σ.upcoming i, ¬ σ.AnswersForeign m i msg
  | _ => True

instance (m : Machine S R D) (σ : Service S R D) (i : ℕ)
    (msg : ApplyMsg (Proposal D)) : Decidable (σ.AnswersForeign m i msg) :=
  inferInstanceAs (Decidable (_ ∧ _))

instance (m : Machine S R D) (σ : Service S R D) (a : ServiceAction S D) :
    Decidable (σ.NoForeignAnswer m a) :=
  match a with
  | .apply i =>
    inferInstanceAs (Decidable (∀ msg ∈ σ.upcoming i, ¬ σ.AnswersForeign m i msg))
  | .raft _ | .accept _ | .beginPropose _ _ | .register _ _ | .submit _ _
  | .receive _ _ | .timeout _ _ | .serve _ _ => isTrue trivial

theorem Service.Invariant.apply {m : Machine S R D} (hinv : σ.Invariant m)
    {msg : ApplyMsg (Proposal D)} (hmsg : σ.upcoming i = some msg)
    (hforeign : ¬ σ.AnswersForeign m i msg) :
    (σ.withServer i
      { (σ.servers i).onRaftApply m msg.command with
        consumed := (σ.servers i).consumed + 1 }).Invariant m := by
  have happlied := Service.mem_applied_of_upcoming hmsg
  have hown : ∀ rc, m.unmarshal msg.command.data = some rc →
      (σ.servers i).raftPending rc.reqID ≠ none → msg.command.server = i ∧
      ∃ call : Call R D, (σ.servers i).calls[msg.command.call]? = some call ∧
        call.reqID = rc.reqID := by
    intro rc hrc hpending
    have hserver : msg.command.server = i := by
      by_contra hne
      exact hforeign ⟨hne, rc, hrc, hpending⟩
    rcases hinv.carried.applied i msg happlied with hnone | hgenuine
    · rw [hrc] at hnone
      cases hnone
    · rcases hgenuine with ⟨call, hget, decoded, hdecoded, hid⟩
      have hsame : rc = decoded := Option.some.inj (hrc.symm.trans hdecoded)
      rw [hserver] at hget
      exact ⟨hserver, call, hget, hsame ▸ hid.symm⟩
  have hdelivered : Delivered σ.cluster i msg.command := ⟨msg.index, happlied⟩
  have hmoves := (hinv.server i).onRaftApply hdelivered hown
  apply hinv.withServer
  exact hmoves.trans (hmoves.invariant.frame rfl rfl rfl
    (fun _ hentry => hentry) (fun _ hmem => hmem) fun _ hmem => .inl hmem)

theorem Service.Invariant.step {m : Machine S R D} {next : Service S R D}
    (hinv : σ.Invariant m) {a : ServiceAction S D} (hallowed : σ.NoForeignAnswer m a)
    (hstep : σ.step m n a = some next) : next.Invariant m := by
  cases a with
  | raft a =>
    cases a with
    | propose i entry => cases hstep
    | _ =>
      simp only [Service.step, Option.map_eq_some_iff] at hstep
      rcases hstep with ⟨cluster, hcluster, rfl⟩
      exact hinv.withCluster (fun _ _ ha => by cases ha) hcluster
  | accept i =>
    simp only [Service.step] at hstep
    split at hstep
    · cases hstep
    · rename_i entry rest hqueue
      rcases Option.map_eq_some_iff.mp hstep with ⟨cluster, hcluster, rfl⟩
      have hmoved := hinv.withCluster (fun j cmd ha => by
        cases ha
        exact hinv.queued i entry (by simp [hqueue])) hcluster
      apply hmoved.withServer
      apply (hinv.server i).frame
      case hqueued =>
        intro other hother
        simp [hqueue, show other ∈ rest from hother]
      case hkept => exact fun _ hmem => hmem
      case hnew => exact fun _ hmem => .inl hmem
      all_goals rfl
  | apply i =>
    rcases Option.map_eq_some_iff.mp hstep with ⟨msg, hmsg, rfl⟩
    exact hinv.apply hmsg (hallowed msg hmsg)
  | beginPropose i rc =>
    cases hstep
    exact hinv.withServer ((hinv.server i).beginPropose _ rc)
  | register i k =>
    rcases Option.map_eq_some_iff.mp hstep with ⟨s, hs, rfl⟩
    exact hinv.withServer ((hinv.server i).register hs)
  | submit i k =>
    rcases Option.map_eq_some_iff.mp hstep with ⟨s, hs, rfl⟩
    exact hinv.withServer ((hinv.server i).submit hs)
  | receive i k =>
    rcases Option.map_eq_some_iff.mp hstep with ⟨s, hs, rfl⟩
    exact hinv.withServer ((hinv.server i).receive hs)
  | timeout i k =>
    rcases Option.map_eq_some_iff.mp hstep with ⟨s, hs, rfl⟩
    exact hinv.withServer ((hinv.server i).timeout hs)
  | serve i cache =>
    cases hstep
    apply hinv.withServer
    apply (hinv.server i).frame
    case hqueued => exact fun _ hentry => hentry
    case hkept => exact fun _ hmem => hmem
    case hnew => exact fun _ hmem => .inl hmem
    all_goals rfl

theorem raftPropose_acknowledged {m : Machine S R D} {n : ℕ}
    {σ : Service S R D}
    (hreach : (service m n).ReachableBy (Service.NoForeignAnswer m) σ)
    {i k : ℕ} {call : Call R D} {res : R}
    (hcall : (σ.servers i).calls[k]? = some call)
    (hreturned : call.phase = .returned res) :
    ∃ entry : Proposal D, entry.server = i ∧ entry.call = k ∧
      Delivered σ.cluster i entry ∧ (entry, res) ∈ (σ.servers i).outcomes := by
  have hinv : σ.Invariant m :=
    hreach.invariant (Service.Invariant m) (fun _ => Service.init_invariant)
      fun _ _ _ hinv hallowed hstep => hinv.step hallowed hstep
  rcases (hinv.server i).answered k call res hcall (.inr hreturned) with
    ⟨entry, hserver, hk, hmem⟩
  exact ⟨entry, hserver, hk, hinv.outcome i entry res hmem, hmem⟩

/-! ## Two servers that number alike -/

def echo : Machine Unit Bytes (Option RaftCommand) where
  marshal := fun rc => some (some rc)
  unmarshal := fun data => data
  unmarshal_nil := rfl
  reqID_unmarshal := fun rc _ hdata => ⟨rc, (Option.some.inj hdata).symm, rfl⟩
  execute := fun _ rc => ((), rc.key)

def threeServers : Service Unit Bytes (Option RaftCommand) where
  cluster := Cluster.initial fun _ => ["a", "b", "c"]
  servers := fun _ => Server.initial ()

theorem threeServers_init : (service echo 3).init threeServers :=
  ⟨⟨_, fun _ => rfl, rfl⟩, fun _ => ⟨(), rfl⟩⟩

def setCommand (key : Bytes) : RaftCommand :=
  { (default : RaftCommand) with op := Cmd.set.code, key := key }

def firstCall : List (ServiceAction Unit (Option RaftCommand)) :=
  [.raft (.electionTimeout 1), .raft (.deliver 0), .raft (.deliver 1),
    .beginPropose 1 (setCommand [97]), .register 1 0, .submit 1 0, .accept 1]

def firstAnswer : List (ServiceAction Unit (Option RaftCommand)) :=
  [.raft (.deliver 1), .raft (.deliver 2), .apply 1, .receive 1 0]

def secondCall : List (ServiceAction Unit (Option RaftCommand)) :=
  [.raft (.electionTimeout 2), .raft (.deliver 4), .raft (.deliver 4),
    .beginPropose 2 (setCommand [98]), .register 2 0, .submit 2 0, .accept 2,
    .raft (.deliver 5), .raft (.deliver 5), .raft (.heartbeatTimeout 2),
    .raft (.deliver 5), .apply 1, .receive 1 0]

theorem raftPropose_acknowledged_firstCall :
    ∃ σ, (service echo 3).ReachableBy (Service.NoForeignAnswer echo) σ ∧
      ∃ entry : Proposal (Option RaftCommand),
        entry.server = 1 ∧ entry.call = 0 ∧ Delivered σ.cluster 1 entry ∧
          (entry, [97]) ∈ (σ.servers 1).outcomes := by
  have hrun : ((service echo 3).runBy (Service.NoForeignAnswer echo)
      threeServers (firstCall ++ firstAnswer)).map (fun σ => (σ.servers 1).calls[0]?) =
      some (some ⟨1, none, .returned [97]⟩) := by
    decide +kernel
  rcases TransitionSystem.exists_reachableBy threeServers_init hrun with
    ⟨σ, hreach, hcall⟩
  exact ⟨σ, hreach, raftPropose_acknowledged hreach hcall rfl⟩

theorem lost_call_acknowledged : ∃ σ, (service echo 3).Reachable σ ∧
      (σ.servers 1).calls[0]? = some ⟨1, none, .returned [98]⟩ ∧
      ∀ entry : Proposal (Option RaftCommand), Delivered σ.cluster 1 entry →
        ¬ (entry.server = 1 ∧ entry.call = 0) := by
  have hrun : ((service echo 3).runFrom threeServers
      (firstCall ++ secondCall)).map (fun σ => ((σ.servers 1).calls[0]?,
          σ.cluster.applied.map fun sent =>
            (sent.1, sent.2.command.server, sent.2.command.call))) =
      some (some ⟨1, none, .returned [98]⟩, [(2, 2, 0), (1, 2, 0)]) := by
    decide +kernel
  rcases TransitionSystem.exists_reachableBy threeServers_init hrun with
    ⟨σ, hreach, hfinal⟩
  rcases Prod.mk.inj hfinal with ⟨hcall, happlied⟩
  refine ⟨σ, hreach, hcall, ?_⟩
  rintro entry ⟨index, hmem⟩ ⟨hserver, hk⟩
  have hsent := List.mem_map_of_mem (f := fun sent : ℕ × ApplyMsg (Proposal (Option RaftCommand)) =>
      (sent.1, sent.2.command.server, sent.2.command.call)) hmem
  rw [happlied] at hsent
  simp [hserver] at hsent

end MCache.Net
